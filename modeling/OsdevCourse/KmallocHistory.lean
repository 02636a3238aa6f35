import OsdevCourse.KmallocInvariant

/-!
# The calls of one client

What a client of the kernel heap holds is read off its own calls. The client is entitled to
free what it holds, and as long as it frees nothing else `kmalloc` answers with blocks that it
does not hold yet.
-/

namespace OsdevCourse.Kmalloc

set_option autoImplicit false

deriving instance DecidableEq for Action

variable {ps fs : List Nat} {h h' pre : List Action} {a : Action} {n p : Nat}

/-- The pointers held after one more call. -/
def hold (ps : List Nat) : Action → List Nat
  | .kmalloc _ p => if p = 0 then ps else p :: ps
  | .kfree p => if p = 0 then ps else ps.erase p
  | .store _ _ => ps

def held (h : List Action) : List Nat := h.foldl hold []

def FreesHeld (ps : List Nat) : Action → Prop
  | .kfree p => p = 0 ∨ p ∈ ps
  | _ => True

/-- Whatever is freed but NULL was returned before and has not been freed since; `ps` is held at
the beginning. -/
def OwnsFreed : List Nat → List Action → Prop
  | _, [] => True
  | ps, a :: h => FreesHeld ps a ∧ OwnsFreed (hold ps a) h

theorem ownsFreed_append : OwnsFreed ps (h ++ h') ↔ OwnsFreed ps h ∧
    OwnsFreed (h.foldl hold ps) h' := by
  induction h generalizing ps with
  | nil => exact (and_iff_right trivial).symm
  | cons a h ih =>
    simp only [List.cons_append, OwnsFreed, List.foldl_cons]
    rw [ih, and_assoc]

/-- A client that only frees from now on frees each of its blocks once. -/
theorem ownsFreed_frees (hps : ps.Nodup) (hfs : 0 ∉ fs) :
    OwnsFreed ps (fs.map .kfree) ↔ fs.Nodup ∧ ∀ p ∈ fs, p ∈ ps := by
  induction fs generalizing ps with
  | nil => exact iff_of_true trivial ⟨List.nodup_nil, by simp⟩
  | cons p fs ih =>
    have hp : p ≠ 0 := fun heq => hfs (heq ▸ List.mem_cons_self)
    simp only [List.map_cons, OwnsFreed, FreesHeld, hold, if_neg hp, or_iff_right hp]
    rw [ih (hps.erase p) fun hmem => hfs (List.mem_cons_of_mem p hmem), List.nodup_cons,
      List.forall_mem_cons]
    simp only [hps.mem_erase_iff]
    constructor
    · intro hand
      obtain ⟨hmem, hnodup, hrest⟩ := hand
      exact ⟨⟨fun hin => (hrest p hin).1 rfl, hnodup⟩, hmem, fun q hq => (hrest q hq).2⟩
    · intro hand
      obtain ⟨⟨hnot, hnodup⟩, hmem, hrest⟩ := hand
      exact ⟨hmem, hnodup, fun q hq => ⟨fun heq => hnot (heq ▸ hq), hrest q hq⟩⟩

/-- The address lies in a block that was freed and has not been returned again. -/
def InFreed (h : List Action) (a : Nat) : Prop :=
  ∃ pre n p mid post, h = pre ++ .kmalloc n p :: mid ++ .kfree p :: post ∧ p ≠ 0 ∧
    p ≤ a ∧ a < p + n ∧
    ∀ k, Action.kmalloc k p ∉ mid ++ post

theorem not_inFreed_null : ¬ InFreed h 0 := by
  intro hin
  obtain ⟨_, _, p, _, _, _, hp, hle, _⟩ := hin
  omega

/-! ### What kmalloc promises -/

/-- The call is one that `answer` gives after the calls `pre`. -/
def AnsweredAt (answer : List Action → Nat → Nat) (pre : List Action) : Action → Prop
  | .kmalloc n p => p = answer pre n
  | _ => True

def AnsweredFrom (answer : List Action → Nat → Nat) : List Action → List Action → Prop
  | _, [] => True
  | pre, a :: h => AnsweredAt answer pre a ∧ AnsweredFrom answer (pre ++ [a]) h

theorem answeredFrom_append {answer : List Action → Nat → Nat} :
    AnsweredFrom answer pre (h ++ h') ↔
      AnsweredFrom answer pre h ∧ AnsweredFrom answer (pre ++ h) h' := by
  induction h generalizing pre with
  | nil =>
    rw [List.append_nil]
    exact (and_iff_right trivial).symm
  | cons a h ih =>
    simp only [List.cons_append, AnsweredFrom]
    rw [ih, and_assoc, List.append_assoc, List.singleton_append]

/-- The calls of a client that frees only what it holds. -/
structure Proper (answer : List Action → Nat → Nat) (h : List Action) : Prop where
  answered : AnsweredFrom answer [] h
  frees : OwnsFreed [] h

/-- A heap that answers the requests of a client; what others call in between is up to `answer`. -/
structure Allocator where
  base : Nat
  size : Nat
  limit : base + size ≤ 2 ^ 32
  answer : List Action → Nat → Nat
  fresh : ∀ h n, Proper answer h → answer h n ≠ 0 → answer h n ∉ held h
  inside : ∀ h n, Proper answer h → n + 31 < 2 ^ 32 → answer h n ≠ 0 →
    base ≤ answer h n ∧ answer h n + n ≤ base + size

/-- There is room for some small blocks behind a block of `n` bytes. -/
def Ample (A : Allocator) (n : Nat) : Prop :=
  ∀ p h k, Proper A.answer (.kmalloc n p :: h) → (∀ i q, Action.kmalloc i q ∈ h → i ≤ 48) →
    h.length ≤ 100 → k ≤ 48 → A.answer (.kmalloc n p :: h) k ≠ 0

/-- A client with the blocks `ps` to free. -/
structure Owns (A : Allocator) (h : List Action) (ps : List Nat) : Prop where
  proper : Proper A.answer h
  held : (held h).Perm ps
  nodup : ps.Nodup
  pos : 0 ∉ ps

namespace Owns
variable {A : Allocator}

theorem nil : Owns A [] [] := ⟨⟨trivial, trivial⟩, .nil, List.nodup_nil, List.not_mem_nil⟩

theorem perm {qs : List Nat} (ho : Owns A h ps) (hperm : ps.Perm qs) : Owns A h qs :=
  ⟨ho.proper, ho.held.trans hperm, hperm.nodup_iff.1 ho.nodup,
    fun hmem => ho.pos (hperm.mem_iff.2 hmem)⟩

theorem snoc (ho : Owns A h ps) (ha : AnsweredAt A.answer h a) (hf : FreesHeld (Kmalloc.held h) a) :
    Proper A.answer (h ++ [a]) ∧ Kmalloc.held (h ++ [a]) = hold (Kmalloc.held h) a := by
  refine ⟨⟨?_, ?_⟩, ?_⟩
  · exact answeredFrom_append.2 ⟨ho.proper.answered, ha, trivial⟩
  · exact ownsFreed_append.2 ⟨ho.proper.frees, hf, trivial⟩
  · unfold Kmalloc.held
    rw [List.foldl_append, List.foldl_cons, List.foldl_nil]

theorem kmalloc (ho : Owns A h ps) (hp : A.answer h n ≠ 0) :
    Owns A (h ++ [.kmalloc n (A.answer h n)]) (A.answer h n :: ps) := by
  obtain ⟨hproper, hheld⟩ := ho.snoc (a := .kmalloc n (A.answer h n)) rfl trivial
  have hnew : A.answer h n ∉ ps := fun hmem =>
    A.fresh h n ho.proper hp (ho.held.mem_iff.2 hmem)
  refine ⟨hproper, ?_, List.nodup_cons.2 ⟨hnew, ho.nodup⟩, ?_⟩
  · rw [hheld, hold, if_neg hp]
    exact ho.held.cons _
  · intro hmem
    cases List.mem_cons.1 hmem with
    | inl heq => exact hp heq.symm
    | inr hmem => exact ho.pos hmem

theorem kfree (ho : Owns A h (p :: ps)) : Owns A (h ++ [.kfree p]) ps := by
  have hp : p ≠ 0 := fun heq => ho.pos (heq ▸ List.mem_cons_self)
  have hmem : p ∈ Kmalloc.held h := ho.held.mem_iff.2 List.mem_cons_self
  obtain ⟨hproper, hheld⟩ := ho.snoc (a := .kfree p) trivial (.inr hmem)
  refine ⟨hproper, ?_, (List.nodup_cons.1 ho.nodup).2, fun h0 => ho.pos (List.mem_cons_of_mem p h0)⟩
  rw [hheld, hold, if_neg hp]
  have herase := ho.held.erase p
  rwa [List.erase_cons_head] at herase

theorem frees_iff (ho : Owns A h ps) (hfs : 0 ∉ fs) :
    OwnsFreed [] (h ++ fs.map .kfree) ↔ fs.Nodup ∧ ∀ p ∈ fs, p ∈ ps := by
  have hnodup : (Kmalloc.held h).Nodup := ho.held.nodup_iff.2 ho.nodup
  rw [ownsFreed_append, and_iff_right ho.proper.frees]
  refine (ownsFreed_frees hnodup hfs).trans (and_congr_right fun _ => ?_)
  exact forall₂_congr fun p _ => ho.held.mem_iff

end Owns

/-! ### The kernel heap keeps the promise -/

section
variable {l : Layout} {m t : Machine} {k : Kernel}

theorem map_eraseP (live : List (Nat × Nat)) :
    (live.eraseP fun c => c.1 = p).map Prod.fst = (live.map Prod.fst).erase p := by
  induction live with
  | nil => rfl
  | cons c cs ih =>
    rw [List.map_cons, List.eraseP_cons, List.erase_cons]
    cases Classical.em (c.1 = p) with
    | inl hc => rw [if_pos (by simpa using hc), decide_eq_true hc, cond_true]
    | inr hc =>
      rw [if_neg (by simpa using hc), decide_eq_false hc, cond_false, List.map_cons, ih]

theorem hold_live (hstep : Step l m a t) : t.live.map Prod.fst = hold (m.live.map Prod.fst) a := by
  cases a with
  | kmalloc n p =>
    obtain ⟨_, k, _, heq⟩ := hstep
    rw [heq]
    cases Classical.em (p = 0) with
    | inl hp => rw [Machine.returned, hold, if_pos hp, if_pos hp]
    | inr hp => rw [Machine.returned, hold, if_neg hp, if_neg hp, List.map_cons]
  | kfree p =>
    have heq : t = m.released (kfree l p m.kernel) p := hstep
    rw [heq]
    cases Classical.em (p = 0) with
    | inl hp => rw [Machine.released, hold, if_pos hp, if_pos hp]
    | inr hp => rw [Machine.released, hold, if_neg hp, if_neg hp, map_eraseP]
  | store a byte =>
    have heq : t = m.stored a byte := hstep
    rw [heq]
    rfl

theorem foldl_hold_live {as : List Action} (hrun : Run (Guarded (Step l) Allowed) m as t) :
    t.live.map Prod.fst = as.foldl hold (m.live.map Prod.fst) := by
  induction hrun with
  | nil m => rfl
  | cons hstep _ ih => rw [ih, hold_live hstep.2, List.foldl_cons]

theorem held_live {as : List Action} (hrun : Run (Guarded (Step l) Allowed) ⟨k, [], []⟩ as m) :
    m.live.map Prod.fst = held as := foldl_hold_live hrun

/-- After any history of calls `kmalloc` returns NULL or a block inside the heap that the history
does not hold. -/
theorem kmalloc_keeps_promise {as : List Action} (hboot : Boot l k)
    (hrun : Run (Guarded (Step l) Allowed) ⟨k, [], []⟩ as m) (hallow : Allowed m (.kmalloc n p))
    (hstep : Step l m (.kmalloc n p) t) (hp : p ≠ 0) :
    p ∉ held as ∧ heapStart l ≤ p ∧ p + n ≤ heapStart l + 1024 * 1024 * 16 := by
  have hinv := Inv.of_run hboot hrun
  have hinv' : Inv l t := hinv.step ⟨hallow, hstep⟩
  obtain ⟨_, k', _, heq⟩ := hstep
  have hlive : t.live = (p, n) :: m.live := by
    rw [heq, Machine.returned, if_neg hp]
  obtain ⟨bs, harena, hperm⟩ := hinv'.blocks
  have hnodup : t.nodes.Nodup :=
    (List.nodup_append.1 (hperm.nodup_iff.1 harena.tiles.nodup)).1
  have hmem : (p, n) ∈ t.live := by
    rw [hlive]
    exact List.mem_cons_self
  have hbounds := harena.tiles.within (Inv.mem_blocks hperm hmem)
  obtain ⟨h16, hfits⟩ := hinv'.live _ hmem
  have hptr := hinv'.ptr_lt
  refine ⟨?_, by omega, by omega⟩
  intro hheld
  rw [← held_live hrun] at hheld
  obtain ⟨c, hc, hcp⟩ := List.mem_map.1 hheld
  unfold Machine.nodes at hnodup
  rw [hlive, List.map_cons, List.nodup_cons] at hnodup
  exact hnodup.1 (List.mem_map.2 ⟨c, hc, by rw [hcp]⟩)

end

/-! ### A heap without reuse -/

section
variable {base size e : Nat}

/-- `heap->start + heap->ptr` after one more call. -/
def bump (e : Nat) : Action → Nat
  | .kmalloc n p => if p = 0 then e else e + (requestClass n).2
  | _ => e

/-- Every request is served from the end of the heap. -/
def bumpAnswer (base size : Nat) (h : List Action) (n : Nat) : Nat :=
  if base + size ≤ h.foldl bump base + (requestClass n).2 then 0 else h.foldl bump base + 16

theorem requestClass_pos (n : Nat) : 64 ≤ (requestClass n).2 :=
  (requestClass_spec (c := (requestClass n).1) rfl).2.1.pos

theorem le_bump : e ≤ bump e a := by
  unfold bump
  split
  · split
    · exact Nat.le_refl _
    · omega
  · exact Nat.le_refl _

theorem bump_kmalloc_le : bump e (.kmalloc n p) ≤ e + (requestClass n).2 := by
  cases Classical.em (p = 0) with
  | inl hzero =>
    rw [bump, if_pos hzero]
    omega
  | inr hne =>
    exact Nat.le_of_eq (if_neg hne)

theorem le_foldl_bump : e ≤ h.foldl bump e := by
  induction h generalizing e with
  | nil => exact Nat.le_refl _
  | cons a h ih => exact Nat.le_trans le_bump ih

theorem bump_held (hpre : ∀ p ∈ ps, p < e) (he : pre.foldl bump base = e)
    (hans : AnsweredFrom (bumpAnswer base size) pre h) :
    ∀ p ∈ h.foldl hold ps, p < h.foldl bump e := by
  induction h generalizing ps pre e with
  | nil => exact hpre
  | cons a h ih =>
    obtain ⟨hhead, hrest⟩ := hans
    have hnext : (pre ++ [a]).foldl bump base = bump e a := by
      rw [List.foldl_append, he, List.foldl_cons, List.foldl_nil]
    refine ih ?_ hnext hrest
    cases a with
    | kmalloc n p =>
      have hp : p = bumpAnswer base size pre n := hhead
      cases Classical.em (p = 0) with
      | inl hzero =>
        rw [hold, bump, if_pos hzero, if_pos hzero]
        exact hpre
      | inr hne =>
        have hclass := requestClass_pos n
        unfold bumpAnswer at hp
        rw [hold, bump, if_neg hne, if_neg hne]
        intro q hq
        cases List.mem_cons.1 hq with
        | inl heq =>
          rw [heq, hp, he]
          split
          · omega
          · omega
        | inr hmem =>
          have hlt := hpre q hmem
          omega
    | kfree p =>
      cases Classical.em (p = 0) with
      | inl hzero =>
        rw [hold, if_pos hzero]
        exact hpre
      | inr hne =>
        rw [hold, if_neg hne]
        exact fun q hq => hpre q (List.mem_of_mem_erase hq)
    | store x byte => exact hpre

def bumpAllocator (base size : Nat) (limit : base + size ≤ 2 ^ 32) : Allocator where
  base := base
  size := size
  limit := limit
  answer := bumpAnswer base size
  fresh := by
    intro h n hproper hne hmem
    have hlt : bumpAnswer base size h n < h.foldl bump base :=
      bump_held (by simp) rfl hproper.answered _ hmem
    unfold bumpAnswer at hlt hne
    split at hlt
    · rename_i hfull
      exact hne (if_pos hfull)
    · omega
  inside := by
    intro h n _ hn hne
    have hle : base ≤ h.foldl bump base := le_foldl_bump
    have hclass : requestClass n = ((requestClass n).1, (requestClass n).2) := rfl
    obtain ⟨_, _, hfits, _⟩ := requestClass_spec hclass
    have hroom := hfits hn
    unfold bumpAnswer at hne ⊢
    split
    · rename_i hfull
      exact absurd (if_pos hfull) hne
    · omega

theorem requestClass_small (hn : n ≤ 48) : requestClass n = (.f64, 64) := by
  have hround : roundSize n ≤ 64 := by
    unfold roundSize
    omega
  simp only [requestClass]
  rw [if_pos hround]

theorem foldl_bump_le (hsmall : ∀ i q, Action.kmalloc i q ∈ h → i ≤ 48) :
    h.foldl bump e ≤ e + 64 * h.length := by
  induction h generalizing e with
  | nil => exact Nat.le_refl _
  | cons a h ih =>
    have hrest := ih (e := bump e a) fun i q hmem => hsmall i q (List.mem_cons_of_mem a hmem)
    have hhead : bump e a ≤ e + 64 := by
      cases a with
      | kmalloc n p =>
        have hle : bump e (.kmalloc n p) ≤ e + (requestClass n).2 := bump_kmalloc_le
        rwa [requestClass_small (hsmall n p List.mem_cons_self)] at hle
      | kfree p => exact Nat.le_add_right _ _
      | store x byte => exact Nat.le_add_right _ _
    rw [List.foldl_cons, List.length_cons]
    omega

theorem bumpAllocator_ample (limit : base + size ≤ 2 ^ 32)
    (hroom : (requestClass n).2 + 64 * 101 < size) : Ample (bumpAllocator base size limit) n := by
  intro p h k _ hsmall hlen hk
  have hend : (Action.kmalloc n p :: h).foldl bump base ≤ base +
      (requestClass n).2 + 64 * h.length := by
    rw [List.foldl_cons]
    have hle := foldl_bump_le (e := bump base (.kmalloc n p)) hsmall
    have hfirst : bump base (.kmalloc n p) ≤ base + (requestClass n).2 := bump_kmalloc_le
    omega
  have hanswer : (bumpAllocator base size limit).answer (.kmalloc n p :: h) k =
      (Action.kmalloc n p :: h).foldl bump base + 16 := by
    have hroomy : ¬ base + size ≤ (Action.kmalloc n p :: h).foldl bump base +
        (requestClass k).2 := by
      rw [requestClass_small hk]
      omega
    exact if_neg hroomy
  rw [hanswer]
  omega

end

end OsdevCourse.Kmalloc
