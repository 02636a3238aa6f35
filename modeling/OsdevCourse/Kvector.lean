import OsdevCourse.KmallocHistory

/-!
# The vector of the kernel

`kvector` keeps its elements in blocks of their own and the pointers to them in an array. The
array is asked for with `kmalloc(_count + 4)`, which counts bytes and not pointers: what keeps
the pointers in it is that the smallest block has 48 bytes. A store behind the block has no
result here, and neither has the use of a block that was refused.
-/

namespace OsdevCourse

set_option autoImplicit false

open Kmalloc

/-- `elems` are the pointers in the array `data`. -/
structure Kvector where
  data : Nat
  elems : List Nat
  allocated : Nat
  deriving DecidableEq

namespace Kvector

def empty : Kvector := { data := 0, elems := [], allocated := 0 }

/-- The bytes of a block that was asked for with `n`. -/
def blockBytes (n : Nat) : Nat := (requestClass n).2 - 16

/-- `if (_count +1 >= _allocated)` -/
def grow (A : Allocator) (h : List Action) (v : Kvector) : List Action × Kvector :=
  if v.allocated ≤ v.elems.length + 1 then
    let new := A.answer h (v.elems.length + 4)
    let h := h ++ [.kmalloc (v.elems.length + 4) new]
    let h := if v.data ≠ 0 then h ++ [.kfree v.data] else h
    (h, { v with data := new, allocated := v.elems.length + 4 })
  else (h, v)

/-- The element takes `size` bytes. -/
def append (A : Allocator) (size : Nat) (h : List Action) (v : Kvector) :
    Option (List Action × Kvector) :=
  let (h, v) := grow A h v
  let moved := A.answer h size
  if v.data = 0 ∨ moved = 0 ∨ blockBytes v.allocated < 4 * (v.elems.length + 1) then none
  else some (h ++ [.kmalloc size moved], { v with elems := v.elems ++ [moved] })

/-- `k` elements are appended. -/
def appends (A : Allocator) (size : Nat) : Nat → List Action → Kvector →
    Option (List Action × Kvector)
  | 0, h, v => some (h, v)
  | k + 1, h, v =>
    match append A size h v with
    | none => none
    | some (h, v) => appends A size k h v

/-- The blocks of a vector in the order in which the destructor deletes them. -/
def blocks (v : Kvector) : List Nat := if v.data = 0 then [] else v.elems ++ [v.data]

/-- `~kvector` -/
def destroy (v : Kvector) : List Action := v.blocks.map .kfree

/-! ### What an append does -/

variable {A : Allocator} {size k n : Nat} {h h' : List Action} {v v' : Kvector} {rest : List Nat}

/-- A vector as it comes out of appends. -/
structure Formed (v : Kvector) : Prop where
  null : v.data = 0 → v.elems = [] ∧ v.allocated = 0
  allocated : v.allocated ≤ v.elems.length + 4

theorem formed_empty : Formed empty := ⟨fun _ => ⟨rfl, rfl⟩, Nat.zero_le _⟩

theorem blocks_of_data (hdata : v.data ≠ 0) : v.blocks = v.elems ++ [v.data] := if_neg hdata

theorem grow_elems : (grow A h v).2.elems = v.elems := by
  unfold grow
  split
  · rfl
  · rfl

theorem grow_allocated (hv : Formed v) : (grow A h v).2.allocated ≤ v.elems.length + 4 := by
  unfold grow
  split
  · exact Nat.le_refl _
  · exact hv.allocated

theorem grow_owns (hv : Formed v) (ho : Owns A h (v.blocks ++ rest))
    (hdata : (grow A h v).2.data ≠ 0) :
    Owns A (grow A h v).1 ((grow A h v).2.blocks ++ rest) := by
  unfold grow at hdata ⊢
  cases Classical.em (v.allocated ≤ v.elems.length + 1) with
  | inr hroom =>
    rw [if_neg hroom]
    exact ho
  | inl hfull =>
    rw [if_pos hfull] at hdata ⊢
    simp only at hdata ⊢
    have hnew := ho.kmalloc hdata
    rw [blocks_of_data hdata]
    cases Classical.em (v.data = 0) with
    | inl hnull =>
      have hblocks : v.blocks = [] := if_pos hnull
      rw [hblocks] at hnew
      rw [if_neg (fun hne => hne hnull)]
      rw [(hv.null hnull).1] at hnew ⊢
      exact hnew
    | inr hold =>
      rw [blocks_of_data hold] at hnew
      rw [if_pos hold]
      refine Owns.kfree (hnew.perm ?_)
      have hmove : (A.answer h (v.elems.length + 4) :: (v.elems ++ [v.data] ++ rest)).Perm
          (A.answer h (v.elems.length + 4) :: v.data :: (v.elems ++ rest)) := by
        refine List.Perm.cons _ ?_
        rw [List.append_assoc, List.singleton_append]
        exact List.perm_middle
      refine hmove.trans ((List.Perm.swap _ _ _).trans (List.Perm.cons _ ?_))
      rw [List.append_assoc, List.singleton_append]
      exact List.perm_middle.symm

theorem append_cases (happend : append A size h v = some (h', v')) :
    (grow A h v).2.data ≠ 0 ∧ A.answer (grow A h v).1 size ≠ 0 ∧
      4 * (v.elems.length + 1) ≤ blockBytes (grow A h v).2.allocated ∧
      h' = (grow A h v).1 ++ [.kmalloc size (A.answer (grow A h v).1 size)] ∧
      v' = { (grow A h v).2 with elems := v.elems ++ [A.answer (grow A h v).1 size] } := by
  unfold append at happend
  simp only [grow_elems] at happend
  split at happend
  · exact absurd happend (by simp)
  · rename_i hok
    have hparts : (grow A h v).2.data ≠ 0 ∧ A.answer (grow A h v).1 size ≠ 0 ∧
        4 * (v.elems.length + 1) ≤ blockBytes (grow A h v).2.allocated :=
      ⟨fun heq => hok (.inl heq), fun heq => hok (.inr (.inl heq)),
        Nat.le_of_not_lt fun hlt => hok (.inr (.inr hlt))⟩
    obtain ⟨rfl, rfl⟩ := Prod.mk.inj (Option.some.inj happend)
    exact ⟨hparts.1, hparts.2.1, hparts.2.2, rfl, rfl⟩

theorem append_owns (hv : Formed v) (ho : Owns A h (v.blocks ++ rest))
    (happend : append A size h v = some (h', v')) :
    Formed v' ∧ Owns A h' (v'.blocks ++ rest) ∧ v'.elems.length = v.elems.length + 1 := by
  obtain ⟨hdata, hmoved, _, rfl, rfl⟩ := append_cases happend
  have hgrown := (grow_owns hv ho hdata).kmalloc hmoved
  have hlen := grow_allocated (A := A) (h := h) hv
  refine ⟨⟨fun hnull => absurd hnull hdata, ?_⟩, ?_, ?_⟩
  · simp only [List.length_append, List.length_singleton]
    omega
  · rw [blocks_of_data hdata, grow_elems] at hgrown
    have hblocks : ({ (grow A h v).2 with
        elems := v.elems ++ [A.answer (grow A h v).1 size] } : Kvector).blocks =
        v.elems ++ [A.answer (grow A h v).1 size] ++ [(grow A h v).2.data] := if_neg hdata
    rw [hblocks]
    refine hgrown.perm ?_
    simp only [List.append_assoc, List.singleton_append]
    exact List.perm_middle.symm
  · simp only [List.length_append, List.length_singleton]

theorem append_lt (hv : Formed v) (hle : v.elems.length ≤ 12)
    (happend : append A size h v = some (h', v')) : v.elems.length < 12 := by
  obtain ⟨_, _, hroom, _, _⟩ := append_cases happend
  have hlen := grow_allocated (A := A) (h := h) hv
  cases Nat.eq_or_lt_of_le hle with
  | inr hlt => exact hlt
  | inl heq =>
    have hblock : blockBytes (grow A h v).2.allocated = 48 := by
      unfold blockBytes
      rw [requestClass_small (by omega)]
      rfl
    omega

theorem appends_owns (hv : Formed v) (ho : Owns A h (v.blocks ++ rest)) (hle : v.elems.length ≤ 12)
    (happends : appends A size k h v = some (h', v')) :
    Formed v' ∧ Owns A h' (v'.blocks ++ rest) ∧ v.elems.length + k ≤ 12 := by
  induction k generalizing h v with
  | zero =>
    obtain ⟨rfl, rfl⟩ := Prod.mk.inj (Option.some.inj happends)
    exact ⟨hv, ho, hle⟩
  | succ k ih =>
    unfold appends at happends
    cases happend : append A size h v with
    | none =>
      rw [happend] at happends
      exact absurd happends (by simp)
    | some r =>
      obtain ⟨h₁, v₁⟩ := r
      rw [happend] at happends
      obtain ⟨hv₁, ho₁, hlen⟩ := append_owns hv ho happend
      have hlt := append_lt hv hle happend
      obtain ⟨hv', ho', hsum⟩ := ih hv₁ ho₁ (by omega) happends
      exact ⟨hv', ho', by omega⟩

/-! ### Where there is room -/

/-- A history of at most `m` small calls behind the request for a block of `n` bytes. -/
def Behind (n p m : Nat) (h : List Action) : Prop :=
  ∃ t, h = .kmalloc n p :: t ∧ (∀ i q, Action.kmalloc i q ∈ t → i ≤ 48) ∧ t.length ≤ m

variable {p m : Nat}

theorem Behind.kmalloc (hb : Behind n p m h) (hk : k ≤ 48) (q : Nat) :
    Behind n p (m + 1) (h ++ [.kmalloc k q]) := by
  obtain ⟨t, rfl, hsmall, hlen⟩ := hb
  refine ⟨t ++ [.kmalloc k q], rfl, ?_, ?_⟩
  · intro i r hmem
    cases List.mem_append.1 hmem with
    | inl hmem => exact hsmall i r hmem
    | inr hmem =>
      obtain ⟨rfl, _⟩ := Action.kmalloc.inj (List.mem_singleton.1 hmem)
      exact hk
  · rw [List.length_append, List.length_singleton]
    omega

theorem Behind.kfree (hb : Behind n p m h) (q : Nat) : Behind n p (m + 1) (h ++ [.kfree q]) := by
  obtain ⟨t, rfl, hsmall, hlen⟩ := hb
  refine ⟨t ++ [.kfree q], rfl, ?_, ?_⟩
  · intro i r hmem
    cases List.mem_append.1 hmem with
    | inl hmem => exact hsmall i r hmem
    | inr hmem => exact absurd (List.mem_singleton.1 hmem) (by simp)
  · rw [List.length_append, List.length_singleton]
    omega

theorem Behind.mono (hb : Behind n p m h) (hle : m ≤ k) : Behind n p k h := by
  obtain ⟨t, heq, hsmall, hlen⟩ := hb
  exact ⟨t, heq, hsmall, Nat.le_trans hlen hle⟩

theorem Behind.answer (hb : Behind n p m h) (hample : Ample A n) (ho : Owns A h rest) (hm : m ≤ 100)
    (hk : k ≤ 48) : A.answer h k ≠ 0 := by
  obtain ⟨t, rfl, hsmall, hlen⟩ := hb
  exact hample p t k ho.proper hsmall (Nat.le_trans hlen hm) hk

theorem grow_behind (hv : Formed v) (ho : Owns A h rest) (hb : Behind n p m h) (hample : Ample A n)
    (hm : m ≤ 100) (hlt : v.elems.length < 12) :
    (grow A h v).2.data ≠ 0 ∧ Behind n p (m + 2) (grow A h v).1 := by
  unfold grow
  cases Classical.em (v.allocated ≤ v.elems.length + 1) with
  | inr hroom =>
    rw [if_neg hroom]
    refine ⟨?_, hb.mono (by omega)⟩
    intro hnull
    have hzero := (hv.null hnull).2
    omega
  | inl hfull =>
    rw [if_pos hfull]
    have hnew := hb.kmalloc (k := v.elems.length + 4) (by omega) (A.answer h (v.elems.length + 4))
    refine ⟨hb.answer hample ho hm (by omega), ?_⟩
    simp only
    split
    · exact hnew.kfree v.data
    · exact hnew.mono (by omega)

theorem append_room (hv : Formed v) (ho : Owns A h (v.blocks ++ rest)) (hb : Behind n p m h)
    (hample : Ample A n) (hm : m + 2 ≤ 100) (hlt : v.elems.length < 12) (hsize : size ≤ 48) :
    ∃ h' v', append A size h v = some (h', v') ∧ Behind n p (m + 3) h' := by
  obtain ⟨hdata, hgrown⟩ := grow_behind hv ho hb hample (by omega) hlt
  have hmoved := hgrown.answer hample (grow_owns hv ho hdata) hm hsize
  have hbytes : 64 ≤ blockBytes (grow A h v).2.allocated + 16 := by
    have hclass := requestClass_pos (grow A h v).2.allocated
    unfold blockBytes
    omega
  have hok : ¬ ((grow A h v).2.data = 0 ∨ A.answer (grow A h v).1 size = 0 ∨
      blockBytes (grow A h v).2.allocated < 4 * (v.elems.length + 1)) := by
    intro hor
    rcases hor with hnull | hnull | hshort
    · exact hdata hnull
    · exact hmoved hnull
    · omega
  refine ⟨(grow A h v).1 ++ [.kmalloc size (A.answer (grow A h v).1 size)],
    { (grow A h v).2 with elems := v.elems ++ [A.answer (grow A h v).1 size] }, ?_,
    hgrown.kmalloc hsize _⟩
  unfold append
  simp only [grow_elems]
  exact if_neg hok

theorem appends_room (hv : Formed v) (ho : Owns A h (v.blocks ++ rest)) (hb : Behind n p m h)
    (hample : Ample A n) (hm : m + 3 * k ≤ 100) (hle : v.elems.length + k ≤ 12)
    (hsize : size ≤ 48) :
    ∃ h' v', appends A size k h v = some (h', v') ∧ Behind n p (m + 3 * k) h' := by
  induction k generalizing h v m with
  | zero => exact ⟨h, v, rfl, hb⟩
  | succ k ih =>
    obtain ⟨h₁, v₁, happend, hb₁⟩ := append_room hv ho hb hample (by omega) (by omega) hsize
    obtain ⟨hv₁, ho₁, hlen⟩ := append_owns hv ho happend
    obtain ⟨h', v', happends, hb'⟩ := ih hv₁ ho₁ hb₁ (by omega) (by omega)
    refine ⟨h', v', ?_, hb'.mono (by omega)⟩
    unfold appends
    rw [happend]
    exact happends

end Kvector

end OsdevCourse
