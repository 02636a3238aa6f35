import OsdevCourse.Kmalloc

/-!
# Blocks and free lists

`Arena l len ptr bs free mem`: the blocks `bs` fill the heap up to the bump pointer, and
each free list runs through the free blocks of its class, over the links stored in the
memory. The rules below say what a search, an allocation of new space, a release and a
store by a client do to it. The lengths `len` are those of the headers for a free block;
a block that is being made has no header yet.
-/

namespace OsdevCourse.Kmalloc

set_option autoImplicit false

open Memory

variable {l : Layout} {len len' : Nat → Nat} {ptr a b v size fuel node parent : Nat}
  {bs free xs : List Nat} {mem mem' : Memory} {c : FreeList}

/-- The links as pointers: a NULL link leads nowhere. -/
def next (mem : Memory) (a : Nat) : Option Nat :=
  if nextField mem a = 0 then none else some (nextField mem a)

structure Arena (l : Layout) (len : Nat → Nat) (ptr : Nat) (bs free : List Nat) (mem : Memory) :
    Prop where
  tiles : Tiles len (heapStart l) (heapStart l + ptr) bs
  granted : ∀ b ∈ bs, Granted (len b)
  free_block : ∀ b ∈ free, b ∈ bs
  free_nodup : free.Nodup
  stored : ∀ b ∈ free, sizeField mem b = len b
  lists : ∀ c, ∃ xs, Path (next mem) (l.node c) xs ∧
    ∀ b, b ∈ xs ↔ b ∈ free ∧ releaseClass (len b) = c

/-- A node of a list: a block's header, or the node in `struct KMALLOC_FREELIST`. -/
def Header (l : Layout) (bs : List Nat) (a : Nat) : Prop := a ∈ bs ∨ ∃ c, a = l.node c

theorem next_eq_none : next mem a = none ↔ nextField mem a = 0 := by
  unfold next
  split_ifs with h <;> simp [h]

theorem next_eq_some : next mem a = some b ↔ b ≠ 0 ∧ nextField mem a = b := by
  unfold next
  split_ifs with h
  · simp only [false_iff, not_and]
    exact fun hb heq => hb (heq.symm.trans h)
  · simp only [Option.some.injEq]
    exact ⟨fun heq => ⟨heq ▸ h, heq⟩, fun heq => heq.2⟩

theorem next_congr (h : nextField mem' a = nextField mem b) : next mem' a = next mem b := by
  unfold next
  rw [h]

theorem nextField_setNext (hv : v < 2 ^ 32) : nextField (setNext mem a v) a = v := read32_write32 hv

theorem nextField_setNext_of_apart (h : Apart a 4 b 4) :
    nextField (setNext mem a v) b = nextField mem b :=
  read32_write32_of_disjoint h.symm

theorem sizeField_setNext_of_apart (h : Apart a 4 (b + 4) 4) :
    sizeField (setNext mem a v) b = sizeField mem b :=
  read32_write32_of_disjoint h.symm

theorem sizeField_setSize (hv : v < 2 ^ 32) : sizeField (setSize mem a v) a = v := read32_write32 hv

namespace Arena

theorem above (h : Arena l len ptr bs free mem) (hb : b ∈ bs) : l.kernelEnd + 4096 ≤ b :=
  (h.tiles.within hb).1

theorem header_of_list (h : Arena l len ptr bs free mem)
    (hxs : ∀ b, b ∈ xs ↔ b ∈ free ∧ releaseClass (len b) = c) (ha : a ∈ l.node c :: xs) :
    Header l bs a := by
  rcases List.mem_cons.mp ha with rfl | ha
  · exact Or.inr ⟨c, rfl⟩
  · exact Or.inl (h.free_block a ((hxs a).mp ha).1)

theorem not_shared (h : Arena l len ptr bs free mem) {d : FreeList} {ys : List Nat} (hcd : c ≠ d)
    (hxs : ∀ b, b ∈ xs ↔ b ∈ free ∧ releaseClass (len b) = c)
    (hys : ∀ b, b ∈ ys ↔ b ∈ free ∧ releaseClass (len b) = d)
    (hax : a ∈ l.node c :: xs) (hay : a ∈ l.node d :: ys) : False := by
  have hnode : ∀ e, l.node e ∉ bs := fun e he => by
    have habove := h.above he
    have hbelow := l.node_below e
    omega
  rcases List.mem_cons.mp hax with rfl | hax <;> rcases List.mem_cons.mp hay with heq | hay
  · have hsep := l.node_apart c d hcd
    unfold Apart at hsep
    omega
  · exact hnode c (h.free_block _ ((hys _).mp hay).1)
  · exact hnode d (heq ▸ h.free_block _ ((hxs _).mp hax).1)
  · exact hcd (((hxs a).mp hax).2.symm.trans ((hys a).mp hay).2)

theorem apart (h : Arena l len ptr bs free mem) (ha : Header l bs a) (hb : Header l bs b)
    (hne : a ≠ b) : Apart a 8 b 8 := by
  rcases ha with ha | ⟨c, rfl⟩ <;> rcases hb with hb | ⟨d, rfl⟩
  · have hla := (h.granted a ha).pos
    have hlb := (h.granted b hb).pos
    have hsep := h.tiles.apart ha hb hne
    unfold Apart at hsep ⊢
    omega
  · have hbelow := l.node_below d
    have habove := h.above ha
    unfold Apart
    omega
  · have hbelow := l.node_below c
    have habove := h.above hb
    unfold Apart
    omega
  · exact l.node_apart c d fun hcd => hne (hcd ▸ rfl)

theorem nextField_setNext (h : Arena l len ptr bs free mem) (ha : Header l bs a)
    (hb : Header l bs b) (hne : b ≠ a) : nextField (setNext mem' a v) b = nextField mem' b := by
  apply nextField_setNext_of_apart
  have hsep := h.apart ha hb (Ne.symm hne)
  unfold Apart at hsep ⊢
  omega

theorem sizeField_setNext (h : Arena l len ptr bs free mem) (ha : Header l bs a)
    (hb : Header l bs b) : sizeField (setNext mem' a v) b = sizeField mem' b := by
  apply sizeField_setNext_of_apart
  unfold Apart
  by_cases hne : a = b
  · omega
  · have hsep := h.apart ha hb hne
    unfold Apart at hsep
    omega

/-- The arena depends on the lengths of its blocks, on the nodes the lists start at and on
the headers of the free blocks. -/
theorem congr (h : Arena l len ptr bs free mem) (hlen : ∀ b ∈ bs, len' b = len b)
    (hnode : ∀ c, AgreeOn mem mem' (l.node c) (l.node c + 4))
    (hfree : ∀ b ∈ free, AgreeOn mem mem' b (b + 8)) : Arena l len' ptr bs free mem' where
  tiles := h.tiles.congr hlen
  granted b hb := by
    rw [hlen b hb]
    exact h.granted b hb
  free_block := h.free_block
  free_nodup := h.free_nodup
  stored b hb := by
    rw [hlen b (h.free_block b hb)]
    refine (read32_congr ?_).trans (h.stored b hb)
    exact fun x hx hlt => hfree b hb x (by omega) (by omega)
  lists c := by
    obtain ⟨xs, hpath, hxs⟩ := h.lists c
    refine ⟨xs, hpath.congr ?_, fun b => ?_⟩
    · intro y hy
      rcases List.mem_cons.mp hy with rfl | hy
      · exact next_congr (read32_congr (hnode c))
      · refine next_congr (read32_congr ?_)
        exact fun x hx hlt => hfree y ((hxs y).mp hy).1 x hx (by omega)
    · rw [hxs b]
      constructor
      · rintro ⟨hb, hc⟩
        exact ⟨hb, (hlen b (h.free_block b hb)).symm ▸ hc⟩
      · rintro ⟨hb, hc⟩
        exact ⟨hb, hlen b (h.free_block b hb) ▸ hc⟩

theorem grow (h : Arena l len ptr bs free mem) (hlen : ∀ b ∈ bs, len' b = len b)
    (hnew : len' (heapStart l + ptr) = size) (hsize : Granted size) :
    Arena l len' (ptr + size) (bs ++ [heapStart l + ptr]) free mem := by
  have hkeep : Arena l len' ptr bs free mem :=
    h.congr hlen (fun _ _ _ _ => rfl) (fun _ _ _ _ _ => rfl)
  have hpos := hsize.pos
  refine { hkeep with tiles := ?_, granted := ?_, free_block := ?_ }
  · have hsnoc := hkeep.tiles.snoc (by omega)
    rwa [hnew, Nat.add_assoc] at hsnoc
  · intro b hb
    rcases List.mem_append.mp hb with hb | hb
    · exact hkeep.granted b hb
    · rw [List.mem_singleton.mp hb, hnew]
      exact hsize
  · exact fun b hb => List.mem_append_left _ (h.free_block b hb)

theorem unlink (h : Arena l len ptr bs free mem) {ys zs : List Nat}
    (hpath : Path (next mem) (l.node c) (ys ++ node :: zs))
    (hxs : ∀ b, b ∈ ys ++ node :: zs ↔ b ∈ free ∧ releaseClass (len b) = c) :
    Arena l len ptr bs (free.erase node)
      (setNext mem (ys.getLastD (l.node c)) (nextField mem node)) := by
  have hnode := (hxs node).mp (by simp)
  have hsub : ∀ y ∈ l.node c :: ys, Header l bs y := fun y hy =>
    h.header_of_list hxs (by
      rw [← List.cons_append]
      exact List.mem_append_left _ hy)
  have hlast : Header l bs (ys.getLastD (l.node c)) := hsub _ List.getLastD_mem_cons
  refine
    { tiles := h.tiles
      granted := h.granted
      free_block := fun b hb => h.free_block b (List.mem_of_mem_erase hb)
      free_nodup := h.free_nodup.erase node
      stored := ?_
      lists := ?_ }
  · intro b hb
    have hb := List.mem_of_mem_erase hb
    rw [h.sizeField_setNext hlast (Or.inl (h.free_block b hb))]
    exact h.stored b hb
  · intro d
    by_cases hd : d = c
    · subst hd
      refine ⟨ys ++ zs, ?_, fun b => ?_⟩
      · refine hpath.remove ?_ ?_
        · exact next_congr (Kmalloc.nextField_setNext read32_lt)
        · intro y hy hne
          refine next_congr (h.nextField_setNext hlast (h.header_of_list hxs ?_) hne)
          rw [← List.cons_append] at hy ⊢
          rcases List.mem_append.mp hy with hy | hy
          · exact List.mem_append_left _ hy
          · exact List.mem_append_right _ (List.mem_cons_of_mem node hy)
      · have hnodup := (List.nodup_cons.mp hpath.nodup).2
        have hne : b ∈ ys ++ zs ↔ b ∈ ys ++ node :: zs ∧ b ≠ node := by
          rw [List.perm_middle.nodup_iff, List.nodup_cons] at hnodup
          rw [List.perm_middle.mem_iff, List.mem_cons]
          constructor
          · exact fun hb => ⟨Or.inr hb, fun heq => hnodup.1 (heq ▸ hb)⟩
          · rintro ⟨heq | hb, hne⟩
            · exact absurd heq hne
            · exact hb
        rw [hne, hxs b, h.free_nodup.mem_erase_iff]
        exact ⟨fun ⟨⟨hb, hc⟩, hne⟩ => ⟨⟨hne, hb⟩, hc⟩, fun ⟨⟨hne, hb⟩, hc⟩ => ⟨⟨hb, hc⟩, hne⟩⟩
    · obtain ⟨xs, hother, hmem⟩ := h.lists d
      refine ⟨xs, hother.congr fun y hy => ?_, fun b => ?_⟩
      · refine next_congr (h.nextField_setNext hlast (h.header_of_list hmem hy) ?_)
        intro heq
        refine h.not_shared (Ne.symm hd) hxs hmem (a := y) ?_ hy
        rw [heq, ← List.cons_append]
        exact List.mem_append_left _ List.getLastD_mem_cons
      · rw [hmem b, h.free_nodup.mem_erase_iff]
        refine ⟨fun ⟨hb, hc⟩ => ⟨⟨?_, hb⟩, hc⟩, fun ⟨⟨_, hb⟩, hc⟩ => ⟨hb, hc⟩⟩
        rintro rfl
        exact hd (hc.symm.trans hnode.2)

theorem release (h : Arena l len ptr bs free mem) (hnode : node ∈ bs) (hnew : node ∉ free)
    (hstored : sizeField mem node = len node) (hclass : releaseClass (len node) = c)
    (hptr : heapStart l + ptr ≤ 2 ^ 32) :
    Arena l len ptr bs (node :: free)
      (setNext (setNext mem node (nextField mem (l.node c))) (l.node c) node) := by
  have habove := h.above hnode
  have hbelow := l.node_below
  have hlt : node < 2 ^ 32 := by
    have hin := h.tiles.within hnode
    have hpos := (h.granted node hnode).pos
    omega
  have hblock : Header l bs node := Or.inl hnode
  have hhead : Header l bs (l.node c) := Or.inr ⟨c, rfl⟩
  have hdiff : ∀ d, l.node d ≠ node := by
    intro d
    have hd := hbelow d
    omega
  have hsize : ∀ b ∈ bs, sizeField (setNext (setNext mem node (nextField mem (l.node c)))
      (l.node c) node) b = sizeField mem b := by
    intro b hb
    rw [h.sizeField_setNext hhead (Or.inl hb), h.sizeField_setNext hblock (Or.inl hb)]
  have hframe : ∀ y, Header l bs y → y ≠ node → y ≠ l.node c →
      next (setNext (setNext mem node (nextField mem (l.node c))) (l.node c) node) y =
        next mem y := by
    intro y hy hyn hyl
    apply next_congr
    rw [h.nextField_setNext hhead hy hyl, h.nextField_setNext hblock hy hyn]
  refine
    { tiles := h.tiles
      granted := h.granted
      free_block := ?_
      free_nodup := List.nodup_cons.mpr ⟨hnew, h.free_nodup⟩
      stored := ?_
      lists := ?_ }
  · intro b hb
    rcases List.mem_cons.mp hb with rfl | hb
    · exact hnode
    · exact h.free_block b hb
  · intro b hb
    rcases List.mem_cons.mp hb with rfl | hb
    · rw [hsize b hnode, hstored]
    · rw [hsize b (h.free_block b hb)]
      exact h.stored b hb
  · intro d
    obtain ⟨xs, hpath, hxs⟩ := h.lists d
    have hnotin : node ∉ xs := fun hmem => hnew ((hxs node).mp hmem).1
    by_cases hd : d = c
    · subst hd
      refine ⟨node :: xs, hpath.push ?_ ?_ ?_, fun b => ?_⟩
      · rw [next_eq_some]
        exact ⟨by omega, Kmalloc.nextField_setNext hlt⟩
      · apply next_congr
        rw [h.nextField_setNext hhead hblock (Ne.symm (hdiff d))]
        exact Kmalloc.nextField_setNext read32_lt
      · intro y hy
        apply hframe y (h.header_of_list hxs (List.mem_cons_of_mem _ hy))
        · exact fun heq => hnotin (heq ▸ hy)
        · exact fun heq => hpath.not_mem (heq ▸ hy)
      · rw [List.mem_cons, List.mem_cons, hxs b]
        constructor
        · rintro (rfl | ⟨hb, hc⟩)
          · exact ⟨Or.inl rfl, hclass⟩
          · exact ⟨Or.inr hb, hc⟩
        · rintro ⟨rfl | hb, hc⟩
          · exact Or.inl rfl
          · exact Or.inr ⟨hb, hc⟩
    · refine ⟨xs, hpath.congr fun y hy => ?_, fun b => ?_⟩
      · apply hframe y (h.header_of_list hxs hy)
        · rintro rfl
          rcases List.mem_cons.mp hy with heq | hy
          · exact hdiff d heq.symm
          · exact hnotin hy
        · rintro rfl
          obtain ⟨ys, _, hys⟩ := h.lists c
          exact h.not_shared hd hxs hys hy List.mem_cons_self
      · rw [List.mem_cons, hxs b]
        constructor
        · exact fun ⟨hb, hc⟩ => ⟨Or.inr hb, hc⟩
        · rintro ⟨rfl | hb, hc⟩
          · exact absurd (hclass.symm.trans hc).symm hd
          · exact ⟨hb, hc⟩

end Arena

/-! ### The search of a list -/

/-- What a search that found `node` did: it stored the node's link over the link to it. -/
structure Found (l : Layout) (len : Nat → Nat) (ptr : Nat) (bs free : List Nat) (c : FreeList)
    (size : Nat) (mem mem' : Memory) (node : Nat) : Prop where
  isFree : node ∈ free
  fits : size ≤ len node
  class_eq : releaseClass (len node) = c
  arena : Arena l len ptr bs (free.erase node) mem'
  store : ∃ a, (a ∈ free ∨ a = l.node c) ∧ mem' = setNext mem a (nextField mem node)

theorem takeFit_spec {ys : List Nat} (hpath : Path (next mem) parent ys)
    (htake : takeFit size fuel parent mem = some (mem', node)) :
    (node = 0 ∧ mem' = mem ∧ ∀ b ∈ ys, sizeField mem b < size) ∨
    ∃ us vs, ys = us ++ node :: vs ∧ size ≤ sizeField mem node ∧ node ≠ 0 ∧
      mem' = setNext mem (us.getLastD parent) (nextField mem node) := by
  induction ys generalizing parent fuel with
  | nil =>
    cases fuel with
    | zero => simp [takeFit] at htake
    | succ fuel =>
      simp only [takeFit, if_pos (next_eq_none.mp hpath), Option.some.injEq, Prod.mk.injEq] at htake
      exact Or.inl ⟨htake.2.symm, htake.1.symm, by simp⟩
  | cons y ys ih =>
    obtain ⟨hy, hrest⟩ := hpath
    obtain ⟨hnz, hlink⟩ := next_eq_some.mp hy
    cases fuel with
    | zero => simp [takeFit] at htake
    | succ fuel =>
      simp only [takeFit, hlink, if_neg hnz] at htake
      split_ifs at htake with hfit
      · simp only [Option.some.injEq, Prod.mk.injEq] at htake
        obtain ⟨hmem, rfl⟩ := htake
        exact Or.inr ⟨[], ys, rfl, hfit, hnz, hmem.symm⟩
      · rcases ih hrest htake with ⟨hzero, hmem, hnone⟩ | ⟨us, vs, rfl, hfits, hnode, hmem⟩
        · refine Or.inl ⟨hzero, hmem, fun b hb => ?_⟩
          rcases List.mem_cons.mp hb with rfl | hb
          · omega
          · exact hnone b hb
        · refine Or.inr ⟨y :: us, vs, rfl, hfits, hnode, ?_⟩
          rw [List.getLastD_cons]
          exact hmem

theorem takeFit_returns {ys : List Nat} (hpath : Path (next mem) parent ys)
    (hfuel : ys.length < fuel) : ∃ r, takeFit size fuel parent mem = some r := by
  induction ys generalizing parent fuel with
  | nil =>
    obtain ⟨n, rfl⟩ : ∃ n, fuel = n + 1 := ⟨fuel - 1, by omega⟩
    exact ⟨(mem, 0), by simp only [takeFit, if_pos (next_eq_none.mp hpath)]⟩
  | cons y ys ih =>
    obtain ⟨n, rfl⟩ : ∃ n, fuel = n + 1 := ⟨fuel - 1, by omega⟩
    obtain ⟨hy, hrest⟩ := hpath
    obtain ⟨hnz, hlink⟩ := next_eq_some.mp hy
    rw [List.length_cons] at hfuel
    simp only [takeFit, hlink, if_neg hnz]
    split_ifs with hfit
    · exact ⟨_, rfl⟩
    · exact ih hrest (by omega)

theorem takeFirst_spec {ys : List Nat} (hpath : Path (next mem) parent ys)
    (htake : takeFirst parent mem = (mem', node)) :
    (node = 0 ∧ mem' = mem ∧ ys = []) ∨
    ∃ vs, ys = node :: vs ∧ node ≠ 0 ∧ mem' = setNext mem parent (nextField mem node) := by
  cases ys with
  | nil =>
    have hzero := next_eq_none.mp hpath
    simp only [takeFirst, hzero, ne_eq, not_true, if_false, Prod.mk.injEq] at htake
    exact Or.inl ⟨htake.2.symm, htake.1.symm, rfl⟩
  | cons y ys =>
    obtain ⟨hnz, hlink⟩ := next_eq_some.mp hpath.1
    simp only [takeFirst, hlink, ne_eq, hnz, not_false_eq_true, if_true, Prod.mk.injEq] at htake
    obtain ⟨hmem, rfl⟩ := htake
    exact Or.inr ⟨ys, rfl, hnz, hmem.symm⟩

/-- A search finds nothing and stores nothing, or takes a free block of the class that is
long enough. It finds nothing only where no free block of the class is. -/
theorem Arena.search_spec (h : Arena l len ptr bs free mem) {n : Nat}
    (hreq : requestClass n = (c, size))
    (hsearch : searchList l fuel c size mem = some (mem', node)) :
    (node = 0 ∧ mem' = mem ∧ ∀ b ∈ free, releaseClass (len b) = c → len b < size) ∨
    (node ≠ 0 ∧ Found l len ptr bs free c size mem mem' node) := by
  obtain ⟨hclass, hsize, _, _⟩ := requestClass_spec hreq
  obtain ⟨xs, hpath, hxs⟩ := h.lists c
  have hfound : ∀ us vs, xs = us ++ node :: vs → size ≤ len node → node ≠ 0 →
      mem' = setNext mem (us.getLastD (l.node c)) (nextField mem node) →
      Found l len ptr bs free c size mem mem' node := by
    rintro us vs rfl hfits hnz rfl
    obtain ⟨hfree, hcls⟩ := (hxs node).mp (by simp)
    refine ⟨hfree, hfits, hcls, h.unlink hpath hxs, us.getLastD (l.node c), ?_, rfl⟩
    have hlast : us.getLastD (l.node c) ∈ l.node c :: us := List.getLastD_mem_cons
    rcases List.mem_cons.mp hlast with hlast | hlast
    · exact Or.inr hlast
    · exact Or.inl ((hxs _).mp (List.mem_append_left _ hlast)).1
  unfold searchList at hsearch
  split_ifs at hsearch with hsmall
  · rcases takeFirst_spec hpath (Option.some.inj hsearch) with ⟨rfl, rfl, rfl⟩
      | ⟨vs, rfl, hnz, hmem⟩
    · refine Or.inl ⟨rfl, rfl, fun b hb hc => ?_⟩
      exact absurd ((hxs b).mpr ⟨hb, hc⟩) (by simp)
    · refine Or.inr ⟨hnz, hfound [] vs rfl ?_ hnz hmem⟩
      -- a block of a small list has exactly the size of the class
      obtain ⟨hfree, hcls⟩ := (hxs node).mp (by simp)
      have hgranted := h.granted node (h.free_block node hfree)
      have hlen := eq_of_releaseClass_eq hgranted hsize hsmall (hcls.trans hclass.symm)
      omega
  · rcases takeFit_spec hpath hsearch with ⟨rfl, rfl, hnone⟩ | ⟨us, vs, rfl, hfits, hnz, hmem⟩
    · refine Or.inl ⟨rfl, rfl, fun b hb hc => ?_⟩
      rw [← h.stored b hb]
      exact hnone b ((hxs b).mpr ⟨hb, hc⟩)
    · have hfree := ((hxs node).mp (by simp)).1
      rw [h.stored node hfree] at hfits
      exact Or.inr ⟨hnz, hfound us vs rfl hfits hnz hmem⟩

theorem Arena.search_returns (h : Arena l len ptr bs free mem) (c : FreeList) (size : Nat) :
    ∃ fuel r, searchList l fuel c size mem = some r := by
  obtain ⟨xs, hpath, _⟩ := h.lists c
  unfold searchList
  split_ifs
  · exact ⟨0, _, rfl⟩
  · exact ⟨xs.length + 1, takeFit_returns hpath (Nat.lt_succ_self _)⟩

end OsdevCourse.Kmalloc
