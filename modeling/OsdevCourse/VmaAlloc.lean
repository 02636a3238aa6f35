import OsdevCourse.Kmalloc

/-!
# Virtual address regions

`vma_alloc` bumps a pointer through the 64 MiB from `0xE0000000` on, byte by byte, and maps
nothing. As long as the pointer does not wrap, the regions it has returned lie one behind
the other.
-/

namespace OsdevCourse.VmaAlloc

set_option autoImplicit false

open Kmalloc (Heap HEAP_ALLOC_NOALLOC heapFull heapMem heapBump)

/-- The initial value of `__kheap_vmaalloc`. -/
def kheapVmaalloc : Heap :=
  { start := 0xE0000000, ptr := 0, size := 1024 * 1024 * 64, flag := HEAP_ALLOC_NOALLOC }

/-- `vma_alloc`; the flag of its heap asks for no mapping. -/
def vmaAlloc (h : Heap) (size : Nat) : Heap × Nat :=
  if heapFull h size then (h, 0) else (heapBump h size, heapMem h)

/-- The heap of `vma_alloc` after `ptr` bytes. -/
def bumped (ptr : Nat) : Heap := { kheapVmaalloc with ptr := ptr }

theorem heapFull_bumped {ptr size : Nat} :
    heapFull (bumped ptr) size ↔ 0x4000000 ≤ (ptr + size) % 2 ^ 32 := Iff.rfl

theorem vmaAlloc_bumped {ptr size : Nat} (hptr : ptr < 0x4000000)
    (h : ¬ heapFull (bumped ptr) size) :
    vmaAlloc (bumped ptr) size = (bumped ((ptr + size) % 2 ^ 32), 0xE0000000 + ptr) := by
  have hmem : heapMem (bumped ptr) = 0xE0000000 + ptr :=
    Nat.mod_eq_of_lt (show 0xE0000000 + ptr < 2 ^ 32 by omega)
  unfold vmaAlloc
  rw [if_neg h, hmem]
  rfl

theorem vmaAlloc_full {h : Heap} {size : Nat} (hfull : heapFull h size) :
    vmaAlloc h size = (h, 0) := by
  unfold vmaAlloc
  rw [if_pos hfull]

/-- A region as its address and size. -/
structure Range where
  addr : Nat
  size : Nat

/-- The regions lie one behind the other from `a` to `b`. -/
def Laid : Nat → List Range → Nat → Prop
  | a, [], b => a = b
  | a, r :: rs, b => r.addr = a ∧ Laid (a + r.size) rs b

theorem Laid.append {a b : Nat} {rs : List Range} (h : Laid a rs b) (size : Nat) :
    Laid a (rs ++ [⟨b, size⟩]) (b + size) := by
  induction rs generalizing a with
  | nil =>
    unfold Laid at h
    subst h
    exact ⟨rfl, rfl⟩
  | cons r rs ih => exact ⟨h.1, ih h.2⟩

theorem Laid.start_le {a b : Nat} {rs : List Range} (h : Laid a rs b) :
    a ≤ b ∧ ∀ r ∈ rs, a ≤ r.addr := by
  induction rs generalizing a with
  | nil =>
    unfold Laid at h
    exact ⟨Nat.le_of_eq h, by simp⟩
  | cons r rs ih =>
    obtain ⟨haddr, hrest⟩ := h
    obtain ⟨hle, hmem⟩ := ih hrest
    refine ⟨by omega, ?_⟩
    intro q hq
    cases List.mem_cons.1 hq with
    | inl heq =>
      rw [heq]
      exact Nat.le_of_eq haddr.symm
    | inr hin =>
      have := hmem q hin
      omega

theorem Laid.stop_le {a b : Nat} {rs : List Range} (h : Laid a rs b) :
    ∀ r ∈ rs, r.addr + r.size ≤ b := by
  induction rs generalizing a with
  | nil => simp
  | cons r rs ih =>
    obtain ⟨haddr, hrest⟩ := h
    intro q hq
    cases List.mem_cons.1 hq with
    | inl heq =>
      have hle := hrest.start_le.1
      rw [heq]
      omega
    | inr hin => exact ih hrest q hin

theorem Laid.apart {a b : Nat} {rs : List Range} (h : Laid a rs b) {i j : Nat} {r q : Range}
    (hi : rs[i]? = some r) (hj : rs[j]? = some q) (hne : i ≠ j) :
    r.addr + r.size ≤ q.addr ∨ q.addr + q.size ≤ r.addr := by
  induction rs generalizing a i j with
  | nil => exact absurd hi (by simp)
  | cons p rs ih =>
    obtain ⟨haddr, hrest⟩ := h
    have hbehind := hrest.start_le.2
    cases i with
    | zero =>
      cases j with
      | zero => exact absurd rfl hne
      | succ j =>
        rw [List.getElem?_cons_zero, Option.some.injEq] at hi
        have := hbehind q (List.mem_of_getElem? hj)
        left
        rw [← hi]
        omega
    | succ i =>
      cases j with
      | zero =>
        rw [List.getElem?_cons_zero, Option.some.injEq] at hj
        have := hbehind r (List.mem_of_getElem? hi)
        right
        rw [← hj]
        omega
      | succ j => exact ih hrest hi hj (fun heq => hne (congrArg Nat.succ heq))

end OsdevCourse.VmaAlloc
