import OsdevCourse.ByteMemory
import OsdevCourse.Tiling
import OsdevCourse.IntrusiveList
import OsdevCourse.Reachability

/-!
# The kernel heap

`kmalloc` and `kfree` on four free lists whose links and sizes are stored in the blocks
themselves, over a bump allocator. An address is a number below `2 ^ 32`; arithmetic on
`size_t` is modulo `2 ^ 32`. A free node at the address `a` has its `next` at `a` and its
`size` at `a + 4`, and the payload of a block begins at `a + 16`.

The statements of `heap_alloc` are definitions of their own: a timer tick can come
between any two of them. The pages it asks `mmu_mmap` for are logged.
-/

namespace OsdevCourse.Kmalloc

set_option autoImplicit false

open Memory

structure Heap where
  start : Nat
  ptr : Nat
  size : Nat
  flag : Nat

/-- The lists `__kmalloc_64`, `__kmalloc_512`, `__kmalloc_1024` and `__kmalloc_large`. -/
inductive FreeList where
  | f64 | f512 | f1024 | large
  deriving DecidableEq

/-- Where the linker put the end of the image and the nodes the lists start at. -/
structure Layout where
  kernelEnd : Nat
  node : FreeList → Nat
  aligned : 4096 ∣ kernelEnd
  node_pos : ∀ c, 0 < node c
  node_below : ∀ c, node c + 8 ≤ kernelEnd
  node_apart : ∀ c d, c ≠ d → Apart (node c) 8 (node d) 8
  fits : kernelEnd + 4096 + 1024 * 1024 * 16 ≤ 2 ^ 32

structure Mapping where
  addr : Nat
  size : Nat
  flag : Nat
  deriving DecidableEq

structure Kernel where
  mem : Memory
  heap : Heap
  mapped : List Mapping

def heapStart (l : Layout) : Nat := l.kernelEnd + 4096

/-- The initial value of `__kheap_kmalloc`. -/
def kheap (l : Layout) : Heap :=
  { start := heapStart l, ptr := 0, size := 1024 * 1024 * 16, flag := 0 }

def HEAP_ALLOC_NOALLOC : Nat := 0x00010000

def nextField (mem : Memory) (node : Nat) : Nat := read32 mem node

def sizeField (mem : Memory) (node : Nat) : Nat := read32 mem (node + 4)

def setNext (mem : Memory) (node next : Nat) : Memory := write32 mem node next

def setSize (mem : Memory) (node size : Nat) : Memory := write32 mem (node + 4) size

/-- `if (heap->ptr + size >= heap->size) return NULL` -/
def heapFull (h : Heap) (size : Nat) : Prop := h.size ≤ (h.ptr + size) % 2 ^ 32

instance (h : Heap) (size : Nat) : Decidable (heapFull h size) :=
  inferInstanceAs (Decidable (_ ≤ _))

def heapMap (h : Heap) (size : Nat) : List Mapping :=
  if h.flag &&& HEAP_ALLOC_NOALLOC = 0 then
    let first := (h.start + h.ptr) % 2 ^ 32 / 4096 * 4096
    let last := (h.start + h.ptr + size + 4095) % 2 ^ 32 / 4096 * 4096
    if first < last then [{ addr := first, size := last - first, flag := h.flag &&& 0xFFFF }]
    else []
  else []

/-- `mem = heap->start + heap->ptr` -/
def heapMem (h : Heap) : Nat := (h.start + h.ptr) % 2 ^ 32

/-- `heap->ptr += size` -/
def heapBump (h : Heap) (size : Nat) : Heap := { h with ptr := (h.ptr + size) % 2 ^ 32 }

def heapAlloc (size : Nat) (k : Kernel) : Kernel × Nat :=
  if heapFull k.heap size then (k, 0)
  else
    ({ k with heap := heapBump k.heap size, mapped := k.mapped ++ heapMap k.heap size },
      heapMem k.heap)

/-- The header and the request, rounded up to a multiple of 16. -/
def roundSize (size : Nat) : Nat := (size + 15 + 16) % 2 ^ 32 / 16 * 16

/-- The list a request is served from, and the size its block gets. -/
def requestClass (size : Nat) : FreeList × Nat :=
  let size := roundSize size
  if size ≤ 64 then (.f64, 64)
  else if size ≤ 512 then (.f512, 512)
  else if size ≤ 1024 then (.f1024, 1024)
  else (.large, size)

/-- The list a block is released to. -/
def releaseClass (size : Nat) : FreeList :=
  if size ≤ 64 then .f64
  else if size ≤ 512 then .f512
  else if size ≤ 1024 then .f1024
  else .large

/-- The first node of a list is taken off it; 0 if there is none. -/
def takeFirst (list : Nat) (mem : Memory) : Memory × Nat :=
  if nextField mem list ≠ 0 then
    (setNext mem list (nextField mem (nextField mem list)), nextField mem list)
  else (mem, 0)

/-- The search of the large list from `parent` on. There is no result when the loop is
not over after as many turns as there is fuel. -/
def takeFit (size : Nat) : Nat → Nat → Memory → Option (Memory × Nat)
  | 0, _, _ => none
  | fuel + 1, parent, mem =>
    let node := nextField mem parent
    if node = 0 then some (mem, 0)
    else if size ≤ sizeField mem node then some (setNext mem parent (nextField mem node), node)
    else takeFit size fuel node mem

/-- What `kmalloc` does with interrupts disabled. -/
def searchList (l : Layout) (fuel : Nat) (list : FreeList) (size : Nat) (mem : Memory) :
    Option (Memory × Nat) :=
  if size ≤ 1024 then some (takeFirst (l.node list) mem)
  else takeFit size fuel (l.node list) mem

def payload (node : Nat) : Nat := (node + 16) % 2 ^ 32

def nodeOf (ptr : Nat) : Nat := (ptr + 2 ^ 32 - 16) % 2 ^ 32

def kmalloc (l : Layout) (fuel size : Nat) (k : Kernel) : Option (Kernel × Nat) :=
  let (list, size) := requestClass size
  match searchList l fuel list size k.mem with
  | none => none
  | some (mem, node) =>
    let k := { k with mem := mem }
    if node = 0 then
      let (k, node) := heapAlloc size k
      if node = 0 then some (k, 0)
      else some ({ k with mem := setSize k.mem node size }, payload node)
    else some (k, payload node)

def kfree (l : Layout) (ptr : Nat) (k : Kernel) : Kernel :=
  if ptr = 0 then k
  else
    let node := nodeOf ptr
    let list := l.node (releaseClass (sizeField k.mem node))
    { k with mem := setNext (setNext k.mem node (nextField k.mem list)) list node }

/-! ### The sizes -/

/-- The sizes blocks are made with. -/
def Granted (n : Nat) : Prop := 16 ∣ n ∧ (n = 64 ∨ n = 512 ∨ n = 1024 ∨ 1024 < n)

theorem Granted.pos {n : Nat} (h : Granted n) : 64 ≤ n := by
  obtain ⟨_, rfl | rfl | rfl | h⟩ := h <;> omega

/-- A request is served from the list its block goes back to, by a block that holds it and
that is not 16 bytes longer than it has to be where the size is not that of a class. -/
theorem requestClass_spec {n size : Nat} {c : FreeList} (h : requestClass n = (c, size)) :
    releaseClass size = c ∧ Granted size ∧ (n + 31 < 2 ^ 32 → n + 16 ≤ size) ∧
      (1024 < size → size < n + 32) := by
  simp only [requestClass] at h
  unfold releaseClass Granted
  have hround : roundSize n % 16 = 0 := Nat.mul_mod_left _ _
  have hle : n + 31 < 2 ^ 32 → n + 16 ≤ roundSize n := by
    intro hn
    unfold roundSize
    omega
  have hlt : roundSize n < n + 32 := by
    unfold roundSize
    omega
  split_ifs at h with h64 h512 h1024 <;> cases h
  · exact ⟨by simp, by omega, by omega, by omega⟩
  · exact ⟨by simp, by omega, by omega, by omega⟩
  · exact ⟨by simp, by omega, by omega, by omega⟩
  · refine ⟨?_, by omega, hle, fun _ => hlt⟩
    rw [if_neg h64, if_neg h512, if_neg h1024]

theorem eq_of_releaseClass_eq {n m : Nat} (hn : Granted n) (hm : Granted m)
    (hle : m ≤ 1024) (h : releaseClass n = releaseClass m) : n = m := by
  unfold releaseClass at h
  obtain ⟨_, hn⟩ := hn
  obtain ⟨_, hm⟩ := hm
  split_ifs at h <;> omega

/-- A block of the class that is shorter than the rounded request cannot hold the request. -/
theorem short_of_lt {n m size : Nat} {c : FreeList} (h : requestClass n = (c, size))
    (hm : Granted m) (hclass : releaseClass m = c) (hlt : m < size) : m < n + 16 := by
  obtain ⟨hc, hsize, _, hslack⟩ := requestClass_spec h
  by_cases hsmall : size ≤ 1024
  · have heq := eq_of_releaseClass_eq hm hsize hsmall (hclass.trans hc.symm)
    omega
  · have hbound := hslack (by omega)
    obtain ⟨hm16, _⟩ := hm
    obtain ⟨hs16, _⟩ := hsize
    omega

end OsdevCourse.Kmalloc
