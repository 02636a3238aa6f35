import OsdevCourse.PageEntry

/-!
# The memory manager

`mmu.c` over the two-level page tables of the i686. A frame is the address of 4 KiB of
physical memory and holds 1024 words; a virtual address is a number below `2 ^ 32`. The
page tables are read and written the way the kernel does it, through the recursive slot of
the active directory, and an access to a page that is not present calls the page fault
handler and is tried once more. The variables of the kernel image (`MMU_PD`,
`MMU_FRAMEPOOL_PT`) are read and written in place: the boot table maps the image in every
directory. The kernel runs with write protection off, so only the present bit of an entry
decides an access.

Every store, `_INVLPG` and load of CR3 is recorded, newest first: between any two of them
the CPU may fill its TLB.
-/

namespace OsdevCourse.Mmu

set_option autoImplicit false

open PageEntry

def mmuProtPresent : Word := 0x0001#32
def mmuProtRw : Word := 0x0002#32
def mmuProtUser : Word := 0x0004#32
def mmuProtMask : Word := mmuProtRw ||| mmuProtUser
def mmuPageOndemand : Word := 0x0100#32
def mmuPageNoalloc : Word := 0x0200#32
def mmuMunmapRelease : Word := 0#32
def mmuMunmapNorelease : Word := 1#32

def mmuFramepoolVma : Nat := 0xFF800000
def mmuPtVma : Nat := 0xFFC00000
def mmuPdVma : Nat := 0xFFFFF000
def kaddrClondpd : Nat := 0xEFFFF000

abbrev Memory := Word → Nat → Word

inductive Event where
  /-- The contents of the memory after a store. -/
  | stored (mem : Memory)
  | invlpg (page : Nat)
  | loadedCr3 (pd : Word)

structure State where
  mem : Memory
  cr3 : Word
  /-- `MMU_frames_index` -/
  framesIndex : Nat
  trace : List Event

namespace State

def set (s : State) (f : Word) (i : Nat) (w : Word) : State :=
  let mem : Memory := fun g j => if g = f ∧ j = i then w else s.mem g j
  { s with mem := mem, trace := .stored mem :: s.trace }

/-- `__builtin_memset` of a whole page to zero. -/
def zero (s : State) (f : Word) : State :=
  let mem : Memory := fun g j => if g = f then 0#32 else s.mem g j
  { s with mem := mem, trace := .stored mem :: s.trace }

/-- `__builtin_memcpy` of the words from `i` on between the same places of two pages. -/
def copyFrom (s : State) (f g : Word) (i : Nat) : State :=
  let mem : Memory := fun h j => if h = f ∧ i ≤ j ∧ j < 1024 then s.mem g j else s.mem h j
  { s with mem := mem, trace := .stored mem :: s.trace }

def invlpg (s : State) (addr : Nat) : State :=
  { s with trace := .invlpg (addr / 4096) :: s.trace }

def loadCr3 (s : State) (pd : Word) : State :=
  { s with cr3 := pd, trace := .loadedCr3 pd :: s.trace }

end State

/-- The frames of the image the memory manager uses, as physical addresses, and the end
of the image. -/
structure Kernel where
  pd : Word
  pt : Word
  framepoolPt : Word
  framepoolFirstpage : Word
  kernelEnd : Nat
  nodup : [pd, pt, framepoolPt, framepoolFirstpage].Nodup
  isFrame : ∀ f ∈ [pd, pt, framepoolPt, framepoolFirstpage], IsFrame f
  inImage : ∀ f ∈ [pd, pt, framepoolPt, framepoolFirstpage],
    0x100000 ≤ f.toNat ∧ f.toNat < kernelEnd
  end_aligned : 4096 ∣ kernelEnd
  end_le : kernelEnd ≤ 0x400000

def mmuPdIndex (addr : Nat) : Nat := addr / 2 ^ 22 % 1024
def mmuPtIndex (addr : Nat) : Nat := addr / 2 ^ 12 % 1024

/-- The address of `MMU_PD_PTR(addr)[MMU_PD_INDEX(addr)]`. -/
def pdSlot (addr : Nat) : Nat := mmuPdVma + 4 * mmuPdIndex addr

/-- The address of `MMU_PT_PTR(addr)[MMU_PT_INDEX(addr)]`. -/
def ptSlot (addr : Nat) : Nat := mmuPtVma + 4096 * mmuPdIndex addr + 4 * mmuPtIndex addr

/-- The address of `MMU_frames[i]`. -/
def framesVma (i : Nat) : Nat := (mmuFramepoolVma + 4 * i) % 2 ^ 32

/-- The frame and the word in it that the CPU finds for an address. -/
def translate (s : State) (addr : Nat) : Option (Word × Nat) :=
  let pde := s.mem s.cr3 (mmuPdIndex addr)
  if present pde then
    let pte := s.mem (frameOf pde) (mmuPtIndex addr)
    if present pte then some (frameOf pte, addr % 4096 / 4) else none
  else none

/-- A page fault handler, called with the address; it returns unless it halts the CPU. -/
abbrev Fault := Nat → State → Option State

/-- The place of an address, after the page fault that an access to it may raise. -/
def access (fault : Fault) (addr : Nat) (s : State) : Option ((Word × Nat) × State) :=
  match translate s addr with
  | some place => some (place, s)
  | none => do
    let s ← fault addr s
    let place ← translate s addr
    some (place, s)

def readWord (fault : Fault) (addr : Nat) (s : State) : Option (Word × State) := do
  let (place, s) ← access fault addr s
  some (s.mem place.1 place.2, s)

def writeWord (fault : Fault) (addr : Nat) (w : Word) (s : State) : Option State := do
  let (place, s) ← access fault addr s
  some (s.set place.1 place.2 w)

section Calls
variable (fault : Fault)

/-- The entry `mmu_mark` writes for a page that is not present. -/
def markEntry (paddr flag : Word) : Word :=
  if flag &&& mmuPageNoalloc = 0#32 then mmuPageOndemand ||| (flag &&& mmuProtMask)
  else paddr ||| (flag &&& mmuProtMask) ||| mmuProtPresent

/-- The part of `mmu_mark` after the directory entry has been seen to. -/
def markPte (addr : Nat) (paddr flag : Word) (s : State) : Option (Bool × State) := do
  let (pte, s) ← readWord fault (ptSlot addr) s
  if pte &&& mmuProtPresent = 0#32 then
    let s ← writeWord fault (ptSlot addr) (markEntry paddr flag) s
    if flag &&& mmuPageNoalloc = 0#32 then some (true, s) else some (true, s.invlpg addr)
  else if flag &&& mmuPageNoalloc = 0#32 then
    let (pte, s) ← readWord fault (ptSlot addr) s
    let s ← writeWord fault (ptSlot addr) ((pte &&& ~~~mmuProtMask) ||| (flag &&& mmuProtMask)) s
    some (true, s)
  else some (false, s)

def mmuMark (addr : Nat) (paddr flag : Word) (s : State) : Option (Bool × State) := do
  let (pde, s) ← readWord fault (pdSlot addr) s
  let s ← if pde &&& (mmuProtPresent ||| mmuPageOndemand) = 0#32 then
      writeWord fault (pdSlot addr) (mmuPageOndemand ||| mmuProtRw ||| mmuProtUser) s
    else some s
  markPte fault addr paddr flag s

def mmuAlloc (s : State) : Option (Word × State) :=
  if 0 < s.framesIndex then
    let s := { s with framesIndex := s.framesIndex - 1 }
    readWord fault (framesVma s.framesIndex) s
  else some (0#32, s)

def mmuFree (addr : Word) (s : State) : Option State := do
  let s ← writeWord fault (framesVma s.framesIndex) addr s
  some { s with framesIndex := s.framesIndex + 1 }

/-- The loop of `mmu_mmap`, with the number of pages that are left. -/
def markPages : Nat → Nat → Word → Word → State → Option (Bool × State)
  | 0, _, _, _, s => some (true, s)
  | n + 1, addr, paddr, flag, s => do
    let (ok, s) ← mmuMark fault addr paddr flag s
    if ok then markPages n (addr + 4096) (paddr + 4096#32) flag s else some (false, s)

/-- The pages of a loop `for (off = 0; off < size; off += 4096)`; above `0xFFFFF000` the
offset wraps and the loop does not end by its condition. -/
def pageCount (size : Nat) : Option Nat :=
  if size ≤ 0xFFFFF000 then some ((size + 4095) / 4096) else none

def mmuMmap (mem : Nat) (paddr : Word) (size : Nat) (flag : Word) (s : State) :
    Option (Bool × State) :=
  match pageCount size with
  | some n => markPages fault n mem paddr flag s
  | none => do
    -- Only a page that is refused ends the loop, in its first round if at all.
    let (ok, s) ← markPages fault (2 ^ 20) mem paddr flag s
    if ok then none else some (false, s)

/-- The body of the loop of `mmu_munmap`. -/
def unmapPage (addr : Nat) (flag : Word) (s : State) : Option State := do
  let (entry, s) ← readWord fault (ptSlot addr) s
  let s ← writeWord fault (ptSlot addr) 0#32 s
  if entry &&& mmuProtPresent ≠ 0#32 ∧ flag &&& mmuMunmapNorelease = 0#32 ∧
      frameOf entry ≠ 0#32 then
    let s ← mmuFree fault (frameOf entry) s
    some (s.invlpg addr)
  else some s

def unmapPages : Nat → Nat → Word → State → Option State
  | 0, _, _, s => some s
  | n + 1, addr, flag, s => do
    let s ← unmapPage fault addr flag s
    unmapPages n (addr + 4096) flag s

def mmuMunmap (mem : Nat) (size : Nat) (flag : Word) (s : State) : Option (Bool × State) := do
  let n ← pageCount size
  let s ← unmapPages fault n mem flag s
  some (true, s)

def mmuClonePagedir (k : Kernel) (s : State) : Option (Word × State) := do
  let (clonepd, s) ← mmuAlloc fault s
  if clonepd = 0#32 then some (0#32, s)
  else
    let (ok, s) ← mmuMmap fault kaddrClondpd clonepd 4096 mmuPageNoalloc s
    if ok then
      let (place, s) ← access fault kaddrClondpd s
      let s := s.zero place.1
      let (place, s) ← access fault (kaddrClondpd + 4 * 512) s
      let s := s.copyFrom place.1 k.pd 512
      let s ← writeWord fault (kaddrClondpd + 4 * 1023) (clonepd + 3#32) s
      let (_, s) ← mmuMunmap fault kaddrClondpd 4096 mmuMunmapNorelease s
      some (clonepd, s)
    else
      let s ← mmuFree fault clonepd s
      some (0#32, s)

end Calls

/-- The handler `INT_0E`. Its own accesses can fault; the first number bounds how deep
faults nest. `alloc` is the call of `mmu_alloc`. -/
def int0E (k : Kernel) (alloc : Fault → State → Option (Word × State)) :
    Nat → Nat → Nat → State → Option State
  | 0, _, _, _ => none
  | depth + 1, code, addr, s =>
    let fault := int0E k alloc depth 0
    if code % 2 = 0 then do
      let (pte, s) ← readWord fault (ptSlot addr) s
      if pte &&& mmuPageOndemand = 0#32 then none
      else
        let (page, s) ← alloc fault s
        let (pte, s) ← readWord fault (ptSlot addr) s
        let s ← writeWord fault (ptSlot addr) (page ||| (pte &&& mmuProtMask) ||| mmuProtPresent) s
        let s := s.invlpg addr
        let (place, s) ← access fault (addr / 4096 * 4096) s
        let s := s.zero place.1
        if 512 ≤ mmuPdIndex addr then
          let (pde, s) ← readWord fault (pdSlot addr) s
          some (s.set k.pd (mmuPdIndex addr) pde)
        else some s
    else none

/-- The page fault handler of the running kernel. -/
def pageFault (k : Kernel) (depth : Nat) : Fault := int0E k mmuAlloc depth 0

/-- `mmu_alloc` where the pool is not empty. -/
def mmuAllocFed (fault : Fault) (s : State) : Option (Word × State) :=
  if 0 < s.framesIndex then mmuAlloc fault s else none

/-- The page fault handler, with no result where a fault meets an empty pool. -/
def pageFaultFed (k : Kernel) (depth : Nat) : Fault := int0E k mmuAllocFed depth 0

/-- An entry of the multiboot memory map. -/
structure Region where
  addr : Nat
  len : Nat
  type : Nat

namespace Region

def start (r : Region) : Nat := (r.addr + 4095) % 2 ^ 64 / 4096 * 4096
def stop (r : Region) : Nat := (r.addr + r.len) % 2 ^ 64 / 4096 * 4096

end Region

def Kernel.kend (k : Kernel) : Nat := k.kernelEnd + 4096

section Init
variable (k : Kernel) (fault : Fault)

/-- The body of the inner loop of `mmu_init`, on `pt_index` and the state. -/
def initFrame (start : Nat) (ptIndex : Nat) (s : State) : Option (Nat × State) :=
  if start < k.kend then some (ptIndex, s)
  else if 0x100000000 ≤ start then some (ptIndex, s)
  else do
    let (ptIndex, s) ← if ptIndex ≠ s.framesIndex / 1024 then do
        let ptIndex := s.framesIndex / 1024
        let (_, s) ← mmuMark fault (framesVma s.framesIndex) 0#32 mmuPageOndemand s
        let (_, s) ← readWord fault (framesVma s.framesIndex) s
        some (ptIndex, s)
      else some (ptIndex, s)
    let s ← writeWord fault (framesVma s.framesIndex) (BitVec.ofNat 32 start) s
    some (ptIndex, { s with framesIndex := s.framesIndex + 1 })

/-- The inner loop of `mmu_init`, with the number of frames that are left. -/
def initFrames : Nat → Nat → Nat → State → Option (Nat × State)
  | 0, _, ptIndex, s => some (ptIndex, s)
  | n + 1, start, ptIndex, s => do
    let (ptIndex, s) ← initFrame k fault start ptIndex s
    initFrames n (start + 4096) ptIndex s

def initRegions : List Region → Nat → State → Option (Nat × State)
  | [], ptIndex, s => some (ptIndex, s)
  | r :: map, ptIndex, s => do
    let (ptIndex, s) ← if r.type ≠ 1 then some (ptIndex, s)
      else initFrames k fault ((r.stop - r.start) / 4096) r.start ptIndex s
    initRegions map ptIndex s

def mmuInit (map : List Region) (s : State) : Option State := do
  let s := s.set k.pd (mmuPdIndex mmuPdVma) (k.pd + 3#32)
  let s := s.set k.pd (mmuPdIndex mmuFramepoolVma) (k.framepoolPt + 3#32)
  let s := s.set k.framepoolPt 0 (k.framepoolFirstpage + 3#32)
  let s := s.loadCr3 k.pd
  let (_, s) ← initRegions k fault map 0 { s with framesIndex := 0 }
  some s

end Init

/-- The state `boot.s` leaves to `mmu_init`: the image mapped at `0xF0000000` by the boot
table, the rest of the bss zero, and anything in the other frames. -/
def bootState (k : Kernel) (ram : Memory) : State where
  mem := fun f i =>
    if f = k.pd then if i = 960 then k.pt + 3#32 else 0#32
    else if f = k.pt then
      if i < 1024 ∧ (i = 0 ∨ 4096 * i + 3 < k.kernelEnd) then BitVec.ofNat 32 (4096 * i + 3)
      else 0#32
    else if f = k.framepoolPt ∨ f = k.framepoolFirstpage then 0#32
    else ram f i
  cr3 := k.pd
  framesIndex := 0
  trace := []

end OsdevCourse.Mmu
