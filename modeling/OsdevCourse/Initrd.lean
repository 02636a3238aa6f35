import OsdevCourse.DeviceWindows
import OsdevCourse.LoaderBuffer
import OsdevCourse.MmuModules
import OsdevCourse.MmuPinned
import OsdevCourse.MmuRecycled
import OsdevCourse.Vfs

/-!
# The initial ramdisk

`kmain` gives the module `initrd` to `probe_initrd`, which maps it behind the regions of
`vma_alloc`, opens it as a ramdisk with a tar file system and mounts that. From then on a file of
the archive is read through the page tables of whatever process runs. What is read there is what the
boot loader has put into memory.
-/

namespace OsdevCourse.Initrd

set_option autoImplicit false

open Mmu
open Memory (CStr Stored readBytes writeBytes chars cstr_chars stored_iff_getD)
open Kmalloc (Heap heapFull)
open VmaAlloc (vmaAlloc bumped)
open Tarfs (Archive OpenedOn Stack tarfsFstat tarfsRead)
open Vfs (FsDriver Table Mounts Represents)

/-- A byte of the physical memory. -/
def physByte (mem : Mmu.Memory) (p : Nat) : UInt8 :=
  .ofBitVec (byteOf (mem (BitVec.ofNat 32 (p / 4096 * 4096)) (p % 4096 / 4)) (p % 4))

/-- The byte at a virtual address, where its page is present. -/
def seenByte (s : State) (addr : Nat) : Option UInt8 :=
  (translate s addr).map fun place => .ofBitVec (byteOf (s.mem place.1 place.2) (addr % 4))

/-- `struct RAMDISK_DRIVER_DATA` -/
structure DriverData where
  memory : Nat
  size : Nat

/-- `struct RAMDISK_OPEN_OPTIONS` -/
structure OpenOptions where
  memory : Nat
  size : Nat

def ramdiskOpen (opt : OpenOptions) : DriverData := ⟨opt.memory, opt.size⟩

/-- The heap of `vma_alloc`, the driver data of the device `initrd`, and the mount table. -/
structure Hal where
  vmaHeap : Heap
  initrd : Option DriverData
  vfs : Table

/-- `HAL::probe_initrd`. The result of `mmu_mmap` is not looked at. The file system device is at
the address `fs`. -/
def probeInitrd (fault : Fault) (fs : Nat) (phyaddr : Word) (size : Nat) (m : Memory)
    (mountPoint : Nat)
    (hal : Hal) (s : State) : Option (Bool × Hal × State) := do
  let (heap, memory) := vmaAlloc hal.vmaHeap size
  let (_, s) ← mmuMmap fault memory phyaddr size mmuPageNoalloc s
  let hal := { hal with vmaHeap := heap, initrd := some (ramdiskOpen ⟨memory, size⟩) }
  some (true, { hal with vfs := (Vfs.mount hal.vfs m mountPoint fs).2 }, s)

/-- The loop of `kmain` over the modules; the string `"/initrd/"` is at `mountPoint`. -/
def mountInitrds (fault : Fault) (fs : Nat) (m : Memory) (mountPoint : Nat) :
    List BootModule → Hal → State → Option (Hal × State)
  | [], hal, s => some (hal, s)
  | mod :: mods, hal, s =>
    if mod.name == "initrd" then do
      let size := (mod.stop + 2 ^ 32 - mod.start) % 2 ^ 32
      let (_, hal, s) ← probeInitrd fault fs (BitVec.ofNat 32 mod.start) size m mountPoint hal s
      mountInitrds fault fs m mountPoint mods hal s
    else mountInitrds fault fs m mountPoint mods hal s

/-- The disk as the running process sees it, where all its pages are present. -/
def disk (s : State) (data : DriverData) : Option Ramdisk :=
  if h : data.size < 2 ^ 32 then
    if (List.range data.size).all fun i => (seenByte s (data.memory + i)).isSome then
      some ⟨fun i => (seenByte s (data.memory + i)).getD 0, data.size, h⟩
    else none
  else none

/-- The string at an address, where a NUL comes within the fuel. -/
def nameAt (m : Memory) (path fuel : Nat) : Option (List UInt8) :=
  if 0 ∈ readBytes m path fuel then some (chars (readBytes m path fuel)) else none

/-- The eight bytes of a `uint64_t`. -/
def bytes64 (v : Nat) : List UInt8 := (List.range 8).map fun i => UInt8.ofNat (v / 256 ^ i)

/-- The disk of the device and the name that a function of `tarfs.c` is called with. -/
def request (s : State) (hal : Hal) (fuel : Nat) (m : Memory) (path : Nat) :
    Option (Ramdisk × List UInt8) := do
  let data ← hal.initrd
  let d ← disk s data
  let name ← nameAt m path fuel
  some (d, name)

/-- The functions of `tarfs.c` on the memory of the process that runs; without a memory a page was
missing, or the fuel. -/
def tarfsDriver (s : State) (hal : Hal) (stack : Stack) (fuel : Nat) :
    FsDriver (Option Memory) where
  fstat _ path stat mem :=
    match mem.bind fun m => (request s hal fuel m path).bind fun r =>
        (tarfsFstat r.1 stack fuel r.2).map fun len => (m, len) with
    | none => (false, none)
    | some (m, none) => (false, some m)
    | some (m, some len) => (true, some (writeBytes m stat (bytes64 len)))
  read _ path buf offset size mem :=
    match mem.bind fun m => (request s hal fuel m path).bind fun r =>
        (tarfsRead r.1 stack fuel r.2 offset size).map fun r => (m, r) with
    | none => (0, none)
    | some (m, n, bytes) => (n, some (writeBytes m buf bytes))
  write _ _ _ _ _ mem := (-1, mem)

/-- What the mount table says about a file of the archive. -/
structure Served (x : Archive) (name : List UInt8)
    (driver : Nat → FsDriver (Option Memory)) (v : Table)
    (m : Memory) (filename : Nat) : Prop where
  fstat : ∀ stat, Vfs.fstat driver v m filename stat (some m) =
    match x.entries.find? fun e => e.name = name with
    | none => (false, some m)
    | some e => (true, some (writeBytes m stat (bytes64 e.contents.length)))
  read : ∀ buf offset size, offset + size < 2 ^ 64 →
    Vfs.read driver v m filename buf offset size (some m) =
      match x.entries.find? fun e => e.name = name with
      | none => (0, some m)
      | some e => (((min size (e.contents.length - offset) : Nat) : Int), some (writeBytes m buf
          ((e.contents.drop offset).take (min size (e.contents.length - offset)))))

/-! ### The archive on a disk -/

section Disk
variable {d : Ramdisk} {x : Archive} {query : List UInt8} {fuel : Nat}

theorem fstat_opened (stack : Stack) (hopen : OpenedOn d x) (hquery : query ≠ [])
    (hchars : ∀ c ∈ query, c ≠ 0) (hfuel : d.size / 512 + 1 ≤ fuel) :
    tarfsFstat d stack fuel query =
      some ((x.entries.find? fun e => e.name = query).map fun e => e.contents.length) := by
  have hfinds := hopen.finds stack hquery hchars hfuel
  unfold Tarfs.Finds at hfinds
  unfold tarfsFstat
  cases hentry : x.entries.find? fun e => e.name = query with
  | none =>
    simp only [hentry] at hfinds
    simp only [hfinds, Option.map_none]
  | some e =>
    simp only [hentry] at hfinds
    obtain ⟨pos, hscan, _, _⟩ := hfinds
    simp only [hscan, Option.map_some]

theorem read_opened (stack : Stack) (hopen : OpenedOn d x) (hquery : query ≠ [])
    (hchars : ∀ c ∈ query, c ≠ 0) (hfuel : d.size / 512 + 1 ≤ fuel) {offset size : Nat}
    (hsum : offset + size < 2 ^ 64) :
    tarfsRead d stack fuel query offset size =
      some (match x.entries.find? fun e => e.name = query with
        | none => (0, [])
        | some e => (((min size (e.contents.length - offset) : Nat) : Int),
            (e.contents.drop offset).take (min size (e.contents.length - offset)))) := by
  have hfinds := hopen.finds stack hquery hchars hfuel
  unfold Tarfs.Finds at hfinds
  unfold tarfsRead
  cases hentry : x.entries.find? fun e => e.name = query with
  | none =>
    simp only [hentry] at hfinds
    simp only [hfinds]
  | some e =>
    simp only [hentry] at hfinds
    obtain ⟨pos, hscan, hstored, hin⟩ := hfinds
    have hlt := d.size_lt
    simp only [hscan]
    by_cases hoff : e.contents.length ≤ offset
    · rw [if_pos hoff, Nat.sub_eq_zero_of_le hoff, Nat.min_zero]
      rfl
    · have hclamp := Ramdisk.clampSize_eq (Nat.le_of_lt (Nat.not_le.mp hoff)) hsum
      have hcursor : ((pos + 512) % 2 ^ 64 + offset) % 2 ^ 64 = pos + 512 + offset := by omega
      have hmin : min (min size (e.contents.length - offset)) (d.size - (pos + 512 + offset)) =
          min size (e.contents.length - offset) := by omega
      rw [if_neg hoff]
      simp only [hclamp, hcursor]
      rw [Ramdisk.read_eq (by omega) (by omega), hmin, Tarfs.readBytes_contents hstored (by omega)]

end Disk

/-! ### The disk in the memory of a process -/

/-- The bytes of the disk are seen as the bytes of the module. -/
def Shown (s : State) (data : DriverData) (bytes : List UInt8) : Prop :=
  data.size = bytes.length ∧ data.size < 2 ^ 32 ∧
    ∀ i < data.size, seenByte s (data.memory + i) = some (bytes.getD i 0)

section Shown
variable {s : State} {data : DriverData} {x : Archive} (h : Shown s data x.bytes)
include h

theorem Shown.disk_eq : ∃ d, disk s data = some d ∧ OpenedOn d x := by
  obtain ⟨hsize, hlt, hseen⟩ := h
  have hall : ((List.range data.size).all fun i => (seenByte s (data.memory + i)).isSome) =
      true := by
    rw [List.all_eq_true]
    intro i hi
    rw [hseen i (List.mem_range.1 hi)]
    rfl
  refine ⟨⟨fun i => (seenByte s (data.memory + i)).getD 0, data.size, hlt⟩, ?_, hsize, ?_⟩
  · unfold disk
    rw [dif_pos hlt, if_pos hall]
  · apply stored_iff_getD.2
    intro i hi
    simp only [Nat.zero_add]
    rw [hseen i (by omega)]
    rfl

end Shown

theorem nameAt_eq {m : Memory} {path fuel : Nat} {name : List UInt8} (h : CStr m path name)
    (hfuel : name.length < fuel) : nameAt m path fuel = some name := by
  have hnul : 0 ∈ readBytes m path fuel := by
    have hzero : (name ++ [0]).getD name.length 0 = 0 := by simp
    have hlast := stored_iff_getD.1 h.1 name.length (by simp)
    exact List.mem_map.2 ⟨name.length, List.mem_range.2 hfuel, hlast.trans hzero⟩
  unfold nameAt
  rw [if_pos hnul, Option.some.injEq]
  exact (cstr_chars hnul).unique h

theorem Shown.served {s : State} {hal : Hal} {data : DriverData} {x : Archive}
    (h : Shown s data x.bytes)
    (hdata : hal.initrd = some data) {t : Mounts} (hmounts : Represents hal.vfs t) {fs : Nat}
    {point name : List UInt8} (hlookup : Vfs.lookup t (point ++ name) = some (point, fs))
    (stack : Stack) {fuel : Nat} (hfuel : data.size / 512 + 1 ≤ fuel) (hlen : name.length < fuel)
    (hne : name ≠ []) {m : Memory} {filename : Nat} (hname : CStr m filename (point ++ name)) :
    Served x name (fun _ => tarfsDriver s hal stack fuel) hal.vfs m filename := by
  obtain ⟨d, hdisk, hopen⟩ := h.disk_eq
  have hresolves := hmounts.resolves hname
  unfold Vfs.Resolves at hresolves
  rw [hlookup] at hresolves
  obtain ⟨subpath, sub, hsub, hpath, _, hcalls⟩ := hresolves
  obtain rfl := List.append_cancel_left hsub
  have hchars : ∀ c ∈ sub, c ≠ 0 := hpath.2
  have hrequest : request s hal fuel m subpath = some (d, sub) := by
    unfold request
    simp only [hdata, hdisk, nameAt_eq hpath hlen, Option.bind_eq_bind, Option.bind_some]
  have hsize : d.size = data.size := hopen.size_eq.trans h.1.symm
  have hfuel' : d.size / 512 + 1 ≤ fuel := by
    rw [hsize]
    exact hfuel
  constructor
  · intro stat
    rw [hcalls.fstat]
    simp only [tarfsDriver, Option.bind_some, hrequest, fstat_opened stack hopen hne hchars hfuel',
      Option.map_some]
    cases x.entries.find? fun e => e.name = sub with
    | none => rfl
    | some e => rfl
  · intro buf offset size hsum
    rw [hcalls.read]
    simp only [tarfsDriver, Option.bind_some, hrequest,
      read_opened stack hopen hne hchars hfuel' hsum,
      Option.map_some]
    cases x.entries.find? fun e => e.name = sub with
    | none => simp only [Memory.writeBytes_nil]
    | some e => rfl

end OsdevCourse.Initrd
