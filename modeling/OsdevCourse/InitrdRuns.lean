import OsdevCourse.Initrd

/-!
# The initial ramdisk in every run

The module that is mounted while the kernel starts is read afterwards, by every process and in any
order of page faults, switches, clones and mappings, as the boot loader has left it: its frames are
nobody's, and its pages stay where they are in every directory.
-/

namespace OsdevCourse.Initrd

set_option autoImplicit false

open Mmu
open PageEntry
open Memory (CStr)
open Kmalloc (heapFull)
open VmaAlloc (vmaAlloc bumped heapFull_bumped vmaAlloc_bumped)
open Tarfs (Archive OpenedOn Stack tarfsFstat tarfsRead)
open Vfs (Mounts Represents)

/-- The string `"/initrd/"`. -/
def initrdPoint : List UInt8 := [47, 105, 110, 105, 116, 114, 100, 47]

/-- The boot loader has put the module behind the image, at a page, where no frame is listed as
usable. The frames of the module may be mapped. -/
structure Placed (k : Kernel) (map : List Region) (outside : Word → Prop)
    (mod : BootModule) : Prop where
  aligned : 4096 ∣ mod.start
  behind : k.kernelEnd ≤ mod.start
  order : mod.start ≤ mod.stop
  below : mod.stop ≤ 2 ^ 32
  clear : ∀ f ∈ usableFrames k map, ¬ Overlaps f mod.start mod.stop
  outside : ∀ f, IsFrame f → Overlaps f mod.start mod.stop → outside f

/-- The module holds the archive. -/
def Holds (ram : Mmu.Memory) (mod : BootModule) (x : Archive) : Prop :=
  mod.stop - mod.start = x.bytes.length ∧
    ∀ i < x.bytes.length, physByte ram (mod.start + i) = x.bytes.getD i 0

/-- The addresses of a region. -/
def Within (v size a : Nat) : Prop := v ≤ a ∧ a < v + size

/-- The frame of the module behind an address of the region at `v`. -/
def moduleFrame (start v a : Nat) : Word := BitVec.ofNat 32 ((start + (a - v)) / 4096 * 4096)

/-! ### The pages of the region -/

section Region
variable {ptr size : Nat} (hptr : ptr % 4096 = 0) (hroom : ptr + size < 0x4000000)
include hptr hroom

omit hptr in
theorem region_page {a : Nat} (ha : Within (0xE0000000 + ptr) size a) : KernelPage a := by
  obtain ⟨hlow, hhigh⟩ := ha
  have hd : mmuPdIndex a = a / 4096 / 1024 := mmuPdIndex_eq (by omega)
  refine ⟨by omega, by omega, ?_⟩
  rintro ⟨hsame, _⟩
  rw [hd, mmuPdIndex_clondpd] at hsame
  omega

omit hptr in
theorem region_below (k : Kernel) {i : Nat} (hi : i < pages size) :
    Spaces.Below k (0xE0000000 + ptr + 4096 * i) := by
  unfold pages at hi
  unfold Spaces.Below imagePage
  rw [pageLimit_eq]
  omega

omit hroom in
theorem region_samePage {a : Nat} (ha : Within (0xE0000000 + ptr) size a) :
    ∃ i < pages size, SamePage a (0xE0000000 + ptr + 4096 * i) ∧
      (a - (0xE0000000 + ptr)) / 4096 = i := by
  obtain ⟨hlow, hhigh⟩ := ha
  refine ⟨(a - (0xE0000000 + ptr)) / 4096, ?_, ?_, rfl⟩
  · unfold pages
    omega
  · rw [samePage_mod]
    omega

end Region

section Module
variable {k : Kernel} {map : List Region} {outside : Word → Prop} {mod : BootModule}
  (h : Placed k map outside mod)
include h

theorem Placed.frame {i : Nat} (hi : i < pages (mod.stop - mod.start)) :
    let f := BitVec.ofNat 32 (mod.start + 4096 * i)
    f.toNat = mod.start + 4096 * i ∧ IsFrame f ∧ Overlaps f mod.start mod.stop ∧ f ∉ k.statics ∧
      f ∉ usableFrames k map := by
  intro f
  have haligned := h.aligned
  have hbehind := h.behind
  have hbelow := h.below
  unfold pages at hi
  have hvalue : f.toNat = mod.start + 4096 * i := by
    rw [BitVec.toNat_ofNat, Nat.mod_eq_of_lt (by omega)]
  have hshared : Overlaps f mod.start mod.stop :=
    ⟨mod.start + 4096 * i, by omega, by omega, by omega, by omega⟩
  exact ⟨hvalue, isFrame_ofNat (by omega), hshared, not_static (by omega),
    fun hf => h.clear f hf hshared⟩

end Module

/-! ### Mapping the module -/

section Probe
variable {k : Kernel} {map : List Region} {outside : Word → Prop} {mod : BootModule}
  (hplaced : Placed k map outside mod) {L : Pool k} (hout : L.outside = outside) {x : Spaces}
  (hsettled : Settled L x) (hclones : x.clones = []) {ptr : Nat} (hptr : ptr % 4096 = 0)
  (hroom : ptr + (mod.stop - mod.start) < 0x4000000)
  (hfree : ∀ i < pages (mod.stop - mod.start), ¬ Refused x.state (0xE0000000 + ptr) i)
  (hfit : (tablesLacked x.state (0xE0000000 + ptr) (pages (mod.stop - mod.start))).card ≤
    x.state.framesIndex)
include hplaced hout hsettled hclones hptr hroom hfree hfit

theorem map_module (depth : Nat) : ∃ y,
    mmuMmap (pageFault k (depth + 1)) (0xE0000000 + ptr) (BitVec.ofNat 32 mod.start)
      (mod.stop - mod.start) mmuPageNoalloc x.state = some (true, y.state) ∧
    Reachable (Spaces.KeepStep k outside fun _ => False) x y ∧ y.clones = [] ∧
    Holding L (Within (0xE0000000 + ptr) (mod.stop - mod.start))
      (moduleFrame mod.start (0xE0000000 + ptr)) y := by
  obtain ⟨role, hroles⟩ := hsettled.roles
  have hflag : mmuPageNoalloc &&& mmuPageNoalloc ≠ 0#32 := by decide
  have hframes : ∀ i < pages (mod.stop - mod.start),
      IsFrame (BitVec.ofNat 32 mod.start + BitVec.ofNat 32 (4096 * i)) ∧
        L.outside (BitVec.ofNat 32 mod.start + BitVec.ofNat 32 (4096 * i)) := by
    intro i hi
    obtain ⟨_, hframe, hshared, _⟩ := hplaced.frame hi
    rw [← BitVec.ofNat_add, hout]
    exact ⟨hframe, hplaced.outside _ hframe hshared⟩
  obtain ⟨y, hrun, hreach, hclones', ⟨role', hnext⟩, hrange⟩ := hroles.markPages_fixed hclones hflag
    (fun i hi => region_below hroom k hi) hframes hfree hfit depth fun _ => False
  have hcount : pageCount (mod.stop - mod.start) = some (pages (mod.stop - mod.start)) := by
    unfold pageCount
    rw [if_pos (by omega)]
    rfl
  have hstart : Holding L (fun _ => False) (fun _ => 0#32) x := ⟨hsettled, fun _ hin => hin.elim⟩
  have hstays := (reachable_holding hreach hstart).1
  rw [hout] at hreach
  refine ⟨y, ?_, hreach, hclones', hstays.toSettled, ?_⟩
  · unfold mmuMmap
    rw [hcount]
    exact hrun
  · intro a ha
    refine ⟨region_page hroom ha, ?_⟩
    obtain ⟨i, hi, hsame, hindex⟩ := region_samePage hptr ha
    have hentry := hrange.pages i hi
    have hpinned := hnext.pinned_of_entry hclones' hentry (present_markEntry hflag _)
    obtain ⟨hvalue, hframe, _⟩ := hplaced.frame hi
    rw [← BitVec.ofNat_add] at hpinned
    have hkept : frameOf (markEntry (BitVec.ofNat 32 (mod.start + 4096 * i)) mmuPageNoalloc) =
        BitVec.ofNat 32 (mod.start + 4096 * i) := by
      unfold markEntry
      rw [if_neg hflag]
      exact frameOf_installed _ hframe
    have hhere : moduleFrame mod.start (0xE0000000 + ptr) a = BitVec.ofNat 32
        (mod.start + 4096 * i) := by
      have haligned := hplaced.aligned
      unfold moduleFrame
      congr 1
      omega
    rw [hhere, ← hkept]
    exact hpinned.samePage hsame

end Probe

/-! ### What is read afterwards -/

theorem seenByte_pinned {k : Kernel} {z : Spaces} {ram : Mmu.Memory} {start v i : Nat}
    (haligned : 4096 ∣ start) (hv : v % 4096 = 0) (hcr3 : z.state.cr3 ∈ z.dirs k)
    (hp : Pinned k z (v + i) (moduleFrame start v (v + i)))
    (hkept : ∀ j,
      z.state.mem (moduleFrame start v (v + i)) j = ram (moduleFrame start v (v + i)) j) :
    seenByte z.state (v + i) = some (physByte ram (start + i)) := by
  have hoffset : (v + i) % 4096 = (start + i) % 4096 := by omega
  have hplace : (v + i) % 4 = (start + i) % 4 := by omega
  have hframe : moduleFrame start v (v + i) = BitVec.ofNat 32 ((start + i) / 4096 * 4096) := by
    unfold moduleFrame
    rw [Nat.add_sub_cancel_left]
  unfold seenByte physByte
  rw [hp.translate hcr3, Option.map_some, hoffset, hplace, hkept, hframe]

section Boot
variable {k : Kernel} {ram : Mmu.Memory} {map : List Region} {depth : Nat} {s : State}
  (hdistinct : (usableFrames k map).Nodup)
  (hinit : mmuInit k (pageFault k depth) map (bootState k ram) = some s) {outside : Word → Prop}
  (himage : ∀ f : Word, f.toNat < k.kernelEnd → outside f)
include hdistinct hinit himage

theorem boot_frame_kept {x : Spaces}
    (hrun : Reachable (Guarded (Spaces.Step k (pageFaultFed k)) (Spaces.Allowed k outside))
      (Spaces.start k s) x) {f : Word} (hbehind : k.kernelEnd ≤ f.toNat)
        (husable : f ∉ usableFrames k map)
    (j : Nat) : x.state.mem f j = ram f j := by
  obtain ⟨ptIndex, hfilling, hlow⟩ := mmuInit_filling hdistinct hinit
  have hstatic := not_static hbehind
  have hsettled := hfilling.start_settled hdistinct hlow outside himage
  have hforeign := hfilling.foreign hdistinct hlow outside hstatic husable
  exact ((reachable_settled hrun hsettled).2 f hforeign j).trans
    (mmuInit_apart hdistinct hinit hstatic husable j)

/-- The bytes of the boot modules are never written, whatever the processes do. -/
theorem modules_keep_their_bytes {mods : List BootModule}
    (hclear : ∀ mod ∈ mods, k.kernelEnd ≤ mod.start ∧ mod.stop ≤ 2 ^ 32 ∧
      ∀ f ∈ usableFrames k map, ¬ Overlaps f mod.start mod.stop) {x : Spaces}
    (hrun : Reachable (Guarded (Spaces.Step k (pageFaultFed k)) (Spaces.Allowed k outside))
      (Spaces.start k s) x) :
    ∀ mod ∈ mods, ∀ p, mod.start ≤ p → p < mod.stop → physByte x.state.mem p = physByte ram p := by
  intro mod hmod p hlow hhigh
  obtain ⟨hbehind, hbelow, hapart⟩ := hclear mod hmod
  have haligned := k.end_aligned
  have hvalue : (BitVec.ofNat 32 (p / 4096 * 4096)).toNat = p / 4096 * 4096 := by
    rw [BitVec.toNat_ofNat, Nat.mod_eq_of_lt (by omega)]
  have husable : BitVec.ofNat 32 (p / 4096 * 4096) ∉ usableFrames k map := by
    intro hf
    exact hapart _ hf ⟨p, hlow, hhigh, by omega, by omega⟩
  unfold physByte
  rw [boot_frame_kept hdistinct hinit himage hrun (by omega) husable]

end Boot

/-- The first directory that is cloned. -/
def firstClone : Word × State :=
  (mmuClonePagedir (pageFaultFed smallKernel 4) smallKernel smallStart).get (by decide +kernel)

theorem modules_keep_their_bytes_small :
    (List.range 4096).map (fun i => physByte firstClone.2.mem (apartModule.start + i)) =
      (List.range 4096).map fun i => physByte (fun _ _ => 0#32) (apartModule.start + i) := by
  have hinit : smallInit [smallRam 4] = some smallStart := (Option.some_get _).symm
  have hclone : mmuClonePagedir (pageFaultFed smallKernel 4) smallKernel smallStart =
      some firstClone :=
    (Option.some_get _).symm
  have hrun : Reachable (Guarded (Spaces.Step smallKernel (pageFaultFed smallKernel))
      (Spaces.Allowed smallKernel fun _ => True)) (Spaces.start smallKernel smallStart)
      ((Spaces.start smallKernel smallStart).afterClone firstClone.1 firstClone.2) :=
    ⟨[.clone], .single ⟨True.intro, .clone hclone⟩⟩
  have hframes : usableFrames smallKernel [smallRam 4] =
      [0x107000#32, 0x108000#32, 0x109000#32, 0x10A000#32] := by decide +kernel
  have hclear : ∀ mod ∈ [apartModule], smallKernel.kernelEnd ≤ mod.start ∧ mod.stop ≤ 2 ^ 32 ∧
      ∀ f ∈ usableFrames smallKernel [smallRam 4], ¬ Overlaps f mod.start mod.stop := by
    intro mod hmod
    rw [List.mem_singleton.1 hmod]
    refine ⟨by decide, by decide, ?_⟩
    rintro f hf ⟨a, hlow, _, _, hhigh⟩
    have hbelow : f.toNat + 4096 ≤ 0x10B000 := by
      rw [hframes] at hf
      simp only [List.mem_cons, List.not_mem_nil, or_false] at hf
      rcases hf with heq | heq | heq | heq <;> simp [heq]
    simp only [apartModule] at hlow
    omega
  have hstate : ((Spaces.start smallKernel smallStart).afterClone firstClone.1 firstClone.2).state =
      firstClone.2 := by
    unfold Spaces.afterClone
    split <;> rfl
  have hkept := modules_keep_their_bytes (by decide +kernel) hinit
    (fun _ _ => True.intro) hclear hrun
  rw [hstate] at hkept
  apply List.map_congr_left
  intro i hi
  have hlt := List.mem_range.1 hi
  have hstop : apartModule.stop = apartModule.start + 4096 := rfl
  exact hkept apartModule (List.mem_singleton_self _) _ (Nat.le_add_right _ _) (by omega)

theorem keepStep_allowed {k : Kernel} {outside : Word → Prop} {pages : Nat → Prop} {x y : Spaces}
    (h : Reachable (Spaces.KeepStep k outside pages) x y) :
    Reachable (Guarded (Spaces.Step k (pageFaultFed k)) (Spaces.Allowed k outside)) x y :=
  h.mono fun _ _ _ hstep => ⟨hstep.1.1, hstep.2⟩

theorem mountInitrds_initrds {fault : Fault} {fs : Nat} {m : Memory} {mountPoint : Nat}
    (mods : List BootModule) (hal : Hal) (s : State) :
    mountInitrds fault fs m mountPoint mods hal s =
      mountInitrds fault fs m mountPoint (initrds mods) hal s := by
  induction mods generalizing hal s with
  | nil => rfl
  | cons mod mods ih =>
    have hskip : initrds (mod :: mods) =
        if mod.name == "initrd" then mod :: initrds mods else initrds mods := List.filter_cons
    by_cases hname : (mod.name == "initrd") = true
    · rw [hskip, if_pos hname, mountInitrds, mountInitrds, if_pos hname, if_pos hname]
      simp only [ih]
    · rw [hskip, if_neg hname, mountInitrds, if_neg hname]
      exact ih hal s

theorem lookup_mounted {t : Mounts} {point name : List UInt8} {fs : Nat}
    (hfirst : ∀ e ∈ t, ¬ e.1 <+: point ++ name) :
    Vfs.lookup (t ++ [(point, fs)]) (point ++ name) = some (point, fs) := by
  unfold Vfs.lookup
  rw [List.find?_append, List.find?_eq_none.2, Option.none_or, List.find?_singleton]
  · simp
  · intro e he
    simpa using hfirst e he

section Served
variable {k : Kernel} {ram : Mmu.Memory} {map : List Region} {depth : Nat} {s : State}
  (hdistinct : (usableFrames k map).Nodup)
  (hinit : mmuInit k (pageFault k depth) map (bootState k ram) = some s) {outside : Word → Prop}
  (himage : ∀ f : Word, f.toNat < k.kernelEnd → outside f)
  {mods : List BootModule} {mod : BootModule} (hmods : initrds mods = [mod])
  (hplaced : Placed k map outside mod) {archive : Archive} (hholds : Holds ram mod archive)
  {x : Spaces} (hbefore : Reachable
    (Guarded (Spaces.Step k (pageFaultFed k)) (Spaces.Allowed k outside))
    (Spaces.start k s) x) (hclones : x.clones = [])
  {hal : Hal} {ptr : Nat} (hheap : hal.vmaHeap = bumped ptr) (hptr : ptr % 4096 = 0)
  (hroom : ptr + archive.bytes.length < 0x4000000)
  (hfree : ∀ i < pages archive.bytes.length, ¬ Refused x.state (0xE0000000 + ptr) i)
  (hfit : (tablesLacked x.state (0xE0000000 + ptr) (pages archive.bytes.length)).card ≤
    x.state.framesIndex)
  {t : Mounts} (hmounts : Represents hal.vfs t) (hcount : t.length < 64)
  {m : Memory} {mountPoint : Nat} (hpoint : CStr m mountPoint initrdPoint)
include hdistinct hinit himage hmods hplaced hholds hbefore hclones hheap hptr hroom
    hfree hfit hmounts
  hcount hpoint

end Served

/-! ### A small archive -/

/-- The memory with the bytes. -/
def ramOf (bytes : Memory) : Mmu.Memory := fun f i =>
    BitVec.ofNat 32 (Memory.read32 bytes (f.toNat + 4 * i))

theorem byteOf_read32 (m : Memory) (a : Nat) {n : Nat} (hn : n < 4) :
    UInt8.ofBitVec (byteOf (BitVec.ofNat 32 (Memory.read32 m a)) n) = m (a + n) := by
  have h0 := (m a).toNat_lt
  have h1 := (m (a + 1)).toNat_lt
  have h2 := (m (a + 2)).toNat_lt
  have h3 := (m (a + 3)).toNat_lt
  have hvalue : (UInt8.ofBitVec (byteOf (BitVec.ofNat 32 (Memory.read32 m a)) n)).toNat =
      Memory.read32 m a % 2 ^ 32 / 2 ^ (8 * n) % 2 ^ 8 := by
    unfold byteOf
    rw [UInt8.toNat_ofBitVec, BitVec.toNat_setWidth, BitVec.toNat_ushiftRight, BitVec.toNat_ofNat,
      Nat.shiftRight_eq_div_pow]
  rw [← UInt8.toNat_inj, hvalue]
  unfold Memory.read32
  have hcases : n = 0 ∨ n = 1 ∨ n = 2 ∨ n = 3 := by omega
  rcases hcases with rfl | rfl | rfl | rfl
  · simp only [Nat.add_zero, Nat.mul_zero, Nat.pow_zero, Nat.div_one]
    omega
  · omega
  · omega
  · omega

theorem physByte_ramOf (bytes : Memory) {p : Nat} (hp : p < 2 ^ 32) :
    physByte (ramOf bytes) p = bytes p := by
  unfold physByte ramOf
  rw [byteOf_read32 _ _ (Nat.mod_lt _ (by omega)), BitVec.toNat_ofNat]
  congr 1
  omega

/-- The memory from which the mount point is read. -/
def pointMemory : Memory := Memory.writeBytes (fun _ => 0) 8 (initrdPoint ++ [0])

/-- The name of the file. -/
def fileMemory : Memory := Memory.writeBytes (fun _ => 0) 8 (initrdPoint ++ [97, 0])

/-- A module of two blocks behind the RAM of the small machine. -/
def archiveModule : BootModule := ⟨0x10B000, 0x10B400, "initrd"⟩

def smallHal : Hal := ⟨bumped 0, none, Vfs.init fun _ => ⟨fun _ => 0, 0, 0⟩⟩

theorem archiveModule_placed : Placed smallKernel [smallRam 4] (fun _ => True) archiveModule := by
  have hframes : usableFrames smallKernel [smallRam 4] =
      [0x107000#32, 0x108000#32, 0x109000#32, 0x10A000#32] := by decide +kernel
  have hstart : archiveModule.start = 0x10B000 := rfl
  have hstop : archiveModule.stop = 0x10B400 := rfl
  have hend : smallKernel.kernelEnd = 0x106000 := rfl
  refine ⟨?_, ?_, ?_, ?_, ?_, fun _ _ _ => True.intro⟩
  · rw [hstart]
    omega
  · omega
  · omega
  · omega
  · rintro f hf ⟨a, hlow, _, _, hhigh⟩
    have hbelow : f.toNat + 4096 ≤ 0x10B000 := by
      rw [hframes] at hf
      simp only [List.mem_cons, List.not_mem_nil, or_false] at hf
      rcases hf with heq | heq | heq | heq <;> simp [heq]
    omega

theorem small_region (ram : Mmu.Memory) : ∃ s,
    mmuInit smallKernel (pageFault smallKernel 1) [smallRam 4]
      (bootState smallKernel ram) = some s ∧
    present (entry s 0xE0000000) = false ∧ 0 < s.framesIndex := by
  have hdistinct : (usableFrames smallKernel [smallRam 4]).Nodup := by decide +kernel
  have hlength : (usableFrames smallKernel [smallRam 4]).length = 4 := by decide +kernel
  obtain ⟨ptIndex, s, hrun, hfilling, hlow, _⟩ := mmuInit_spec smallKernel ram
    [smallRam 4] hdistinct 0
  refine ⟨s, mmuInit_within (pageFaultFed_within smallKernel 1) hrun, ?_, ?_⟩
  · have hpde : present (s.mem s.cr3 (mmuPdIndex 0xE0000000)) = false := by
      rw [hfilling.cr3, hfilling.directory]
      decide
    rw [entry_absent hpde]
    decide
  · have hcount := hfilling.perm.length_eq
    unfold contents at hcount
    rw [List.length_append, List.length_map, List.length_map, List.length_range, List.length_range,
      hlength] at hcount
    omega

end OsdevCourse.Initrd
