import OsdevCourse.VmaAlloc
import OsdevCourse.Reachability

/-!
# The frame buffer of the display driver

`bga_set_mode` reserves a region for the frame buffer when it has none, of the size of the
mode it is called for, and maps the frame buffer of every later mode at the same address. A
later mode with a larger frame buffer reaches over the end of the region.
-/

namespace OsdevCourse.Bga

set_option autoImplicit false

open Kmalloc (Heap heapFull heapMem heapBump)
open VmaAlloc

/-- A `struct DISPLAY_MODEINFO`. -/
structure Modeinfo where
  mode : Nat
  width : Nat
  height : Nat
  bpp : Nat
  pitch : Nat

/-- `__bga_allowed_mode` -/
def bgaAllowedMode : List Modeinfo :=
  [⟨0, 640, 480, 32, 640 * 4⟩, ⟨1, 800, 600, 32, 800 * 4⟩, ⟨2, 1024, 768, 32, 1024 * 4⟩]

def bgaGetMaxmode : Nat := bgaAllowedMode.length - 1

/-- The part of a `struct DISPLAY_DEVICE` that a mode change reads and writes. -/
structure Device where
  info : Modeinfo
  frameBuffer : Nat
  frameBufferSize : Nat

/-- The device that `bga_open` leaves. -/
def bgaOpen : Device := ⟨⟨0, 0, 0, 0, 0⟩, 0, 0⟩

/-- What a mode change asks of the hardware and of the kernel, with the address `vma_alloc`
has returned. -/
inductive Call where
  | outw (port value : Nat)
  | mmuMunmap (addr size : Nat)
  | vmaAlloc (size v : Nat)
  | mmuMmap (addr bar size : Nat)

def vbeDispiIoportIndex : Nat := 0x01CE
def vbeDispiIoportData : Nat := 0x01CF

/-- The index of a register, and the value for it. -/
def dispi (index value : Nat) : List Call :=
  [.outw vbeDispiIoportIndex index, .outw vbeDispiIoportData (value % 2 ^ 16)]

def bgaGetModeinfo (mode : Nat) : Option Modeinfo :=
  if mode > bgaGetMaxmode then none else bgaAllowedMode[mode]?

/-- `frame_buffer_size` as `bga_set_mode` computes it for a mode. -/
def frameBufferBytes (info : Modeinfo) : Nat := info.pitch * info.height * (info.bpp / 8) % 2 ^ 32

structure Outcome where
  ok : Bool
  heap : Heap
  device : Device
  calls : List Call

/-- `bga_set_mode`. `bar` is the answer of `get_bar` and `mapped` that of `mmu_mmap`. -/
def bgaSetMode (mode : Nat) (bar : Option (Nat × Nat)) (mapped : Bool) (heap : Heap)
    (device : Device) : Outcome :=
  match bgaGetModeinfo mode with
  | none => ⟨false, heap, device, []⟩
  | some info =>
    let device := { device with info := { info with mode := mode } }
    let program := dispi 4 0 ++ dispi 1 info.width ++ dispi 2 info.height ++ dispi 3 info.bpp ++
      dispi 4 0x41
    match bar with
    | none => ⟨false, heap, device, program⟩
    | some (bar, size) =>
      let unmap := if device.frameBufferSize ≠ 0 then
          [Call.mmuMunmap device.frameBuffer device.frameBufferSize]
        else []
      let bar := bar / 16 * 16
      let size := if size > frameBufferBytes info then frameBufferBytes info else size
      let (heap, v) := if device.frameBuffer = 0 then vmaAlloc heap (frameBufferBytes info)
        else (heap, device.frameBuffer)
      let reserve :=
        if device.frameBuffer = 0 then [Call.vmaAlloc (frameBufferBytes info) v] else []
      ⟨mapped, heap, { device with frameBuffer := v, frameBufferSize := size },
        program ++ unmap ++ reserve ++ [.mmuMmap v bar size]⟩

/-- The regions that calls of `vma_alloc` have reserved. -/
def reserved (calls : List Call) : List Range :=
  calls.filterMap fun
    | .vmaAlloc size v => if v = 0 then none else some ⟨v, size⟩
    | _ => none

/-- The driver and the allocator, with the regions that have been reserved, oldest first, and
the one among them the frame buffer is in. -/
structure Machine where
  heap : Heap
  device : Device
  ranges : List Range
  own : Option Nat

def start : Machine := ⟨kheapVmaalloc, bgaOpen, [], none⟩

inductive Op where
  | setMode (mode : Nat) (bar : Option (Nat × Nat)) (mapped : Bool)
  | vmaAlloc (size : Nat)

def step (m : Machine) : Op → Machine
  | .setMode mode bar mapped =>
    let r := bgaSetMode mode bar mapped m.heap m.device
    { heap := r.heap
      device := r.device
      ranges := m.ranges ++ reserved r.calls
      own := if (reserved r.calls).isEmpty then m.own else some m.ranges.length }
  | .vmaAlloc size =>
    let (heap, v) := vmaAlloc m.heap size
    { m with heap := heap, ranges := m.ranges ++ reserved [.vmaAlloc size v] }

def Step (m : Machine) (op : Op) (m' : Machine) : Prop := m' = step m op

/-- The mapped frame buffer lies in the region that was reserved for it. -/
def Contained (m : Machine) : Prop :=
  m.device.frameBufferSize = 0 ∨
    ∃ i r, m.own = some i ∧ m.ranges[i]? = some r ∧ r.addr ≤ m.device.frameBuffer ∧
      m.device.frameBuffer + m.device.frameBufferSize ≤ r.addr + r.size

/-- The mapped frame buffer has no address in common with another region. -/
def Alone (m : Machine) : Prop :=
  ∀ i r, m.ranges[i]? = some r → m.own ≠ some i → ∀ a,
    m.device.frameBuffer ≤ a → a < m.device.frameBuffer + m.device.frameBufferSize →
      ¬ (r.addr ≤ a ∧ a < r.addr + r.size)

/-- The mapped frame buffer fits the region it has, or the one it is going to get, and no
request wraps the pointer of the heap. -/
def Cond (m : Machine) : Op → Prop
  | .setMode mode bar _ => ∀ info region, bgaGetModeinfo mode = some info → bar = some region →
      min region.2 (frameBufferBytes info) = 0 ∨
        if m.device.frameBuffer = 0 then ¬ heapFull m.heap (frameBufferBytes info)
        else ∃ i r, m.own = some i ∧ m.ranges[i]? = some r ∧
          min region.2 (frameBufferBytes info) ≤ r.size
  | .vmaAlloc size => heapFull m.heap size ∨ m.heap.ptr + size < m.heap.size

/-! ### One step -/

theorem reserved_append (cs ds : List Call) : reserved (cs ++ ds) = reserved cs ++ reserved ds :=
  List.filterMap_append

theorem reserved_vmaAlloc (size v : Nat) :
    reserved [.vmaAlloc size v] = if v = 0 then [] else [⟨v, size⟩] := by
  unfold reserved
  split <;> simp [*]

theorem mem_bgaAllowedMode {mode : Nat} {info : Modeinfo} (h : bgaGetModeinfo mode = some info) :
    info ∈ bgaAllowedMode := by
  unfold bgaGetModeinfo at h
  split at h
  · exact absurd h (by simp)
  · exact List.mem_of_getElem? h

theorem frameBufferBytes_le {mode : Nat} {info : Modeinfo} (h : bgaGetModeinfo mode = some info) :
    0 < frameBufferBytes info ∧ frameBufferBytes info ≤ 12582912 := by
  have hmem := mem_bgaAllowedMode h
  unfold bgaAllowedMode at hmem
  simp only [List.mem_cons, List.not_mem_nil, or_false] at hmem
  rcases hmem with heq | heq | heq <;> rw [heq] <;> decide

theorem bgaSetMode_unknown {mode : Nat} {bar : Option (Nat × Nat)} {mapped : Bool} {heap : Heap}
    {device : Device} (h : bgaGetModeinfo mode = none) :
    bgaSetMode mode bar mapped heap device = ⟨false, heap, device, []⟩ := by
  unfold bgaSetMode
  rw [h]

theorem reserved_calls (info : Modeinfo) (device : Device) (reserve : List Call)
    (v bar size : Nat) :
    reserved (dispi 4 0 ++ dispi 1 info.width ++ dispi 2 info.height ++ dispi 3 info.bpp ++
      dispi 4 0x41 ++
      (if device.frameBufferSize ≠ 0 then [Call.mmuMunmap device.frameBuffer device.frameBufferSize]
        else []) ++ reserve ++ [.mmuMmap v bar size]) = reserved reserve := by
  have hprogram : ∀ index value, reserved (dispi index value) = [] := fun _ _ => rfl
  have hmap : reserved [.mmuMmap v bar size] = [] := rfl
  simp only [reserved_append, hprogram, hmap, List.append_nil, List.nil_append]
  split <;> rfl

/-- A mode change either does not get as far as the frame buffer, or maps it where it is, or
reserves a region for it first. -/
theorem step_setMode (m : Machine) (mode : Nat) (bar : Option (Nat × Nat)) (mapped : Bool) :
    let m' := step m (.setMode mode bar mapped)
    ((bgaGetModeinfo mode = none ∨ bar = none) ∧ m'.heap = m.heap ∧ m'.ranges = m.ranges ∧
      m'.own = m.own ∧ m'.device.frameBuffer = m.device.frameBuffer ∧
      m'.device.frameBufferSize = m.device.frameBufferSize) ∨
    ∃ info region, bgaGetModeinfo mode = some info ∧ bar = some region ∧
      m'.device.frameBufferSize = min region.2 (frameBufferBytes info) ∧
      (m.device.frameBuffer ≠ 0 ∧ m'.heap = m.heap ∧ m'.ranges = m.ranges ∧ m'.own = m.own ∧
          m'.device.frameBuffer = m.device.frameBuffer ∨
        m.device.frameBuffer = 0 ∧ (m'.heap, m'.device.frameBuffer) =
            vmaAlloc m.heap (frameBufferBytes info) ∧
          m'.ranges = m.ranges ++
            reserved [.vmaAlloc (frameBufferBytes info) m'.device.frameBuffer] ∧
          m'.own = if m'.device.frameBuffer = 0 then m.own else some m.ranges.length) := by
  intro m'
  have hm' : m' = step m (.setMode mode bar mapped) := rfl
  simp only [step] at hm'
  cases hinfo : bgaGetModeinfo mode with
  | none =>
    left
    rw [bgaSetMode_unknown hinfo] at hm'
    rw [hm']
    refine ⟨.inl rfl, rfl, ?_, rfl, rfl, rfl⟩
    exact List.append_nil _
  | some info =>
    unfold bgaSetMode at hm'
    simp only [hinfo] at hm'
    cases bar with
    | none =>
      left
      rw [hm']
      refine ⟨.inr rfl, rfl, ?_, rfl, rfl, rfl⟩
      exact List.append_nil _
    | some region =>
      right
      have hsize : (if region.2 > frameBufferBytes info then frameBufferBytes info else region.2) =
          min region.2 (frameBufferBytes info) := by
        split <;> omega
      simp only [hsize] at hm'
      refine ⟨info, region, rfl, rfl, by rw [hm'], ?_⟩
      cases Nat.eq_zero_or_pos m.device.frameBuffer with
      | inr hpos =>
        left
        have hne : m.device.frameBuffer ≠ 0 := by omega
        have hcalls := reserved_calls info { m.device with info := { info with mode := mode } } []
        simp only [if_neg hne] at hm'
        simp only at hcalls
        rw [hcalls] at hm'
        rw [hm']
        refine ⟨hne, rfl, ?_, ?_, rfl⟩
        · simp [reserved]
        · simp [reserved]
      | inl hzero =>
        right
        have hcalls := reserved_calls info { m.device with info := { info with mode := mode } }
          [.vmaAlloc (frameBufferBytes info) (vmaAlloc m.heap (frameBufferBytes info)).2]
        simp only [if_pos hzero] at hm'
        simp only at hcalls
        rw [hcalls] at hm'
        rw [hm']
        refine ⟨hzero, rfl, rfl, ?_⟩
        simp only [reserved_vmaAlloc]
        split <;> simp

/-! ### Runs -/

/-- Where the allocator stands and where the frame buffer is. -/
structure Inv (m : Machine) : Prop where
  heap : m.heap = bumped m.heap.ptr
  ptr_lt : m.heap.ptr < 0x4000000
  laid : Laid 0xE0000000 m.ranges (0xE0000000 + m.heap.ptr)
  buffer : m.own = none ∧ m.device.frameBuffer = 0 ∧ m.device.frameBufferSize = 0 ∨
    ∃ i r, m.own = some i ∧ m.ranges[i]? = some r ∧ m.device.frameBuffer = r.addr ∧
      m.device.frameBufferSize ≤ r.size

theorem inv_start : Inv start where
  heap := rfl
  ptr_lt := by decide
  laid := rfl
  buffer := .inl ⟨rfl, rfl, rfl⟩

/-- Where the allocator stands. -/
structure Ground (m : Machine) : Prop where
  heap : m.heap = bumped m.heap.ptr
  ptr_lt : m.heap.ptr < 0x4000000
  laid : Laid 0xE0000000 m.ranges (0xE0000000 + m.heap.ptr)

theorem Inv.ground {m : Machine} (h : Inv m) : Ground m := ⟨h.heap, h.ptr_lt, h.laid⟩

/-- What a request that does not wrap the pointer does to the allocator and the regions. -/
theorem Ground.alloc {m : Machine} (h : Ground m) {size v : Nat} {heap : Heap}
    (hcond : heapFull m.heap size ∨ m.heap.ptr + size < m.heap.size)
    (hcall : (heap, v) = vmaAlloc m.heap size) :
    (heapFull m.heap size ∧ heap = m.heap ∧ v = 0) ∨
      (v = 0xE0000000 + m.heap.ptr ∧ heap = bumped heap.ptr ∧ heap.ptr < 0x4000000 ∧
        Laid 0xE0000000 (m.ranges ++ [⟨v, size⟩]) (0xE0000000 + heap.ptr)) := by
  cases Decidable.em (heapFull m.heap size) with
  | inl hfull =>
    left
    rw [vmaAlloc_full hfull, Prod.mk.injEq] at hcall
    exact ⟨hfull, hcall.1, hcall.2⟩
  | inr hroom =>
    right
    have hptr := h.ptr_lt
    have hend : m.heap.ptr + size < 0x4000000 := by
      have hlt := hcond.resolve_left hroom
      rw [h.heap] at hlt
      exact hlt
    have hlaid := h.laid.append size
    rw [h.heap] at hroom hcall
    rw [vmaAlloc_bumped hptr hroom, Nat.mod_eq_of_lt (show m.heap.ptr + size < 2 ^ 32 by omega),
      Prod.mk.injEq] at hcall
    obtain ⟨hheap, hv⟩ := hcall
    refine ⟨hv, ?_, ?_, ?_⟩
    · rw [hheap]
      rfl
    · rw [hheap]
      exact hend
    · rw [hheap, hv, show 0xE0000000 + (bumped (m.heap.ptr + size)).ptr =
        0xE0000000 + m.heap.ptr + size from (Nat.add_assoc _ _ _).symm]
      exact hlaid

theorem getElem?_extended {rs : List Range} {i : Nat} {r : Range} (h : rs[i]? = some r)
    (qs : List Range) : (rs ++ qs)[i]? = some r := by
  obtain ⟨hlt, _⟩ := List.getElem?_eq_some_iff.1 h
  rw [List.getElem?_append_left hlt]
  exact h

theorem Ground.congr {m m' : Machine} (h : Ground m) (hheap : m'.heap = m.heap)
    (hranges : m'.ranges = m.ranges) : Ground m' := by
  refine ⟨?_, ?_, ?_⟩
  · rw [hheap]
    exact h.heap
  · rw [hheap]
    exact h.ptr_lt
  · rw [hheap, hranges]
    exact h.laid

theorem Ground.reserve {m m' : Machine} (h : Ground m) {size v : Nat}
    (hcond : heapFull m.heap size ∨ m.heap.ptr + size < m.heap.size)
    (hcall : (m'.heap, v) = vmaAlloc m.heap size)
    (hranges : m'.ranges = m.ranges ++ reserved [.vmaAlloc size v]) : Ground m' := by
  rw [reserved_vmaAlloc] at hranges
  cases h.alloc hcond hcall with
  | inl hfull =>
    obtain ⟨_, hheap, hv⟩ := hfull
    rw [if_pos hv, List.append_nil] at hranges
    exact h.congr hheap hranges
  | inr hroom =>
    obtain ⟨hv, hheap, hptr, hlaid⟩ := hroom
    have hne : v ≠ 0 := by omega
    rw [if_neg hne] at hranges
    rw [← hranges] at hlaid
    exact ⟨hheap, hptr, hlaid⟩

/-- The frame buffer of a mode does not wrap the pointer. -/
theorem Ground.unwrapped {m : Machine} (h : Ground m) {mode : Nat} {info : Modeinfo}
    (hinfo : bgaGetModeinfo mode = some info) :
    heapFull m.heap (frameBufferBytes info) ∨ m.heap.ptr + frameBufferBytes info < m.heap.size := by
  have hbytes := frameBufferBytes_le hinfo
  have hptr := h.ptr_lt
  rw [h.heap, heapFull_bumped]
  show _ ∨ m.heap.ptr + frameBufferBytes info < 0x4000000
  omega

theorem Ground.step_vmaAlloc {m : Machine} (h : Ground m) {size : Nat}
    (hcond : heapFull m.heap size ∨ m.heap.ptr + size < m.heap.size) :
    Ground (step m (.vmaAlloc size)) :=
  h.reserve hcond rfl rfl

theorem Inv.step_vmaAlloc {m : Machine} (h : Inv m) {size : Nat} (hcond : Cond m (.vmaAlloc size)) :
    Inv (step m (.vmaAlloc size)) := by
  obtain ⟨hheap, hptr, hlaid⟩ := h.ground.step_vmaAlloc hcond
  refine ⟨hheap, hptr, hlaid, h.buffer.imp_right ?_⟩
  intro howner
  obtain ⟨i, r, hown, hr, haddr, hsize⟩ := howner
  exact ⟨i, r, hown, getElem?_extended hr _, haddr, hsize⟩

theorem Inv.step_setMode {m : Machine} (h : Inv m) {mode : Nat} {bar : Option (Nat × Nat)}
    {mapped : Bool} (hcond : Cond m (.setMode mode bar mapped)) :
    Inv (step m (.setMode mode bar mapped)) := by
  rcases Bga.step_setMode m mode bar mapped with hearly | hreached
  · obtain ⟨_, hheap, hranges, hown, haddr, hsize⟩ := hearly
    obtain ⟨hheap, hptr, hlaid⟩ := h.ground.congr hheap hranges
    refine ⟨hheap, hptr, hlaid, ?_⟩
    rw [hown, haddr, hsize, hranges]
    exact h.buffer
  · obtain ⟨info, region, hinfo, hbar, hsize, hcase⟩ := hreached
    have hfits := hcond info region hinfo hbar
    rw [← hsize] at hfits
    cases hcase with
    | inl hsame =>
      obtain ⟨hne, hheap, hranges, hown, haddr⟩ := hsame
      rw [if_neg hne] at hfits
      obtain ⟨hheap, hptr, hlaid⟩ := h.ground.congr hheap hranges
      refine ⟨hheap, hptr, hlaid, ?_⟩
      rw [hown, haddr, hranges]
      right
      obtain ⟨i, r, hi, hr, hbase, _⟩ := h.buffer.resolve_left fun hnone => hne hnone.2.1
      refine ⟨i, r, hi, hr, hbase, ?_⟩
      cases hfits with
      | inl hzero => omega
      | inr hregion =>
        obtain ⟨j, q, hj, hq, hle⟩ := hregion
        have hij : i = j := Option.some.inj (hi.symm.trans hj)
        rw [← hij] at hq
        have hrq : r = q := Option.some.inj (hr.symm.trans hq)
        rw [hrq]
        exact hle
    | inr hfirst =>
      obtain ⟨hzero, hcall, hranges, hown⟩ := hfirst
      rw [if_pos hzero] at hfits
      obtain ⟨hheap, hptr, hlaid⟩ := h.ground.reserve (h.ground.unwrapped hinfo) hcall hranges
      have hnone : m.own = none := by
        cases h.buffer with
        | inl hnone => exact hnone.1
        | inr howner =>
          obtain ⟨i, r, _, hr, hbase, _⟩ := howner
          have hmem := h.laid.start_le.2 r (List.mem_of_getElem? hr)
          omega
      refine ⟨hheap, hptr, hlaid, ?_⟩
      cases h.ground.alloc (h.ground.unwrapped hinfo) hcall with
      | inl hfull =>
        obtain ⟨hfull, _, hv⟩ := hfull
        rw [hv, if_pos rfl] at hown
        left
        rw [hown]
        exact ⟨hnone, hv, hfits.resolve_right fun hroom => hroom hfull⟩
      | inr hroom =>
        obtain ⟨hv, _⟩ := hroom
        have hne : (step m (.setMode mode bar mapped)).device.frameBuffer ≠ 0 := by omega
        rw [reserved_vmaAlloc, if_neg hne] at hranges
        rw [if_neg hne] at hown
        right
        refine ⟨_, ⟨_, frameBufferBytes info⟩, hown, ?_, rfl, ?_⟩
        · rw [hranges, List.getElem?_append_right (Nat.le_refl _), Nat.sub_self]
          rfl
        · rw [hsize]
          exact Nat.min_le_right _ _

theorem inv_step {m m' : Machine} {op : Op} (h : Inv m) (hstep : Guarded Step Cond m op m') :
    Inv m' := by
  obtain ⟨hcond, hstep⟩ := hstep
  unfold Step at hstep
  subst hstep
  cases op with
  | setMode mode bar mapped => exact h.step_setMode hcond
  | vmaAlloc size => exact h.step_vmaAlloc hcond

theorem Inv.contained {m : Machine} (h : Inv m) : Contained m := by
  cases h.buffer with
  | inl hnone => exact .inl hnone.2.2
  | inr howner =>
    obtain ⟨i, r, hown, hr, haddr, hsize⟩ := howner
    exact .inr ⟨i, r, hown, hr, by omega, by omega⟩

theorem Inv.alone {m : Machine} (h : Inv m) : Alone m := by
  intro j q hq hother a hlow hhigh
  cases h.buffer with
  | inl hnone =>
    obtain ⟨_, _, hsize⟩ := hnone
    omega
  | inr howner =>
    obtain ⟨i, r, hown, hr, haddr, hsize⟩ := howner
    have hne : i ≠ j := by
      intro heq
      rw [heq] at hown
      exact hother hown
    have hapart := h.laid.apart hr hq hne
    omega

/-- The condition is exact: a mode change that does not meet it leaves its region. -/
theorem Inv.contained_iff {m : Machine} (h : Inv m) {mode : Nat} {bar : Option (Nat × Nat)}
    {mapped : Bool} :
    Contained (step m (.setMode mode bar mapped)) ↔ Cond m (.setMode mode bar mapped) := by
  constructor
  · intro hin info region hinfo hbar
    rcases Bga.step_setMode m mode bar mapped with hearly | hreached
    · obtain ⟨hnone, _⟩ := hearly
      rw [hinfo, hbar] at hnone
      simp at hnone
    · obtain ⟨info', region', hinfo', hbar', hsize, hcase⟩ := hreached
      have hsameInfo : info' = info := Option.some.inj (hinfo'.symm.trans hinfo)
      have hsameRegion : region' = region := Option.some.inj (hbar'.symm.trans hbar)
      rw [hsameInfo] at hsize hcase
      rw [hsameRegion] at hsize
      rw [← hsize]
      refine hin.imp_right ?_
      intro hregion
      obtain ⟨i, r, hown', hr, hlow, hhigh⟩ := hregion
      cases hcase with
      | inl hsame =>
        obtain ⟨hne, _, hranges, hown, haddr⟩ := hsame
        rw [if_neg hne]
        rw [hown] at hown'
        rw [hranges] at hr
        rw [haddr] at hlow hhigh
        obtain ⟨j, q, hj, hq, hbase, _⟩ := h.buffer.resolve_left fun hnone => hne hnone.2.1
        have hij : j = i := Option.some.inj (hj.symm.trans hown')
        rw [hij] at hq
        have hqr : q = r := Option.some.inj (hq.symm.trans hr)
        rw [hqr] at hbase
        exact ⟨i, r, hown', hr, by omega⟩
      | inr hfirst =>
        obtain ⟨hzero, hcall, _, hown⟩ := hfirst
        rw [if_pos hzero]
        intro hfull
        rw [vmaAlloc_full hfull, Prod.mk.injEq] at hcall
        rw [if_pos hcall.2, hown'] at hown
        have hnone := h.buffer.resolve_right fun howner => by
          obtain ⟨j, q, _, hq, hbase, _⟩ := howner
          have := h.laid.start_le.2 q (List.mem_of_getElem? hq)
          omega
        rw [← hown] at hnone
        exact absurd hnone.1 (by simp)
  · intro hcond
    exact (h.step_setMode hcond).contained

theorem frame_buffer_contained {ops : List Op} {m : Machine}
    (hrun : Run (Guarded Step Cond) start ops m) : Contained m ∧ Alone m := by
  have hinv : Inv m := hrun.invariant Inv (fun _ _ _ => inv_step) inv_start
  exact ⟨hinv.contained, hinv.alone⟩

/-- A frame buffer of 16 MiB. -/
def smallBar : Option (Nat × Nat) := some (0xFD000008, 0x1000000)

def smallerMode : List Op := [.setMode 2 smallBar true, .vmaAlloc 4096, .setMode 0 smallBar true]

/-- The state some operations lead to. -/
def after (ops : List Op) : Machine := ops.foldl step start

theorem frame_buffer_contained_smaller :
    Contained (after smallerMode) ∧ Alone (after smallerMode) := by
  have hfirst : Cond start (.setMode 2 smallBar true) := by
    intro info region hinfo _
    right
    rw [if_pos (show start.device.frameBuffer = 0 from rfl)]
    rw [← Option.some.inj hinfo]
    decide
  have hother : Cond (after [.setMode 2 smallBar true]) (.vmaAlloc 4096) := by
    right
    decide
  have hsecond : Cond (after [.setMode 2 smallBar true, .vmaAlloc 4096])
      (.setMode 0 smallBar true) := by
    intro info region hinfo hbar
    right
    rw [if_neg (by decide)]
    refine ⟨0, ⟨0xE0000000, 12582912⟩, rfl, rfl, ?_⟩
    rw [← Option.some.inj hinfo]
    exact Nat.le_trans (Nat.min_le_right _ _) (by decide)
  have hrun : Run (Guarded Step Cond) start smallerMode (after smallerMode) :=
    .cons ⟨hfirst, rfl⟩ (.cons ⟨hother, rfl⟩ (.cons ⟨hsecond, rfl⟩ (.nil _)))
  exact frame_buffer_contained hrun

def largerMode : List Op := [.setMode 0 smallBar true, .vmaAlloc 4096, .setMode 2 smallBar true]

theorem frame_buffer_over_region : Run Step start largerMode (after largerMode) ∧
    ¬ Contained (after largerMode) ∧ ¬ Alone (after largerMode) := by
  refine ⟨.cons rfl (.cons rfl (.cons rfl (.nil _))), ?_, ?_⟩
  · intro hin
    cases hin with
    | inl hzero => exact absurd hzero (by decide)
    | inr hregion =>
      obtain ⟨i, r, hown, hr, _, hhigh⟩ := hregion
      have hi : 0 = i := Option.some.inj hown
      rw [← hi] at hr
      have hrange : (⟨0xE0000000, 4915200⟩ : Range) = r := Option.some.inj hr
      rw [← hrange] at hhigh
      exact absurd hhigh (by decide)
  · intro halone
    have hother := halone 1 ⟨0xE04B0000, 4096⟩ rfl (by decide) 0xE04B0000 (by decide) (by decide)
    exact hother (by decide)

end OsdevCourse.Bga
