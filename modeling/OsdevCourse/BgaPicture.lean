import OsdevCourse.BgaDisplay

/-!
# Clearing the screen

`bga_clear_screen` paints a picture over the frame buffer, row by row with one pointer. A mode may
have a frame buffer that reaches over the end of the region that was reserved for an earlier one;
the picture does not, since the size that is reserved counts the bytes of a pixel twice.
-/

namespace OsdevCourse.Bga

set_option autoImplicit false

open Kmalloc (heapFull)
open VmaAlloc

/-- The color of a pixel. -/
def rgba (info : Modeinfo) (x y : Nat) : Nat :=
  let R := (info.width * info.width + info.height * info.height) % 2 ^ 32
  let r := 255 * x % 2 ^ 32 / info.width
  let g := 255 * y % 2 ^ 32 / info.height
  let b := 255 * (x * x + y * y) % 2 ^ 32 / R
  0xFF000000 ||| r <<< 16 ||| g <<< 8 ||| b

/-- The loop over `x`, with so many turns to go: the stores, and where the pointer is after them. -/
def clearRow (info : Modeinfo) (y : Nat) : Nat → Nat → Nat → List (Nat × Nat) × Nat
  | 0, _, p => ([], p)
  | n + 1, x, p =>
    let (stores, q) := clearRow info y n (x + 1) ((p + 4) % 2 ^ 32)
    ((p, rgba info x y) :: stores, q)

/-- The loop over `y`. -/
def clearRows (info : Modeinfo) : Nat → Nat → Nat → List (Nat × Nat)
  | 0, _, _ => []
  | n + 1, y, p =>
    let (stores, q) := clearRow info y info.width 0 p
    stores ++ clearRows info n (y + 1) q

/-- `bga_clear_screen`, with the words that it stores, in their order. -/
def bgaClearScreen (device : Device) : Bool × List (Nat × Nat) :=
  (true, clearRows device.info device.info.height 0 device.frameBuffer)

/-! ### The picture -/

/-- Red grows to the right, green downwards, and blue away from the corner. -/
def color (info : Modeinfo) (x y : Nat) : Nat :=
  0xFF000000 + 255 * x / info.width * 2 ^ 16 + 255 * y / info.height * 2 ^ 8 +
    255 * (x * x + y * y) / (info.width * info.width + info.height * info.height)

/-- A pixel for each place of the picture, row after row. -/
def picture (info : Modeinfo) (p : Nat) : List (Nat × Nat) :=
  (List.range info.height).flatMap fun y =>
    (List.range info.width).map fun x => (p + 4 * (info.width * y + x), color info x y)

section Loops
variable {info : Modeinfo} {n p x y : Nat}

theorem clearRow_eq (hroom : p + 4 * n < 2 ^ 32) : clearRow info y n x p =
    ((List.range n).map fun i => (p + 4 * i, rgba info (x + i) y), p + 4 * n) := by
  induction n generalizing x p with
  | zero => rfl
  | succ n ih =>
    have hnext : (p + 4) % 2 ^ 32 = p + 4 := Nat.mod_eq_of_lt (by omega)
    have hplace : ∀ i, p + 4 + 4 * i = p + 4 * (i + 1) := by intro i; omega
    have hturn : ∀ i, x + 1 + i = x + (i + 1) := by intro i; omega
    simp only [clearRow, hnext]
    rw [ih (by omega), List.range_succ_eq_map, List.map_cons, List.map_map]
    simp only [hplace, hturn, Function.comp_def, Nat.succ_eq_add_one, Nat.mul_zero, Nat.add_zero]

theorem clearRows_eq (hroom : p + 4 * (info.width * n) < 2 ^ 32) : clearRows info n y p =
    (List.range n).flatMap fun j =>
      (List.range info.width).map fun i => (p + 4 * (info.width * j + i), rgba info i (y + j)) := by
  induction n generalizing y p with
  | zero => rfl
  | succ n ih =>
    rw [Nat.mul_succ] at hroom
    have hplace : ∀ j i, p + 4 * info.width + 4 * (info.width * j + i) =
        p + 4 * (info.width * (j + 1) + i) := by
      intro j i
      rw [Nat.mul_succ]
      omega
    have hturn : ∀ j, y + 1 + j = y + (j + 1) := by intro j; omega
    rw [clearRows, clearRow_eq (by omega)]
    simp only
    rw [ih (by omega), List.range_succ_eq_map, List.flatMap_cons, List.flatMap_map]
    simp only [hplace, hturn, Nat.succ_eq_add_one, Nat.mul_zero, Nat.zero_add, Nat.add_zero]

end Loops

/-- The modes of the driver, and what the device has before the first one. -/
def Known (info : Modeinfo) : Prop :=
  info = ⟨0, 0, 0, 0, 0⟩ ∨
    ∃ mode info', bgaGetModeinfo mode = some info' ∧ info = { info' with mode := mode }

section Modes
variable {info : Modeinfo} {x y : Nat}

theorem modeinfo_sizes {mode : Nat} (h : bgaGetModeinfo mode = some info) :
    info.width * info.height ≤ 1024 * 768 ∧ 640 * 4 * 480 * 4 ≤ frameBufferBytes info ∧
      info.width ≤ 1024 ∧ info.height ≤ 768 := by
  have hmem := mem_bgaAllowedMode h
  unfold bgaAllowedMode at hmem
  simp only [List.mem_cons, List.not_mem_nil, or_false] at hmem
  rcases hmem with heq | heq | heq <;> rw [heq] <;> decide

theorem Known.sizes (h : Known info) :
    info.width * info.height ≤ 1024 * 768 ∧ info.width ≤ 1024 ∧ info.height ≤ 768 := by
  rcases h with rfl | ⟨mode, info', hinfo, rfl⟩
  · decide
  · obtain ⟨harea, _, hwidth, hheight⟩ := modeinfo_sizes hinfo
    exact ⟨harea, hwidth, hheight⟩

theorem channels_lt (hx : x < info.width) (hy : y < info.height) :
    255 * x / info.width < 256 ∧ 255 * y / info.height < 256 ∧
      255 * (x * x + y * y) / (info.width * info.width + info.height * info.height) < 256 := by
  have hxx : x * x ≤ info.width * info.width := Nat.mul_le_mul (Nat.le_of_lt hx) (Nat.le_of_lt hx)
  have hyy : y * y < info.height * info.height := Nat.mul_lt_mul'' hy hy
  exact ⟨Nat.div_lt_of_lt_mul (by omega), Nat.div_lt_of_lt_mul (by omega),
    Nat.div_lt_of_lt_mul (by omega)⟩

theorem rgba_eq (hw : info.width ≤ 1024) (hh : info.height ≤ 768) (hx : x < info.width)
    (hy : y < info.height) : rgba info x y = color info x y := by
  have hxx : x * x ≤ info.width * info.width := Nat.mul_le_mul (Nat.le_of_lt hx) (Nat.le_of_lt hx)
  have hyy : y * y < info.height * info.height := Nat.mul_lt_mul'' hy hy
  have hww : info.width * info.width ≤ 1024 * 1024 := Nat.mul_le_mul hw hw
  have hhh : info.height * info.height ≤ 768 * 768 := Nat.mul_le_mul hh hh
  obtain ⟨hr, hg, hb⟩ := channels_lt hx hy
  unfold rgba color
  simp only
  rw [Nat.mod_eq_of_lt (a := info.width * info.width + info.height * info.height) (by omega),
    Nat.mod_eq_of_lt (a := 255 * x) (by omega), Nat.mod_eq_of_lt (a := 255 * y) (by omega),
    Nat.mod_eq_of_lt (a := 255 * (x * x + y * y)) (by omega)]
  generalize 255 * x / info.width = r at hr
  generalize 255 * y / info.height = g at hg
  generalize 255 * (x * x + y * y) / (info.width * info.width + info.height * info.height) = b at hb
  rw [Nat.shiftLeft_eq, Nat.shiftLeft_eq]
  have hred : 0xFF000000 ||| r * 2 ^ 16 = 2 ^ 16 * (0xFF00 + r) := by
    rw [show 0xFF000000 = 2 ^ 24 * 0xFF from rfl, ← Nat.two_pow_add_eq_or_of_lt (by omega)]
    omega
  have hgreen : 2 ^ 16 * (0xFF00 + r) ||| g * 2 ^ 8 = 2 ^ 8 * (0xFF0000 + 256 * r + g) := by
    rw [← Nat.two_pow_add_eq_or_of_lt (by omega)]
    omega
  rw [hred, hgreen, ← Nat.two_pow_add_eq_or_of_lt (by omega)]
  omega

theorem mem_picture {p : Nat} {s : Nat × Nat} : s ∈ picture info p ↔
    ∃ y < info.height, ∃ x < info.width,
    s = (p + 4 * (info.width * y + x), color info x y) := by
  unfold picture
  simp only [List.mem_flatMap, List.mem_map, List.mem_range, eq_comm]

theorem pixel_lt (hx : x < info.width) (hy : y < info.height) :
    info.width * y + x < info.width * info.height := by
  have hrow : info.width * (y + 1) ≤ info.width * info.height := Nat.mul_le_mul_left _ hy
  rw [Nat.mul_succ] at hrow
  omega

theorem bgaClearScreen_eq {device : Device} (h : Known device.info)
    (hroom : device.frameBuffer + 4 * (device.info.width * device.info.height) < 2 ^ 32) :
    bgaClearScreen device = (true, picture device.info device.frameBuffer) := by
  obtain ⟨_, hw, hh⟩ := h.sizes
  unfold bgaClearScreen
  rw [clearRows_eq hroom]
  unfold picture
  congr 1
  apply List.flatMap_congr
  intro y hy
  apply List.map_congr_left
  intro x hx
  rw [Nat.zero_add, rgba_eq hw hh (List.mem_range.mp hx) (List.mem_range.mp hy)]

/-- The picture fits exactly when its area does. -/
theorem picture_fits {p size : Nat} : (∀ s ∈ picture info p, s.1 + 4 ≤ p + size) ↔
    4 * (info.width * info.height) ≤ size := by
  constructor
  · intro hall
    rcases Nat.eq_zero_or_pos (info.width * info.height) with hzero | hpos
    · omega
    · -- the last pixel
      have hwidth := Nat.pos_of_mul_pos_right hpos
      have hheight := Nat.pos_of_mul_pos_left hpos
      have hlast :=
        hall _ (mem_picture.mpr ⟨info.height - 1, by omega, info.width - 1, by omega, rfl⟩)
      have harea : info.width * (info.height - 1) + info.width = info.width * info.height := by
        rw [← Nat.mul_succ]
        congr 1
        omega
      simp only at hlast
      omega
  · intro hle s hs
    obtain ⟨y, hy, x, hx, rfl⟩ := mem_picture.mp hs
    have hin := pixel_lt hx hy
    simp only
    omega

end Modes

/-! ### Runs -/

/-- Where the allocator stands, and a region for the frame buffer that holds the picture of any
mode. -/
structure Roomy (m : Machine) : Prop where
  ground : Ground m
  known : Known m.device.info
  buffer : m.device.frameBuffer = 0 ∨
    ∃ i r, m.own = some i ∧ m.ranges[i]? = some r ∧ m.device.frameBuffer = r.addr ∧
      4 * (1024 * 768) ≤ r.size

/-- No request wraps the pointer of the heap. -/
def Unwrapped (m : Machine) : Op → Prop
  | .setMode _ _ _ => True
  | .vmaAlloc size => heapFull m.heap size ∨ m.heap.ptr + size < m.heap.size

theorem roomy_start : Roomy start := ⟨inv_start.ground, .inl rfl, .inl rfl⟩

theorem Roomy.step_vmaAlloc {m : Machine} (h : Roomy m) {size : Nat}
    (hunwrapped : Unwrapped m (.vmaAlloc size)) : Roomy (step m (.vmaAlloc size)) := by
  refine ⟨h.ground.step_vmaAlloc hunwrapped, h.known, h.buffer.imp_right ?_⟩
  rintro ⟨i, r, hown, hr, haddr, hsize⟩
  exact ⟨i, r, hown, getElem?_extended hr _, haddr, hsize⟩

theorem known_setMode {m : Machine} (h : Known m.device.info) (mode : Nat)
    (bar : Option (Nat × Nat))
    (mapped : Bool) : Known (step m (.setMode mode bar mapped)).device.info := by
  simp only [step]
  cases hinfo : bgaGetModeinfo mode with
  | none =>
    rw [bgaSetMode_unknown hinfo]
    exact h
  | some info =>
    unfold bgaSetMode
    simp only [hinfo]
    cases bar with
    | none => exact .inr ⟨mode, info, hinfo, rfl⟩
    | some region => exact .inr ⟨mode, info, hinfo, rfl⟩

theorem Roomy.step_setMode {m : Machine} (h : Roomy m) (mode : Nat) (bar : Option (Nat × Nat))
    (mapped : Bool) :
    Roomy (step m (.setMode mode bar mapped)) := by
  have hknown := known_setMode h.known mode bar mapped
  rcases Bga.step_setMode m mode bar mapped with hearly | hreached
  · obtain ⟨_, hheap, hranges, hown, haddr, _⟩ := hearly
    refine ⟨h.ground.congr hheap hranges, hknown, ?_⟩
    rw [hown, haddr, hranges]
    exact h.buffer
  · obtain ⟨info, region, hinfo, _, _, hcase⟩ := hreached
    rcases hcase with hsame | hfirst
    · obtain ⟨_, hheap, hranges, hown, haddr⟩ := hsame
      refine ⟨h.ground.congr hheap hranges, hknown, ?_⟩
      rw [hown, haddr, hranges]
      exact h.buffer
    · obtain ⟨_, hcall, hranges, hown⟩ := hfirst
      refine ⟨h.ground.reserve (h.ground.unwrapped hinfo) hcall hranges, hknown, ?_⟩
      by_cases hv : (step m (.setMode mode bar mapped)).device.frameBuffer = 0
      · exact .inl hv
      · right
        rw [if_neg hv] at hown
        rw [reserved_vmaAlloc, if_neg hv] at hranges
        refine ⟨_, ⟨_, frameBufferBytes info⟩, hown, ?_, rfl, ?_⟩
        · rw [hranges, List.getElem?_append_right (Nat.le_refl _), Nat.sub_self]
          rfl
        · have hbytes := (modeinfo_sizes hinfo).2.1
          exact Nat.le_trans (by decide) hbytes

theorem Roomy.step {m m' : Machine} {op : Op} (h : Roomy m)
    (hstep : Guarded Step Unwrapped m op m') : Roomy m' := by
  obtain ⟨hunwrapped, hstep⟩ := hstep
  unfold Step at hstep
  subst hstep
  cases op with
  | setMode mode bar mapped => exact h.step_setMode mode bar mapped
  | vmaAlloc size => exact h.step_vmaAlloc hunwrapped

/-- Whatever modes have been set, the picture stays in the region of the frame buffer and out of all
others; it stays in the part that is mapped where that part is as large as the picture. -/
theorem picture_stays_in_region {ops : List Op} {m : Machine}
    (hrun : Run (Guarded Step Unwrapped) start ops m)
    (hbuffer : m.device.frameBuffer ≠ 0) :
    let info := m.device.info
    bgaClearScreen m.device = (true, picture info m.device.frameBuffer) ∧
    (∃ i r, m.own = some i ∧ m.ranges[i]? = some r ∧ ∀ s ∈ picture info m.device.frameBuffer,
      (r.addr ≤ s.1 ∧ s.1 + 4 ≤ r.addr + r.size) ∧
      ∀ j q, m.ranges[j]? = some q → i ≠ j → s.1 + 4 ≤ q.addr ∨ q.addr + q.size ≤ s.1) ∧
    ((∀ s ∈ picture info m.device.frameBuffer,
        s.1 + 4 ≤ m.device.frameBuffer + m.device.frameBufferSize) ↔
      4 * (info.width * info.height) ≤ m.device.frameBufferSize) := by
  intro info
  have hroomy := hrun.invariant Roomy (fun _ _ _ h hstep => h.step hstep) roomy_start
  obtain ⟨i, r, hown, hr, haddr, hsize⟩ := hroomy.buffer.resolve_left hbuffer
  obtain ⟨harea, _, _⟩ := hroomy.known.sizes
  have hlaid := hroomy.ground.laid
  have hstop := hlaid.stop_le r (List.mem_of_getElem? hr)
  have hptr := hroomy.ground.ptr_lt
  refine ⟨bgaClearScreen_eq hroomy.known (by omega), ⟨i, r, hown, hr, fun s hs => ?_⟩, picture_fits⟩
  obtain ⟨y, hy, x, hx, rfl⟩ := mem_picture.mp hs
  have hin := pixel_lt hx hy
  have harea' : info.width * info.height ≤ 1024 * 768 := harea
  have hplace : r.addr ≤ m.device.frameBuffer + 4 * (info.width * y + x) ∧
      m.device.frameBuffer + 4 * (info.width * y + x) + 4 ≤ r.addr + r.size := by omega
  refine ⟨hplace, fun j q hq hne => ?_⟩
  have hapart := hlaid.apart hr hq hne
  simp only
  omega

/-- The frame buffer of the second mode is larger than the region, and its picture is not. -/
theorem picture_stays_in_region_larger : ∃ m : Machine,
    m.ranges.map Range.size = [640 * 4 * 480 * 4] ∧ m.device.frameBufferSize = 1024 * 4 * 768 * 4 ∧
    ∃ r ∈ m.ranges, (bgaClearScreen m.device).2.all
      (fun s => decide (r.addr ≤ s.1 ∧ s.1 + 4 ≤ r.addr + r.size)) = true := by
  have hrun : Run (Guarded Step Unwrapped) start
    [.setMode 0 smallBar true, .setMode 2 smallBar true]
      (after [.setMode 0 smallBar true, .setMode 2 smallBar true]) :=
    .cons ⟨trivial, rfl⟩ (.single ⟨trivial, rfl⟩)
  obtain ⟨hclear, ⟨i, r, _, hr, hstay⟩, _⟩ := picture_stays_in_region hrun (by decide)
  have hall :
    ∀ s ∈ (bgaClearScreen (after [.setMode 0 smallBar true, .setMode 2 smallBar true]).device).2,
      decide (r.addr ≤ s.1 ∧ s.1 + 4 ≤ r.addr + r.size) = true := by
    rw [hclear]
    generalize picture _ _ = stores at hstay ⊢
    exact fun s hs => decide_eq_true (hstay s hs).1
  exact ⟨_, rfl, rfl, r, List.mem_of_getElem? hr, List.all_eq_true.mpr hall⟩

end OsdevCourse.Bga
