import OsdevCourse.MmuFrames

/-!
# The frame pool is exactly the usable RAM

`mmu_init` returns on every memory map whose RAM regions do not overlap, and what is then in
the pool or behind its array is every whole frame of a RAM region from the end of the image
on, once.
-/

namespace OsdevCourse.Mmu

set_option autoImplicit false

open PageEntry

/-- The bytes of a region. -/
def Region.Covers (r : Region) (a : Nat) : Prop := r.addr ≤ a ∧ a < r.addr + r.len

/-- No sum over the region wraps. -/
def Region.Bounded (r : Region) : Prop := r.addr + r.len + 4095 < 2 ^ 64

/-- The RAM regions of a memory map. -/
def ramRegions (map : List Region) : List Region := map.filter fun r => r.type = 1

/-- The frame lies in the region as a whole. -/
def Region.Contains (r : Region) (f : Word) : Prop :=
  r.addr ≤ f.toNat ∧ f.toNat + 4096 ≤ r.addr + r.len

section Frames
variable {k : Kernel} {r q : Region} {map : List Region} {f : Word} {n start : Nat}

theorem mem_usableFrom : f ∈ usableFrom k n start ↔
    ∃ i < n, Usable k (start + 4096 * i) ∧ f = BitVec.ofNat 32 (start + 4096 * i) := by
  induction n generalizing start with
  | zero => simp [usableFrom]
  | succ n ih =>
    have hrest : f ∈ usableFrom k n (start + 4096) ↔ ∃ i, i + 1 < n + 1 ∧
        Usable k (start + 4096 * (i + 1)) ∧ f = BitVec.ofNat 32 (start + 4096 * (i + 1)) := by
      have hturn : ∀ i, start + 4096 + 4096 * i = start + 4096 * (i + 1) := fun i => by omega
      simp only [ih, hturn, Nat.succ_lt_succ_iff]
    have hsplit : (∃ i < n + 1, Usable k (start + 4096 * i) ∧
      f = BitVec.ofNat 32 (start + 4096 * i)) ↔
        (Usable k start ∧ f = BitVec.ofNat 32 start) ∨ f ∈ usableFrom k n (start + 4096) := by
      rw [hrest]
      constructor
      · rintro ⟨i, hi, h⟩
        cases i with
        | zero => exact Or.inl h
        | succ i => exact Or.inr ⟨i, hi, h⟩
      · rintro (h | ⟨i, hi, h⟩)
        · exact ⟨0, Nat.succ_pos n, h⟩
        · exact ⟨i + 1, hi, h⟩
    rw [hsplit, usableFrom]
    by_cases husable : Usable k start
    · rw [if_pos husable, List.mem_cons, and_iff_right husable]
    · rw [if_neg husable]
      exact ⟨Or.inr, fun h => h.resolve_left fun hand => husable hand.1⟩

theorem usableFrom_nodup : (usableFrom k n start).Nodup := by
  induction n generalizing start with
  | zero => exact List.nodup_nil
  | succ n ih =>
    rw [usableFrom]
    by_cases husable : Usable k start
    · rw [if_pos husable]
      refine List.nodup_cons.mpr ⟨?_, ih⟩
      intro hmem
      obtain ⟨i, _, hlater, heq⟩ := mem_usableFrom.mp hmem
      have hvalue := congrArg BitVec.toNat heq
      rw [BitVec.toNat_ofNat, BitVec.toNat_ofNat, Nat.mod_eq_of_lt husable.2,
        Nat.mod_eq_of_lt hlater.2] at hvalue
      omega
    · rw [if_neg husable]
      exact ih

theorem mem_usableFrom_region (hbounded : r.Bounded) :
    f ∈ usableFrom k ((r.stop - r.start) / 4096) r.start ↔ PoolFrame k f ∧ r.Contains f := by
  unfold Region.Bounded at hbounded
  have hstart : r.start = (r.addr + 4095) / 4096 * 4096 := by
    unfold Region.start
    rw [Nat.mod_eq_of_lt (by omega)]
  have hstop : r.stop = (r.addr + r.len) / 4096 * 4096 := by
    unfold Region.stop
    rw [Nat.mod_eq_of_lt (by omega)]
  rw [mem_usableFrom]
  constructor
  · rintro ⟨i, hi, husable, rfl⟩
    have haligned : 4096 ∣ r.start + 4096 * i := by omega
    refine ⟨usable_poolFrame haligned husable, ?_⟩
    unfold Region.Contains
    rw [BitVec.toNat_ofNat, Nat.mod_eq_of_lt husable.2]
    omega
  · rintro ⟨hpool, hlow, hhigh⟩
    have haligned := isFrame_iff.1 hpool.isFrame
    have hlt := f.isLt
    have hturn : r.start + 4096 * ((f.toNat - r.start) / 4096) = f.toNat := by omega
    refine ⟨(f.toNat - r.start) / 4096, by omega, ?_, ?_⟩
    · rw [hturn]
      exact ⟨hpool.aboveImage, hlt⟩
    · rw [hturn, BitVec.ofNat_toNat, BitVec.setWidth_eq]

theorem usableFrames_eq : usableFrames k map =
    (ramRegions map).flatMap fun r => usableFrom k ((r.stop - r.start) / 4096) r.start := by
  induction map with
  | nil => rfl
  | cons r map ih =>
    rw [usableFrames, List.flatMap_cons, ← usableFrames, ih, ramRegions, ramRegions]
    by_cases hram : r.type = 1
    · rw [if_neg (not_not.mpr hram), List.filter_cons_of_pos (by simpa using hram),
        List.flatMap_cons]
    · rw [if_pos hram, List.filter_cons_of_neg (by simpa using hram), List.nil_append]

theorem mem_usableFrames (hbounded : ∀ r ∈ ramRegions map, r.Bounded) :
    f ∈ usableFrames k map ↔ PoolFrame k f ∧ ∃ r ∈ map, r.type = 1 ∧ r.Contains f := by
  rw [usableFrames_eq, List.mem_flatMap]
  constructor
  · rintro ⟨r, hr, hf⟩
    obtain ⟨hpool, hin⟩ := (mem_usableFrom_region (hbounded r hr)).mp hf
    obtain ⟨hmem, hram⟩ := List.mem_filter.mp hr
    exact ⟨hpool, r, hmem, of_decide_eq_true hram, hin⟩
  · rintro ⟨hpool, r, hmem, hram, hin⟩
    have hr : r ∈ ramRegions map := List.mem_filter.mpr ⟨hmem, decide_eq_true hram⟩
    exact ⟨r, hr, (mem_usableFrom_region (hbounded r hr)).mpr ⟨hpool, hin⟩⟩

theorem usableFrames_nodup (hbounded : ∀ r ∈ ramRegions map, r.Bounded)
    (hdisjoint : (ramRegions map).Pairwise fun r q => ∀ a, ¬ (r.Covers a ∧ q.Covers a)) :
    (usableFrames k map).Nodup := by
  rw [usableFrames_eq, List.nodup_flatMap]
  refine ⟨fun _ _ => usableFrom_nodup, hdisjoint.imp_of_mem ?_⟩
  intro r q hr hq hapart f hfr hfq
  obtain ⟨_, hinr⟩ := (mem_usableFrom_region (hbounded r hr)).mp hfr
  obtain ⟨_, hinq⟩ := (mem_usableFrom_region (hbounded q hq)).mp hfq
  unfold Region.Contains at hinr hinq
  apply hapart f.toNat
  unfold Region.Covers
  omega

end Frames

theorem frame_pool_exact {k : Kernel} {ram : Memory} {map : List Region}
    (hbounded : ∀ r ∈ ramRegions map, r.Bounded)
    (hdisjoint : (ramRegions map).Pairwise fun r q => ∀ a, ¬ (r.Covers a ∧ q.Covers a))
    (depth : Nat) :
    ∃ s pages, mmuInit k (pageFault k (depth + 1)) map (bootState k ram) = some s ∧
      (∀ j, present (s.mem k.framepoolPt j) = true ↔ j ≤ pages) ∧
      (contents k pages s).Nodup ∧
      (∀ f, f ∈ contents k pages s ↔
        IsFrame f ∧ k.kend ≤ f.toNat ∧ ∃ r ∈ map, r.type = 1 ∧ r.Contains f) ∧
      ∀ i < s.framesIndex, i / 1024 ≤ pages ∧
        translate s (framesVma i) = some (poolPage k s (i / 1024), i % 1024) := by
  have hnodup := usableFrames_nodup (k := k) hbounded hdisjoint
  obtain ⟨pages, s, hrun, hfilling, _, _⟩ := mmuInit_spec k ram map hnodup depth
  have hframes : ∀ f ∈ usableFrames k map, PoolFrame k f := usableFrames_poolFrame
  refine ⟨s, pages, mmuInit_within (pageFaultFed_within k (depth + 1)) hrun,
    fun j => hfilling.slot_present,
    hfilling.perm.nodup_iff.mpr hnodup, fun f => ?_, fun i hi => ?_⟩
  · rw [hfilling.perm.mem_iff, mem_usableFrames hbounded, ← and_assoc]
    exact and_congr_left fun _ => ⟨fun h => ⟨h.isFrame, h.aboveImage⟩, fun h => ⟨h.1, h.2⟩⟩
  · have hroom := hfilling.framesIndex_lt hframes hnodup
    have hhigh := hfilling.high
    have hslot : i / 1024 ≤ pages := by omega
    exact ⟨hslot, hfilling.translate_slot (by omega) hslot⟩

/-- Two regions of 600 frames with a reserved one between them. -/
def splitMap : List Region :=
  [smallRam 600, ⟨0x35F000, 0x100000, 2⟩, ⟨0x45F000, 4096 * 600, 1⟩]

theorem splitMap_ram : ramRegions splitMap = [smallRam 600, ⟨0x45F000, 4096 * 600, 1⟩] := rfl

/-- The frames of the two regions. -/
def splitFrame (i : Nat) : Word :=
  BitVec.ofNat 32 (0x107000 + 4096 * i + if i < 600 then 0 else 0x100000)

theorem splitFrame_toNat {i : Nat} (hi : i < 1200) :
    (splitFrame i).toNat = 0x107000 + 4096 * i + if i < 600 then 0 else 0x100000 := by
  unfold splitFrame
  rw [BitVec.toNat_ofNat, Nat.mod_eq_of_lt]
  split_ifs <;> omega

theorem splitFrame_nodup : ((List.range 1200).map splitFrame).Nodup := by
  refine List.Nodup.map_on ?_ List.nodup_range
  intro i hi j hj heq
  have hnat := congrArg BitVec.toNat heq
  rw [splitFrame_toNat (List.mem_range.mp hi), splitFrame_toNat (List.mem_range.mp hj)] at hnat
  split_ifs at hnat <;> omega

theorem splitFrame_contained {i : Nat} (hi : i < 1200) : IsFrame (splitFrame i) ∧
    smallKernel.kend ≤ (splitFrame i).toNat ∧
      ∃ r ∈ splitMap, r.type = 1 ∧ r.Contains (splitFrame i) := by
  have hvalue := splitFrame_toNat hi
  have hkend : smallKernel.kend = 0x107000 := rfl
  have hframe : (splitFrame i).toNat % 4096 = 0 := by
    rw [hvalue]
    split_ifs <;> omega
  refine ⟨isFrame_iff.mpr hframe, by omega, ?_⟩
  unfold splitMap Region.Contains
  by_cases hfirst : i < 600
  · rw [if_pos hfirst] at hvalue
    refine ⟨smallRam 600, List.mem_cons_self, rfl, ?_⟩
    rw [hvalue]
    unfold smallRam
    dsimp only
    omega
  · rw [if_neg hfirst] at hvalue
    refine ⟨⟨0x45F000, 4096 * 600, 1⟩, by simp, rfl, ?_⟩
    rw [hvalue]
    dsimp only
    omega

/-- The array of the pool gets a second page, for the slots from the index 1024 on. -/
theorem frame_pool_exact_split :
    ∃ s pages, mmuInit smallKernel (pageFault smallKernel 1) splitMap
        (bootState smallKernel fun _ _ => 0#32) = some s ∧
      (contents smallKernel pages s).Nodup ∧
      (∀ i < 1200, splitFrame i ∈ contents smallKernel pages s) ∧ 0 < pages := by
  have hbounded : ∀ r ∈ ramRegions splitMap, r.Bounded := by
    rw [splitMap_ram]
    intro r hr
    unfold Region.Bounded
    rcases List.mem_pair.mp hr with rfl | rfl
    · unfold smallRam
      dsimp only
      omega
    · dsimp only
      omega
  have hdisjoint : (ramRegions splitMap).Pairwise fun r q => ∀ a, ¬ (r.Covers a ∧ q.Covers a) := by
    rw [splitMap_ram, List.pairwise_pair]
    unfold Region.Covers smallRam
    intro a
    dsimp only
    omega
  obtain ⟨s, pages, hrun, _, hnodup, hexact, hslots⟩ :=
    @frame_pool_exact smallKernel (fun _ _ => 0#32) splitMap hbounded hdisjoint 0
  have hmem : ∀ i < 1200, splitFrame i ∈ contents smallKernel pages s :=
    fun i hi => (hexact _).mpr (splitFrame_contained hi)
  refine ⟨s, pages, hrun, hnodup, hmem, ?_⟩
  -- with one page there were room for 1024 frames only
  have hsub : (List.range 1200).map splitFrame ⊆ contents smallKernel pages s := by
    intro f hf
    obtain ⟨i, hi, rfl⟩ := List.mem_map.mp hf
    exact hmem i (List.mem_range.mp hi)
  have hlength := (List.subperm_of_subset splitFrame_nodup hsub).length_le
  unfold contents at hlength
  rw [List.length_map, List.length_range, List.length_append, List.length_map, List.length_range,
    List.length_map, List.length_range] at hlength
  by_contra hnone
  have hlast := (hslots 1024 (by omega)).1
  omega

end OsdevCourse.Mmu
