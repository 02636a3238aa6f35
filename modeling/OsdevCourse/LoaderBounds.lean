import OsdevCourse.LoaderTurns

/-!
# Where relocations write

An address is looked up with both ends of a segment taken in, and the word at it has four
bytes. The first address behind a segment is translated like one inside, and the word of a
relocation can reach over the end of its segment.
-/

namespace OsdevCourse.Loader

set_option autoImplicit false

open Elf

/-- A segment as `load_program` appends it. -/
structure Segment.Loaded (seg : Segment) : Prop where
  base_eq : seg.base = seg.vaddr
  vaddr_lt : seg.vaddr < 2 ^ 32
  size_eq : ∃ memsz, seg.size = segmentSize memsz

/-- The `n` bytes from the address `v` on belong to the segment. -/
def Segment.Has (seg : Segment) (v n : Nat) : Prop := seg.vaddr ≤ v ∧ v + n ≤ seg.vaddr + seg.size

instance (seg : Segment) (v n : Nat) : Decidable (seg.Has v n) :=
  inferInstanceAs (Decidable (_ ∧ _))

/-- Every word that is patched lies in a segment, and only addresses in a segment are translated. -/
structure StaysInside (buffer : Nat) (s : State) : Prop where
  words : ∀ a, Event.patch a ∈ (relocate buffer s).1.events.drop s.events.length →
    ∃ seg ∈ s.segments, seg.Has a 4
  translated : ∀ v, v < 2 ^ 32 → translateAddr s.segments v ≠ 0 → ∃ seg ∈ s.segments, seg.Has v 1

/-- The end of each segment that ends below `2 ^ 32` belongs to a segment. -/
def EndsCovered (segments : List Segment) : Prop :=
  ∀ seg ∈ segments, seg.vaddr + seg.size < 2 ^ 32 →
    seg.vaddr + seg.size = 0 ∨ ∃ seg' ∈ segments, seg'.Has (seg.vaddr + seg.size) 1

/-- The word at every address that the lookup takes in, 0 apart, lies in one segment. -/
def WordsInside (segments : List Segment) : Prop :=
  ∀ seg ∈ segments, seg.vaddr + seg.size < 2 ^ 32 →
    ∀ v, seg.vaddr ≤ v → v ≤ seg.vaddr + seg.size → v ≠ 0 → ∃ seg' ∈ segments, seg'.Has v 4

section Lookup
variable {segments : List Segment} {seg : Segment} {v : Nat}

theorem contains_iff : contains seg v = true ↔
    seg.vaddr ≤ v ∧ v ≤ (seg.vaddr + seg.size) % 2 ^ 32 := by
  unfold contains
  rw [Bool.and_eq_true, decide_eq_true_eq, decide_eq_true_eq]

theorem segmentSize_lt {memsz : Nat} : segmentSize memsz < 2 ^ 32 := by
  unfold segmentSize
  omega

theorem Segment.Loaded.contains_iff (h : seg.Loaded) : contains seg v = true ↔
    seg.vaddr ≤ v ∧ v ≤ seg.vaddr + seg.size ∧ seg.vaddr + seg.size < 2 ^ 32 := by
  obtain ⟨memsz, hsize⟩ := h.size_eq
  have hlt : segmentSize memsz < 2 ^ 32 := segmentSize_lt
  have hvaddr := h.vaddr_lt
  rw [Loader.contains_iff]
  omega

variable (hloaded : ∀ seg ∈ segments, seg.Loaded)
include hloaded

theorem translateAddr_contains (hseg : seg ∈ segments) (hin : contains seg v = true)
    (hv : v < 2 ^ 32) : translateAddr segments v = v := by
  unfold translateAddr
  cases hfind : segments.find? fun seg => contains seg v with
  | none => exact absurd hin (List.find?_eq_none.mp hfind seg hseg)
  | some seg' =>
    have hloaded' := hloaded seg' (List.mem_of_find?_eq_some hfind)
    have hin' := List.find?_some hfind
    simp only [hloaded'.contains_iff] at hin'
    simp only [hloaded'.base_eq]
    omega

theorem translateAddr_ne_zero_iff (hv : v < 2 ^ 32) : translateAddr segments v ≠ 0 ↔
    v ≠ 0 ∧ ∃ seg ∈ segments, contains seg v = true := by
  constructor
  · intro hne
    obtain ⟨seg, hseg, hin⟩ : ∃ seg ∈ segments, contains seg v = true := by
      by_contra hnone
      apply hne
      unfold translateAddr
      have hfind : (segments.find? fun seg => contains seg v) = none := by
        rw [List.find?_eq_none]
        exact fun seg hseg hin => hnone ⟨seg, hseg, hin⟩
      rw [hfind]
    rw [translateAddr_contains hloaded hseg hin hv] at hne
    exact ⟨hne, seg, hseg, hin⟩
  · rintro ⟨hne, seg, hseg, hin⟩
    rwa [translateAddr_contains hloaded hseg hin hv]

theorem translateAddr_eq_self (hv : v < 2 ^ 32) (hne : translateAddr segments v ≠ 0) :
    translateAddr segments v = v := by
  obtain ⟨_, seg, hseg, hin⟩ := (translateAddr_ne_zero_iff hloaded hv).mp hne
  exact translateAddr_contains hloaded hseg hin hv

/-- Only addresses in segments are translated exactly when the ends of the segments are covered. -/
theorem translated_inside_iff :
    (∀ v, v < 2 ^ 32 → translateAddr segments v ≠ 0 → ∃ seg ∈ segments, seg.Has v 1) ↔
      EndsCovered segments := by
  constructor
  · intro hinside seg hseg hend
    by_cases hzero : seg.vaddr + seg.size = 0
    · exact Or.inl hzero
    · right
      apply hinside _ hend
      rw [translateAddr_ne_zero_iff hloaded hend]
      refine ⟨hzero, seg, hseg, ?_⟩
      rw [(hloaded seg hseg).contains_iff]
      omega
  · intro hends v hv hne
    obtain ⟨hv0, seg, hseg, hin⟩ := (translateAddr_ne_zero_iff hloaded hv).mp hne
    rw [(hloaded seg hseg).contains_iff] at hin
    obtain ⟨hlo, hhi, hlt⟩ := hin
    rcases Nat.lt_or_eq_of_le hhi with hbelow | hend
    · exact ⟨seg, hseg, hlo, hbelow⟩
    · rcases hends seg hseg hlt with hzero | hcovered
      · omega
      · rwa [← hend] at hcovered

end Lookup

/-! ### Small files -/

/-- A section header. -/
def shdrBytes (type offset size link : Nat) : List UInt8 :=
  [0, type, 0, 0, offset, size, link, 0, 0, 0].flatMap Memory.wordBytes

/-- The first bytes of an executable whose section headers are at the offset 52. -/
def sectionedElf (shnum : UInt8) : List UInt8 :=
  [0x7F, 0x45, 0x4C, 0x46, 0, 0, 0, 0, 0, 0, 0, 0, 0, 0, 0, 0, 2, 0, 3, 0] ++
  List.replicate 12 0 ++ [52, 0, 0, 0] ++ List.replicate 10 0 ++ [40, 0, shnum, 0, 0, 0]

/-- The file in the buffer at `0xF2000010`, and one page of zeros at `0x08048000` loaded. -/
def sectionedState (file : List UInt8) : State where
  mem x := if 0xF2000010 ≤ x then file.getD (x - 0xF2000010) 0 else 0
  segments := [{ vaddr := 0x08048000, base := 0x08048000, size := 0x1000 }]
  symbols := []
  entrypoint := 0
  events := []

theorem sectionedState_loaded (file : List UInt8) :
    ∀ seg ∈ (sectionedState file).segments, seg.Loaded := by
  intro seg hseg
  obtain rfl := List.mem_singleton.mp hseg
  exact ⟨rfl, by decide, 1, rfl⟩

/-- One relocation `R_386_RELATIVE` at the address. -/
def relativeElf (offset : Nat) : List UInt8 :=
  sectionedElf 1 ++ shdrBytes SHT_REL 92 8 0 ++ Memory.wordBytes offset ++
    Memory.wordBytes R_386_RELATIVE

/-! ### Every table over a set of segments -/

/-- The file with its relocation at the address `v`. -/
def relativeState (segments : List Segment) (v : Nat) : State :=
  { sectionedState (relativeElf 0) with
    mem := store32 (sectionedState (relativeElf 0)).mem 0xF200006C v
    segments := segments }

theorem relativeState_sections (segments : List Segment) (v : Nat) :
    sections (relativeState segments v).mem 0xF2000010 =
      { sym := 0, symCount := 0, symName := 0, rel := 0xF200006C, relCount := 1 } := by
  have hsame : SameOn (InFile 0xF2000010 92) (sectionedState (relativeElf 0)).mem
      (relativeState segments v).mem := by
    apply store32_sameOn
    intro i hi hin
    unfold InFile at hin
    omega
  have hshdrs : ∀ i < (Ehdr.read (sectionedState (relativeElf 0)).mem 0xF2000010).shnum,
      ShdrInside (sectionedState (relativeElf 0)).mem 0xF2000010 92 i := by
    have hcount : (Ehdr.read (sectionedState (relativeElf 0)).mem 0xF2000010).shnum = 1 := by
      decide +kernel
    have haddr : shdrAddr (sectionedState (relativeElf 0)).mem 0xF2000010 0 = 0xF2000010 + 52 := by
      decide +kernel
    intro i hi
    obtain rfl : i = 0 := by omega
    refine ⟨?_, fun _ => ?_⟩
    all_goals
      rw [haddr]
      intro k hk
      unfold InFile
      omega
  rw [sections_followed (by omega) hsame (by omega) hshdrs]
  decide +kernel

theorem relativeState_rel (segments : List Segment) {v : Nat} (hv : v < 2 ^ 32) :
    relAt (relativeState segments v).mem
        { sym := 0, symCount := 0, symName := 0, rel := 0xF200006C, relCount := 1 } 0 =
      { offset := v, info := R_386_RELATIVE } := by
  have hinfo : load32 (relativeState segments v).mem 0xF2000070 = 8 := by
    have hsame : SameOn (InFile 0xF2000070 4) (sectionedState (relativeElf 0)).mem
        (relativeState segments v).mem := by
      apply store32_sameOn
      intro i hi hin
      unfold InFile at hin
      omega
    rw [load32_congr hsame]
    · decide +kernel
    · intro i hi
      unfold InFile
      omega
  unfold relAt relAddr Rel.read
  simp only [Nat.zero_mul, Nat.add_zero, hinfo]
  rw [show load32 (relativeState segments v).mem 0xF200006C = v from load32_store32 hv]
  rfl

/-- The end of the last segment is covered by a segment that reaches the end of the address space,
so that below `2 ^ 32` no set of segments has its ends covered. -/
theorem EndsCovered.reaches {segments : List Segment} (hends : EndsCovered segments) {seg : Segment}
    (hseg : seg ∈ segments)
    (hpos : 0 < seg.vaddr + seg.size) : ∃ seg' ∈ segments, 2 ^ 32 ≤ seg'.vaddr + seg'.size := by
  by_contra hnone
  have hbelow : ∀ seg ∈ segments, seg.vaddr + seg.size < 2 ^ 32 := by
    intro seg hseg
    by_contra hover
    exact hnone ⟨seg, hseg, Nat.not_lt.mp hover⟩
  -- by induction on the distance to 2 ^ 32: each end is covered by a segment that ends later
  have hlater : ∀ n, ∀ seg ∈ segments, 0 < seg.vaddr + seg.size →
      ¬ 2 ^ 32 ≤ seg.vaddr + seg.size + n := by
    intro n
    induction n with
    | zero =>
      intro seg hseg _ hover
      exact absurd (hbelow seg hseg) (by omega)
    | succ n ih =>
      intro seg hseg hpos hover
      rcases hends seg hseg (hbelow seg hseg) with hzero | ⟨seg', hseg', hhas⟩
      · omega
      · unfold Segment.Has at hhas
        exact ih seg' hseg' (by omega) (by omega)
  exact hlater (2 ^ 32) seg hseg hpos (by omega)

section Segments
variable {segments : List Segment} (hloaded : ∀ seg ∈ segments, seg.Loaded)
include hloaded

theorem target_eq_offset {buffer j : Nat} {s u : State} (hsegments : s.segments = segments)
    (hturn : Turn (sections s.mem buffer) s j u) (hpatch : Patches (sections s.mem buffer) j u) :
    target (sections s.mem buffer) j u = (relAt u.mem (sections s.mem buffer) j).offset := by
  have hne := hpatch.1
  unfold target at hne ⊢
  rw [hturn.same.1, hsegments] at hne ⊢
  exact translateAddr_eq_self hloaded load32_lt hne

theorem WordsInside.stays (hwords : WordsInside segments) {s : State}
    (hsegments : s.segments = segments) (buffer : Nat) : StaysInside buffer s := by
  have hinside : ∀ v, v < 2 ^ 32 → translateAddr segments v ≠ 0 → ∃ seg ∈ segments,
      seg.Has v 4 := by
    intro v hv hne
    obtain ⟨hv0, seg, hseg, hin⟩ := (translateAddr_ne_zero_iff hloaded hv).mp hne
    rw [(hloaded seg hseg).contains_iff] at hin
    exact hwords seg hseg hin.2.2 v hin.1 hin.2.1 hv0
  constructor
  · intro a ha
    obtain ⟨j, u, _, hturn, hpatch, rfl⟩ := (relocate_patches_iff buffer s a).mp ha
    have hne := hpatch.1
    unfold target at hne
    rw [hturn.same.1, hsegments] at hne
    rw [target_eq_offset hloaded hsegments hturn hpatch, hsegments]
    exact hinside _ load32_lt hne
  · intro v hv hne
    rw [hsegments] at hne ⊢
    obtain ⟨seg, hseg, hlow, hhigh⟩ := hinside v hv hne
    exact ⟨seg, hseg, hlow, by omega⟩

theorem relativeState_patches {seg : Segment} {v : Nat} (hseg : seg ∈ segments)
    (hin : contains seg v = true) (hv : v < 2 ^ 32) (hv0 : v ≠ 0) :
    Event.patch v ∈ (relocate 0xF2000010 (relativeState segments v)).1.events.drop 0 := by
  have hself := translateAddr_contains hloaded hseg hin hv
  have hrel := relativeState_rel segments hv
  have htarget : target { sym := 0, symCount := 0, symName := 0, rel := 0xF200006C, relCount := 1 }
      0 (relativeState segments v) = v := by
    unfold target
    rw [hrel]
    exact hself
  refine (relocate_patches_iff 0xF2000010 (relativeState segments v) v).mpr
    ⟨0, relativeState segments v, ?_, .start, ⟨?_, .inl ?_⟩, ?_⟩
  all_goals rw [relativeState_sections]
  · exact Nat.one_pos
  · rw [htarget]
    exact hv0
  · rw [hrel]
    exact (by decide : (⟨0, R_386_RELATIVE⟩ : Rel).type = R_386_RELATIVE)
  · exact htarget.symm

/-- A set of segments keeps the relocations of every table inside exactly when the word at each
address that the lookup takes in lies in one segment. Where an end of a segment lies outside of all
of them, no table does; so it is for all sets below `2 ^ 32` with an end other than 0. -/
theorem stays_inside_iff :
    ((∀ buffer s, s.segments = segments → StaysInside buffer s) ↔ WordsInside segments) ∧
      (¬ EndsCovered segments → ∀ buffer s, s.segments = segments → ¬ StaysInside buffer s) ∧
      ((∀ seg ∈ segments, seg.vaddr + seg.size < 2 ^ 32) →
        (∃ seg ∈ segments, 0 < seg.vaddr + seg.size) → ¬ EndsCovered segments) := by
  refine ⟨⟨?_, ?_⟩, ?_, ?_⟩
  · intro hall seg hseg hend v hlow hhigh hv0
    have hv : v < 2 ^ 32 := by omega
    have hin := ((hloaded seg hseg).contains_iff (v := v)).2 ⟨hlow, hhigh, hend⟩
    exact (hall 0xF2000010 (relativeState segments v) rfl).words v
      (relativeState_patches hloaded hseg hin hv hv0)
  · intro hwords buffer s hsegments
    exact hwords.stays hloaded hsegments buffer
  · intro hends buffer s hsegments hstays
    have htranslated := hstays.translated
    rw [hsegments] at htranslated
    exact hends ((translated_inside_iff hloaded).mp htranslated)
  · rintro hbelow ⟨seg, hseg, hpos⟩ hends
    obtain ⟨seg', hseg', hover⟩ := hends.reaches hseg hpos
    exact absurd (hbelow seg' hseg') (by omega)

end Segments

/-- A segment up to the end of the address space, and one that it covers. -/
def coveredSegments : List Segment :=
  [{ vaddr := 0x08048000, base := 0x08048000, size := 0xF7FB8000 },
    { vaddr := 0x08049000, base := 0x08049000, size := 0x1000 }]

/-- A relocation at the end of the second segment. -/
theorem stays_inside_iff_covered :
    StaysInside 0xF2000010 (relativeState coveredSegments 0x0804A000) := by
  have hloaded : ∀ seg ∈ coveredSegments, seg.Loaded := by
    intro seg hseg
    rcases List.mem_pair.mp hseg with rfl | rfl
    · exact ⟨rfl, by decide, 0xF7FB8000, rfl⟩
    · exact ⟨rfl, by decide, 0x1000, rfl⟩
  refine (stays_inside_iff hloaded).1.2 ?_ 0xF2000010 (relativeState coveredSegments 0x0804A000) rfl
  intro seg hseg hend v hlow hhigh _
  refine ⟨_, List.mem_cons_self, ?_⟩
  rcases List.mem_pair.mp hseg with rfl | rfl
  · simp only at hend
    omega
  · unfold Segment.Has
    simp only at hlow hhigh ⊢
    omega

/-- The word right behind the page is patched. -/
theorem patch_behind_segment : ¬ ∀ (buffer : Nat) (s : State), (∀ seg ∈ s.segments, seg.Loaded) →
    StaysInside buffer s := by
  intro hclaim
  have hinside := hclaim 0xF2000010 (sectionedState (relativeElf 0x08049000))
    (sectionedState_loaded _)
  have hpatch : Event.patch 0x08049000 ∈
      (relocate 0xF2000010 (sectionedState (relativeElf 0x08049000))).1.events.drop 0 := by
    decide +kernel
  obtain ⟨seg, hseg, hhas⟩ := hinside.words _ hpatch
  obtain rfl := List.mem_singleton.mp hseg
  exact absurd hhas (by decide)

end OsdevCourse.Loader
