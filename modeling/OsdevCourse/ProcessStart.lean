import OsdevCourse.LoaderBounds

/-!
# The first steps of a process

`_process_startfunc` loads the program and goes to user mode at the entry point of the loader. It
does not look at the result of `load_program`, which in turn does not look at the result of
`relocate` and takes any entry point for one of the program.
-/

namespace OsdevCourse.Loader

set_option autoImplicit false

open Elf

def KADDR_APP_HEAP : Nat := 0x01000000
def KADDR_APP_STACK : Nat := 0x7FC00000

inductive StartEvent where
  | heapCreate (start size flag : Nat)
  | mmap (addr size flag : Nat)
  | enterRing3 (eip esp : Nat)
  deriving DecidableEq

/-- The constructor does not set `_entrypoint`: it is what the stack held there. -/
def construct (garbage : Nat) (mem : Memory) : State := { init mem with entrypoint := garbage }

/-- `_process_startfunc`, with the memory that `load_program` finds. -/
def processStartfunc (file : File) (garbage : Nat) (mem : Memory) : List StartEvent :=
  let appStackSize := 8192
  let ld := (loadProgram file (construct garbage mem)).1
  [.heapCreate KADDR_APP_HEAP (1024 * 1024 * 32) (MMU_PROT_RW ||| MMU_PROT_USER),
    .mmap (KADDR_APP_STACK - appStackSize) appStackSize (MMU_PROT_RW ||| MMU_PROT_USER),
    .enterRing3 ld.entrypoint KADDR_APP_STACK]

/-- The entry point lies in a segment. -/
def EntryLoaded (m : Memory) (b : Nat) : Prop :=
  ∃ i < (Ehdr.read m b).phnum, (phdr m b i).type = PT_LOAD ∧
    (phdr m b i).vaddr ≤ (Ehdr.read m b).entry ∧
    (Ehdr.read m b).entry < (phdr m b i).vaddr + (phdr m b i).memsz

/-- The lookup of the loader finds the entry point: it does not in a segment that goes round the
address space. -/
def EntryFound (m : Memory) (b : Nat) : Prop :=
  ∃ i < (Ehdr.read m b).phnum, (phdr m b i).type = PT_LOAD ∧
    contains (segmentOf m b i) (Ehdr.read m b).entry = true

/-- `relocate` applies what it comes to. -/
def RelocatesAll (file : File) (garbage : Nat) (mem : Memory) : Prop :=
  ∀ s, loadHeaders file.buffer (2 ^ 16) 0
      (construct garbage (storeBytes mem file.buffer file.bytes)) = (s, true) →
    (relocate file.buffer s).2 = true

/-- User mode is entered for a program that was loaded, and at the `e_entry` of its file. -/
structure EntersLoaded (file : File) (garbage : Nat) (mem : Memory) : Prop where
  loaded : (loadProgram file (construct garbage mem)).2 = true →
    RelocatesAll file garbage mem ∧ EntryLoaded (storeBytes mem file.buffer file.bytes) file.buffer
  entered : ∀ eip esp, StartEvent.enterRing3 eip esp ∈ processStartfunc file garbage mem →
    (loadProgram file (construct garbage mem)).2 = true ∧
      eip = (Ehdr.read (storeBytes mem file.buffer file.bytes) file.buffer).entry

section
variable {m : Memory} {b n garbage : Nat} {s : State} {file : File} {mem : Memory}

theorem construct_followed : Followed m b n 0 (construct garbage m) := ⟨.refl _ _, rfl, rfl⟩

theorem loadProgram_true_iff :
    (loadProgram file (construct garbage mem)).2 = true ↔
      ReadInFull file ∧ Accepted (storeBytes mem file.buffer file.bytes) file.buffer ∧
        (loadHeaders file.buffer (2 ^ 16) 0
          (construct garbage (storeBytes mem file.buffer file.bytes))).2 = true := by
  have hmem : (construct garbage mem).mem = mem := rfl
  have hstored :
    ({ construct garbage mem with mem := storeBytes mem file.buffer file.bytes } : State) =
      construct garbage (storeBytes mem file.buffer file.bytes) := rfl
  unfold loadProgram
  cases hlen : file.filelen with
  | none =>
    refine iff_of_false (by simp) ?_
    intro hand
    obtain ⟨⟨filelen, hsome, _⟩, _⟩ := hand
    rw [hlen] at hsome
    exact absurd hsome (by simp)
  | some filelen =>
    have hread : ReadInFull file ↔ file.buffer ≠ 0 ∧ file.result = toInt64 filelen := by
      unfold ReadInFull
      rw [hlen]
      constructor
      · intro hex
        obtain ⟨k, hk, hrest⟩ := hex
        exact Option.some.inj hk ▸ hrest
      · intro hrest
        exact ⟨filelen, rfl, hrest⟩
    rw [hread]
    unfold Accepted
    simp only [hmem, hstored]
    split
    · rename_i hnull
      exact iff_of_false (by simp) fun hand => hand.1.1 hnull
    · rename_i hne
      split
      · rename_i hshort
        exact iff_of_false (by simp) fun hand => hshort hand.1.2
      · rename_i hfull
        split
        · rename_i hother
          exact iff_of_false (by simp) fun hand => hother hand.2.1.1
        · rename_i hident
          split
          · rename_i hother
            exact iff_of_false (by simp) fun hand => hother hand.2.1.2.1
          · rename_i hmachine
            split
            · rename_i hother
              exact iff_of_false (by simp) fun hand => hother hand.2.1.2.2
            · rename_i htype
              cases loadHeaders file.buffer (2 ^ 16) 0
                  (construct garbage (storeBytes mem file.buffer file.bytes)) with
              | mk u ok =>
                have hparts : (file.buffer ≠ 0 ∧ file.result = toInt64 filelen) ∧
                    ((Ehdr.read (storeBytes mem file.buffer file.bytes) file.buffer).ident =
                      ELFMAG ∧
                      (Ehdr.read (storeBytes mem file.buffer file.bytes) file.buffer).machine =
                        EM_386 ∧
                      (Ehdr.read (storeBytes mem file.buffer file.bytes) file.buffer).type =
                          ET_EXEC) :=
                  ⟨⟨hne, not_not.1 hfull⟩, not_not.1 hident, not_not.1 hmachine, not_not.1 htype⟩
                rw [← and_assoc, and_iff_right hparts]
                cases ok with
                | false => exact Iff.rfl
                | true => exact Iff.rfl

theorem relocate_true_iff (hroom : b + n ≤ 2 ^ 32) (hapart : Apart m b n) (hin : TablesInside m b n)
    (hload : Loadable m b) (h : Followed m b n (Ehdr.read m b).phnum s) :
    (relocate b s).2 = true ↔ Relocated m b := by
  obtain ⟨_, happlied⟩ := relocateEntries_loadable hapart hin hload h
  unfold relocate
  simp only [sections_followed hroom h.same (hin.counts hload) (hin.shdrs hload)]
  have hgoal : (relocateEntries (sections m b) (sections m b).relCount 0 s).2 = true ↔
      Relocated m b :=
    happlied.trans ⟨fun hall => ⟨hload, hall⟩, fun hrel => hrel.2⟩
  rw [← hgoal]
  cases relocateEntries (sections m b) (sections m b).relCount 0 s with
  | mk u ok =>
    cases ok with
    | false => exact Iff.rfl
    | true => exact Iff.rfl

theorem loadHeaders_true_iff (hroom : b + n ≤ 2 ^ 32) (hapart : Apart m b n)
    (hin : TablesInside m b n)
    (haccepted : Accepted m b) :
    ∃ s, (loadHeaders b (2 ^ 16) 0 (construct garbage m)).1 = s ∧
      ((loadHeaders b (2 ^ 16) 0 (construct garbage m)).2 = true ↔ Loadable m b) ∧
      (Loadable m b → Followed m b n (Ehdr.read m b).phnum s) := by
  have hcount : (Ehdr.read m b).phnum ≤ 0 + 2 ^ 16 := by
    have hlt : (Ehdr.read m b).phnum < 2 ^ 16 := load16_lt
    omega
  have hphdrs : ∀ i, 0 ≤ i → i < (Ehdr.read m b).phnum → (∀ j, 0 ≤ j → j < i → ¬ Refused m b j) →
      PhdrInside m b n i :=
    fun i _ hi hbefore => hin.phdrs haccepted i hi fun j hj => hbefore j (Nat.zero_le _) hj
  obtain ⟨l, s, _, hle, hbefore, hstop, heq, hfollowed⟩ := loadHeaders_followed hroom
    (hin.header haccepted) hapart hcount (Nat.zero_le _) construct_followed hphdrs
  rw [heq]
  refine ⟨s, rfl, ?_, ?_⟩
  · rw [decide_eq_true_iff]
    constructor
    · intro hend
      exact ⟨haccepted, fun i hi => hbefore i (Nat.zero_le _) (by omega)⟩
    · intro hload
      apply Nat.le_antisymm hle
      apply Nat.le_of_not_lt
      intro hlt
      exact hload.2 l hlt (hstop hlt)
  · intro hload
    have hend : l = (Ehdr.read m b).phnum := by
      apply Nat.le_antisymm hle
      apply Nat.le_of_not_lt
      intro hlt
      exact hload.2 l hlt (hstop hlt)
    exact hend ▸ hfollowed

end

/-! ### The entry point -/

section
variable {m : Memory} {b n garbage : Nat} {s : State} {file : File} {mem : Memory}

theorem segmentsOf_mem_iff {i : Nat} {seg : Segment} :
    seg ∈ segmentsOf m b i ↔ ∃ j < i, (phdr m b j).type = PT_LOAD ∧ segmentOf m b j = seg := by
  unfold segmentsOf
  rw [List.mem_flatMap]
  constructor
  · rintro ⟨j, hj, hseg⟩
    split at hseg
    · rename_i htype
      exact ⟨j, List.mem_range.1 hj, htype, (List.mem_singleton.1 hseg).symm⟩
    · exact absurd hseg List.not_mem_nil
  · rintro ⟨j, hj, htype, rfl⟩
    refine ⟨j, List.mem_range.2 hj, ?_⟩
    rw [if_pos htype]
    exact List.mem_singleton.2 rfl

theorem segmentsOf_loaded (i : Nat) : ∀ seg ∈ segmentsOf m b i, seg.Loaded := by
  intro seg hseg
  obtain ⟨j, _, _, rfl⟩ := segmentsOf_mem_iff.1 hseg
  exact ⟨rfl, load32_lt, _, rfl⟩

/-- The entry point that the loader keeps is the file's, where it lies in a segment, exactly where
the lookup finds it: it keeps 0 otherwise. -/
theorem entrypoint_iff (hentry : EntryLoaded m b) :
    translateAddr (segmentsOf m b (Ehdr.read m b).phnum) (Ehdr.read m b).entry =
      (Ehdr.read m b).entry ↔ EntryFound m b := by
  have hlt : (Ehdr.read m b).entry < 2 ^ 32 := load32_lt
  constructor
  · intro heq
    by_cases hzero : (Ehdr.read m b).entry = 0
    · -- a segment that has the address 0 begins there, and the lookup takes it in
      obtain ⟨i, hi, htype, hlow, _⟩ := hentry
      refine ⟨i, hi, htype, contains_iff.2 ⟨hlow, ?_⟩⟩
      omega
    · rw [← heq] at hzero
      obtain ⟨_, seg, hseg, hin⟩ := (translateAddr_ne_zero_iff (segmentsOf_loaded _) hlt).1 hzero
      obtain ⟨i, hi, htype, rfl⟩ := segmentsOf_mem_iff.1 hseg
      exact ⟨i, hi, htype, hin⟩
  · rintro ⟨i, hi, htype, hin⟩
    exact translateAddr_contains (segmentsOf_loaded _) (segmentsOf_mem_iff.2 ⟨i, hi, htype, rfl⟩)
      hin hlt

theorem loadProgram_entrypoint (hread : ReadInFull file) (hroom : file.buffer + n ≤ 2 ^ 32)
    (hapart : Apart (storeBytes mem file.buffer file.bytes) file.buffer n)
    (hin : TablesInside (storeBytes mem file.buffer file.bytes) file.buffer n)
    (hload : Loadable (storeBytes mem file.buffer file.bytes) file.buffer) :
    (loadProgram file (construct garbage mem)).1.entrypoint =
      translateAddr (segmentsOf (storeBytes mem file.buffer file.bytes) file.buffer
          (Ehdr.read (storeBytes mem file.buffer file.bytes) file.buffer).phnum)
        (Ehdr.read (storeBytes mem file.buffer file.bytes) file.buffer).entry := by
  obtain ⟨s, (hs : (loadHeaders file.buffer (2 ^ 16) 0
      (construct garbage (storeBytes mem file.buffer file.bytes))).1 = s), hheaders, hfollowed⟩ :=
    loadHeaders_true_iff hroom hapart hin hload.1
  obtain ⟨hsame, hsegments, _⟩ := relocate_left hroom hapart hin hload (hfollowed hload)
  obtain ⟨_, _, hentry⟩ := ehdr_congr hroom hsame (hin.header hload.1)
  obtain ⟨filelen, hlen, hne, hresult⟩ := hread
  have heq : loadHeaders file.buffer (2 ^ 16) 0
      (construct garbage (storeBytes mem file.buffer file.bytes)) = (s, true) :=
    Prod.ext hs (hheaders.2 hload)
  obtain ⟨hident, hmachine, htype⟩ := hload.1
  have hmem : (construct garbage mem).mem = mem := rfl
  have hstored :
    ({ construct garbage mem with mem := storeBytes mem file.buffer file.bytes } : State) =
      construct garbage (storeBytes mem file.buffer file.bytes) := rfl
  unfold loadProgram
  simp only [hlen, if_neg hne, hresult, ne_eq, not_true_eq_false, if_false, hmem, hident, hmachine,
    htype, hstored]
  rw [heq]
  simp only [State.log, hsegments, hentry]

end

/-- The executable of 84 bytes that begins at its segment. -/
def startElf : List UInt8 := (tinyElf [0, 0x80, 4, 8]).take 24 ++ [0, 0x80, 4, 8] ++
  (tinyElf [0, 0x80, 4, 8]).drop 28

def startFile : File where
  filelen := some 84
  buffer := 0xF2000010
  result := 84
  bytes := startElf

theorem startFile_phdr {i : Nat}
    (hi : i < (Ehdr.read (storeBytes (fun _ => 0) 0xF2000010 startElf) 0xF2000010).phnum) :
    i = 0 ∧ phdr (storeBytes (fun _ => 0) 0xF2000010 startElf) 0xF2000010 0 =
      { type := PT_LOAD, offset := 0, vaddr := 0x08048000, filesz := 1, memsz := 1 } := by
  have hcount : (Ehdr.read (storeBytes (fun _ => 0) 0xF2000010 startElf) 0xF2000010).phnum = 1 := by
    decide +kernel
  have hphdr : phdr (storeBytes (fun _ => 0) 0xF2000010 startElf) 0xF2000010 0 =
      { type := PT_LOAD, offset := 0, vaddr := 0x08048000, filesz := 1, memsz := 1 } := by
    decide +kernel
  exact ⟨by omega, hphdr⟩

theorem startFile_apart :
    Apart (storeBytes (fun _ => 0) 0xF2000010 startElf) 0xF2000010 84 := by
  intro i hi _ _ _
  obtain ⟨rfl, hphdr⟩ := startFile_phdr hi
  rw [hphdr]
  constructor
  · intro k hk
    unfold InFile
    simp only at hk ⊢
    omega
  · intro k hk
    unfold segmentSize at hk
    unfold InFile
    simp only at hk ⊢
    omega

theorem startFile_tables :
    TablesInside (storeBytes (fun _ => 0) 0xF2000010 startElf) 0xF2000010 84 := by
  have haccepted : Accepted (storeBytes (fun _ => 0) 0xF2000010 startElf) 0xF2000010 := by
    refine ⟨?_, ?_, ?_⟩
    all_goals decide +kernel
  have hreads : ∀ r ∈ loadReads startFile (init fun _ => 0), ∀ i < r.len,
      0xF2000010 ≤ (r.addr + i) % 2 ^ 32 ∧ (r.addr + i) % 2 ^ 32 < 0xF2000010 + 84 := by
    decide +kernel
  exact (loadReads_accepted_iff startFile (fun _ => 0) (by decide) haccepted startFile_apart).1
    hreads

theorem startFile_relocated : Relocated (storeBytes (fun _ => 0) 0xF2000010 startElf)
    0xF2000010 := by
  have hnone : (sections (storeBytes (fun _ => 0) 0xF2000010 startElf) 0xF2000010).relCount =
      0 := by
    decide +kernel
  refine ⟨⟨⟨?_, ?_, ?_⟩, ?_⟩, ?_⟩
  · decide +kernel
  · decide +kernel
  · decide +kernel
  · intro i hi href
    obtain ⟨rfl, hphdr⟩ := startFile_phdr hi
    have hlt := href.2
    rw [hphdr] at hlt
    exact absurd hlt (by decide)
  · intro i hi
    omega

theorem startFile_entry : EntryLoaded (storeBytes (fun _ => 0) 0xF2000010 startElf) 0xF2000010 := by
  refine ⟨0, ?_, ?_, ?_, ?_⟩
  all_goals decide +kernel

theorem startFile_found : EntryFound (storeBytes (fun _ => 0) 0xF2000010 startElf) 0xF2000010 := by
  refine ⟨0, ?_, ?_, ?_⟩
  all_goals decide +kernel

/-- A program that is not there. -/
def missingFile : File where
  filelen := none
  buffer := 0
  result := -1
  bytes := []

end OsdevCourse.Loader
