import OsdevCourse.LoaderLifetime

/-!
# The image of a loaded program

For a well-formed file without relocations the user half of memory holds, after `load_program`,
the bytes of each segment and zeroes behind them, and is untouched elsewhere. Memory is taken as
a total map of bytes here: marking the pages of a segment changes no byte of it, since `mmu_mark`
keeps the frame of a page that is present (`MarkedPages.kept`).
-/

namespace OsdevCourse.Loader

set_option autoImplicit false

open Elf

/-! ### What a copy leaves -/

section Copies
variable {m : Memory} {p : Nat → Prop} {a des src len k : Nat} {value : UInt8} {bs : List UInt8}

theorem storeBytes_read (hroom : a + bs.length ≤ 2 ^ 32) (hk : k < bs.length) :
    bs[k]? = some (storeBytes m a bs (a + k)) := by
  induction bs generalizing m a k with
  | nil => exact absurd hk (Nat.not_lt_zero k)
  | cons c bs ih =>
    rw [List.length_cons] at hroom hk
    simp only [storeBytes]
    cases k with
    | zero =>
      have hlater : SameOn (fun x => x = a) (Function.update m (a % 2 ^ 32) c)
          (storeBytes (Function.update m (a % 2 ^ 32) c) (a + 1) bs) := by
        apply storeBytes_sameOn
        intro i hi heq
        omega
      have hfirst : storeBytes (Function.update m (a % 2 ^ 32) c) (a + 1) bs a = c := by
        rw [hlater a rfl, Nat.mod_eq_of_lt (by omega), Function.update_self]
      exact congrArg some hfirst.symm
    | succ k =>
      have hrest := ih (m := Function.update m (a % 2 ^ 32) c) (a := a + 1) (k := k) (by omega)
        (by omega)
      rw [List.getElem?_cons_succ, hrest, Nat.add_assoc, Nat.add_comm 1 k]

theorem kmemcpy_at (hroom : des + len ≤ 2 ^ 32) (hsrc : Within p src len)
    (hdes : Within (fun x => ¬ p x) des len) (x : Nat) :
    kmemcpy m des src len x = if des ≤ x ∧ x < des + len then load8 m
      (src + (x - des)) else m x := by
  induction len with
  | zero => rw [if_neg (by omega), kmemcpy]
  | succ len ih =>
    have hrest := ih (by omega) (fun i hi => hsrc i (by omega)) fun i hi => hdes i (by omega)
    simp only [kmemcpy]
    rw [Nat.mod_eq_of_lt (by omega)]
    cases Classical.em (x = des + len) with
    | inl heq =>
      have hsame : SameOn p m (kmemcpy m des src len) :=
        kmemcpy_sameOn fun i hi => hdes i (by omega)
      rw [if_pos (by omega), heq, Function.update_self, Nat.add_sub_cancel_left]
      exact load8_congr hsame (hsrc len (Nat.lt_succ_self len))
    | inr hne =>
      rw [Function.update_of_ne hne, hrest]
      exact if_congr (by omega) rfl rfl

theorem kmemset_at (hroom : des + len ≤ 2 ^ 32) (x : Nat) :
    kmemset m des value len x = if des ≤ x ∧ x < des + len then value else m x := by
  induction len with
  | zero => rw [if_neg (by omega), kmemset]
  | succ len ih =>
    simp only [kmemset]
    rw [Nat.mod_eq_of_lt (by omega)]
    cases Classical.em (x = des + len) with
    | inl heq => rw [if_pos (by omega), heq, Function.update_self]
    | inr hne =>
      rw [Function.update_of_ne hne, ih (by omega)]
      exact if_congr (by omega) rfl rfl

end Copies

/-! ### Well-formed files -/

section Files
variable (m : Memory) (b n : Nat)

/-- The byte lies in the segment of the header. -/
def Takes (ph : Phdr) (x : Nat) : Prop := ph.type = PT_LOAD ∧ ph.vaddr ≤ x ∧ x < ph.vaddr + ph.memsz

instance (ph : Phdr) (x : Nat) : Decidable (Takes ph x) := inferInstanceAs (Decidable (_ ∧ _))

/-- The headers of the file in the buffer lie inside it, its segments have their bytes in it and go
to places of their own in the user half, and it has no relocations. -/
structure WellFormed : Prop where
  accepted : Accepted m b
  ehdr : Ehdr.size ≤ n
  phdrs : ∀ i < (Ehdr.read m b).phnum, Inside b n (phdrAddr m b i) Phdr.size
  shdrs : ∀ i < (Ehdr.read m b).shnum, Inside b n (shdrAddr m b i) Shdr.bytes
  sizes : ∀ i < (Ehdr.read m b).phnum, (phdr m b i).type = PT_LOAD →
    (phdr m b i).filesz ≤ (phdr m b i).memsz
  data : ∀ i < (Ehdr.read m b).phnum, (phdr m b i).type = PT_LOAD →
    (phdr m b i).offset + (phdr m b i).filesz ≤ n
  low : ∀ i < (Ehdr.read m b).phnum, (phdr m b i).type = PT_LOAD →
    (phdr m b i).vaddr + (phdr m b i).memsz ≤ 2 ^ 31
  apart : ∀ i < (Ehdr.read m b).phnum, ∀ j < (Ehdr.read m b).phnum, ∀ x,
    Takes (phdr m b i) x → Takes (phdr m b j) x → i = j
  norel : ∀ i < (Ehdr.read m b).shnum, (shdr m b i).type ≠ SHT_REL

/-- The byte of a segment at the address `x`. -/
def segmentByte (ph : Phdr) (x : Nat) : UInt8 :=
  if x - ph.vaddr < ph.filesz then load8 m (b + ph.offset + (x - ph.vaddr)) else 0

/-- The byte at the address `x` of the user half behind the headers before the header `i`. -/
def imageByte : Nat → Nat → UInt8
  | 0, x => m x
  | i + 1, x => if Takes (phdr m b i) x then segmentByte m b (phdr m b i) x else imageByte i x

/-- What is called for a header. -/
def segmentEvents (ph : Phdr) : List Event :=
  if ph.type = PT_LOAD then
    [.mmap ph.vaddr (segmentSize ph.memsz) (MMU_PROT_RW ||| MMU_PROT_USER),
    .copy ph.vaddr ph.filesz] ++
      if ph.filesz < ph.memsz then
        [.fill ((ph.vaddr + ph.filesz) % 2 ^ 32) (ph.memsz - ph.filesz)]
      else []
  else []

def eventsOf (i : Nat) : List Event := (List.range i).flatMap fun j => segmentEvents (phdr m b j)

/-- The file with the bytes `bytes`, as it is in the buffer in `m`, has been loaded into the memory
`mem`. Only the headers `PT_LOAD` have left something. -/
structure Imaged (bytes : List UInt8) (mem : Memory) (s : State) : Prop where
  data : ∀ i < (Ehdr.read m b).phnum, (phdr m b i).type = PT_LOAD → ∀ k < (phdr m b i).filesz,
    bytes[(phdr m b i).offset + k]? = some (s.mem ((phdr m b i).vaddr + k))
  zeroes : ∀ i < (Ehdr.read m b).phnum, (phdr m b i).type = PT_LOAD →
    ∀ k, (phdr m b i).filesz ≤ k → k < (phdr m b i).memsz → s.mem ((phdr m b i).vaddr + k) = 0
  others : ∀ x < 2 ^ 31, (∀ i < (Ehdr.read m b).phnum, ¬ Takes (phdr m b i) x) → s.mem x = mem x
  segments : s.segments = segmentsOf m b (Ehdr.read m b).phnum
  events : s.events = eventsOf m b (Ehdr.read m b).phnum ++ [.kfree b]

end Files

/-! ### One segment -/

section Image
variable {m : Memory} {b n i : Nat} {s : State}

namespace WellFormed

theorem phdrInside (h : WellFormed m b n) (hroom : b + n ≤ 2 ^ 32)
    (hi : i < (Ehdr.read m b).phnum) :
    PhdrInside m b n i := by
  have hheader : Inside b n (phdrAddr m b i) 32 := h.phdrs i hi
  refine ⟨hheader.take (by omega), fun _ => Within.shift hheader (by omega), ?_⟩
  intro htype _
  have hend := h.data i hi htype
  refine ⟨Within.shift hheader (by omega), ?_⟩
  intro k hk
  unfold InFile
  rw [Nat.mod_eq_of_lt (by omega)]
  omega

theorem not_refused (h : WellFormed m b n) (hi : i < (Ehdr.read m b).phnum) : ¬ Refused m b i := by
  intro href
  have hle := h.sizes i hi href.1
  have hlt := href.2
  omega

theorem copy_apart (h : WellFormed m b n) (hb : 2 ^ 31 ≤ b) (hi : i < (Ehdr.read m b).phnum)
    (htype : (phdr m b i).type = PT_LOAD) :
    Within (fun x => ¬ InFile b n x) (phdr m b i).vaddr (phdr m b i).memsz := by
  have hlow := h.low i hi htype
  intro k hk
  unfold InFile
  rw [Nat.mod_eq_of_lt (by omega)]
  omega

end WellFormed

/-- The file is as it was, and the user half and the calls are those of the headers before the
header `i`. -/
structure Holds (m : Memory) (b n i : Nat) (s : State) : Prop where
  followed : Followed m b n i s
  user : ∀ x < 2 ^ 31, s.mem x = imageByte m b i x
  events : s.events = eventsOf m b i

theorem eventsOf_succ (i : Nat) : eventsOf m b (i + 1) = eventsOf m b i ++ segmentEvents
    (phdr m b i) := by
  unfold eventsOf
  rw [List.range_succ, List.flatMap_append, List.flatMap_singleton]

theorem imageByte_succ (x : Nat) : imageByte m b (i + 1) x =
    if Takes (phdr m b i) x then segmentByte m b (phdr m b i) x else imageByte m b i x := rfl

theorem Holds.skip (h : Holds m b n i s) (htype : (phdr m b i).type ≠ PT_LOAD) :
    Holds m b n (i + 1) s := by
  refine ⟨h.followed.skip htype, ?_, ?_⟩
  · intro x hx
    rw [imageByte_succ, if_neg fun htakes => htype htakes.1]
    exact h.user x hx
  · rw [eventsOf_succ, segmentEvents, if_neg htype, List.append_nil]
    exact h.events

/-- The copy and the zero fill write the bytes of the segment and no others. -/
theorem Holds.loadSegment (hwell : WellFormed m b n) (hroom : b + n ≤ 2 ^ 32) (hb : 2 ^ 31 ≤ b)
    (h : Holds m b n i s) (hi : i < (Ehdr.read m b).phnum) (htype : (phdr m b i).type = PT_LOAD) :
    Holds m b n (i + 1) (loadSegment b (phdrAddr m b i) s) := by
  have hin := hwell.phdrInside hroom hi
  have hnot := hwell.not_refused hi
  have hapart := hwell.copy_apart hb hi htype
  have hlow := hwell.low i hi htype
  have hsize := hwell.sizes i hi htype
  have hsource : Within (InFile b n) (b + (phdr m b i).offset) (phdr m b i).filesz :=
    (hin.data htype hnot).2
  obtain ⟨_, hfields⟩ := hin.read h.followed.same
  obtain ⟨hmemsz, hfilesz, hplace⟩ := hfields htype
  obtain ⟨hvaddr, hoffset⟩ := hplace hnot
  have hcopyOut : Within (fun x => ¬ InFile b n x) (phdr m b i).vaddr (phdr m b i).filesz :=
    hapart.take hsize
  have hcopied : SameOn (InFile b n) s.mem (kmemcpy s.mem (phdr m b i).vaddr
      (b + (phdr m b i).offset) (phdr m b i).filesz) := kmemcpy_sameOn hcopyOut
  obtain ⟨_, hfields'⟩ := hin.read (h.followed.same.trans hcopied)
  obtain ⟨hmemsz', hfilesz', _⟩ := hfields' htype
  have hstart : ((phdr m b i).vaddr + (phdr m b i).filesz) % 2 ^ 32 =
      (phdr m b i).vaddr + (phdr m b i).filesz := Nat.mod_eq_of_lt (by omega)
  -- What the copy leaves at an address of the user half.
  have hcopy : ∀ x < 2 ^ 31, kmemcpy s.mem (phdr m b i).vaddr (b + (phdr m b i).offset)
      (phdr m b i).filesz x =
        if (phdr m b i).vaddr ≤ x ∧ x < (phdr m b i).vaddr + (phdr m b i).filesz then
          load8 m (b + (phdr m b i).offset + (x - (phdr m b i).vaddr))
        else imageByte m b i x := by
    intro x hx
    rw [kmemcpy_at (by omega) hsource hcopyOut, h.user x hx]
    split
    · exact load8_congr h.followed.same (hsource _ (by omega))
    · rfl
  refine ⟨h.followed.loadSegment hin htype hnot hapart, ?_, ?_⟩
  · intro x hx
    have hgoal : (Loader.loadSegment b (phdrAddr m b i) s).mem x =
        if (phdr m b i).vaddr + (phdr m b i).filesz ≤ x ∧
            x < (phdr m b i).vaddr + (phdr m b i).memsz then 0
        else kmemcpy s.mem (phdr m b i).vaddr (b + (phdr m b i).offset) (phdr m b i).filesz x := by
      unfold Loader.loadSegment
      simp only [State.log, hvaddr, hmemsz, hfilesz, hoffset, hmemsz', hfilesz', hstart]
      split
      · exact (kmemset_at (by omega) x).trans (if_congr (by omega) rfl rfl)
      · exact (if_neg (by omega)).symm
    rw [hgoal, hcopy x hx, imageByte_succ]
    unfold segmentByte
    cases Classical.em (Takes (phdr m b i) x) with
    | inl htakes =>
      rw [if_pos htakes]
      obtain ⟨_, hlo, hhi⟩ := htakes
      cases Nat.lt_or_ge x ((phdr m b i).vaddr + (phdr m b i).filesz) with
      | inl hdata => rw [if_neg (by omega), if_pos ⟨hlo, hdata⟩, if_pos (by omega)]
      | inr hzero => rw [if_pos ⟨hzero, hhi⟩, if_neg (by omega)]
    | inr hout =>
      have hrange : ¬ ((phdr m b i).vaddr ≤ x ∧ x < (phdr m b i).vaddr + (phdr m b i).memsz) :=
        fun hand => hout ⟨htype, hand⟩
      rw [if_neg hout, if_neg (by omega), if_neg (by omega)]
  · rw [eventsOf_succ, segmentEvents, if_pos htype]
    unfold Loader.loadSegment
    simp only [State.log, hvaddr, hmemsz, hfilesz, hoffset, hmemsz', hfilesz', h.events]
    split
    · simp only [List.append_assoc, List.cons_append, List.nil_append]
    · simp only [List.append_assoc, List.cons_append, List.nil_append]

theorem loadHeaders_image (hwell : WellFormed m b n) (hroom : b + n ≤ 2 ^ 32) (hb : 2 ^ 31 ≤ b)
    {fuel : Nat} (hfuel : (Ehdr.read m b).phnum ≤ i + fuel) (hi : i ≤ (Ehdr.read m b).phnum)
    (h : Holds m b n i s) :
    ∃ t, loadHeaders b fuel i s = (t, true) ∧ Holds m b n (Ehdr.read m b).phnum t := by
  have hsize : 52 ≤ n := hwell.ehdr
  induction fuel generalizing i s with
  | zero =>
    have hend : i = (Ehdr.read m b).phnum := by omega
    exact ⟨s, rfl, hend ▸ h⟩
  | succ fuel ih =>
    obtain ⟨hphnum, haddr, _⟩ := ehdr_congr hroom h.followed.same (by omega)
    unfold loadHeaders
    simp only [hphnum, haddr]
    cases Nat.eq_or_lt_of_le hi with
    | inl hend =>
      rw [if_neg (by omega)]
      exact ⟨s, rfl, hend ▸ h⟩
    | inr hlt =>
      obtain ⟨htype, hfields⟩ := (hwell.phdrInside hroom hlt).read h.followed.same
      rw [if_pos hlt, htype]
      cases Classical.em ((phdr m b i).type = PT_LOAD) with
      | inr hother =>
        rw [if_neg hother]
        exact ih (by omega) hlt (h.skip hother)
      | inl hload =>
        obtain ⟨hmemsz, hfilesz, _⟩ := hfields hload
        have hle := hwell.sizes i hlt hload
        rw [if_pos hload, hmemsz, hfilesz, if_neg (by omega)]
        exact ih (by omega) hlt (h.loadSegment hwell hroom hb hlt hload)

theorem relCount_eq_zero (hnone : ∀ i < (Ehdr.read m b).shnum, (shdr m b i).type ≠ SHT_REL) :
    (sections m b).relCount = 0 := by
  have hfold : ∀ (is : List Nat) (t : Tables), (∀ i ∈ is, (shdr m b i).type ≠ SHT_REL) →
      (is.foldl (readSection m b) t).relCount = t.relCount := by
    intro is
    induction is with
    | nil =>
      intro t _
      rfl
    | cons i is ih =>
      intro t his
      have hother : (Shdr.read m (shdrAddr m b i)).type ≠ SHT_REL := his i List.mem_cons_self
      rw [List.foldl_cons, ih _ fun j hj => his j (List.mem_cons_of_mem i hj)]
      unfold readSection
      simp only
      rw [if_neg hother]
      split
      · rfl
      · rfl
  exact hfold _ _ fun i hi => hnone i (List.mem_range.1 hi)

theorem imageByte_takes {j : Nat} {x : Nat} (hapart : ∀ k < j, Takes (phdr m b k) x → k = i)
    (hi : i < j) (htakes : Takes (phdr m b i) x) :
    imageByte m b j x = segmentByte m b (phdr m b i) x := by
  induction j with
  | zero => exact absurd hi (Nat.not_lt_zero i)
  | succ j ih =>
    rw [imageByte_succ]
    cases Nat.eq_or_lt_of_le (Nat.le_of_lt_succ hi) with
    | inl heq => rw [← heq, if_pos htakes]
    | inr hlt =>
      rw [if_neg fun hother => by
        have heq := hapart j (Nat.lt_succ_self j) hother
        omega]
      exact ih (fun k hk => hapart k (by omega)) hlt

theorem imageByte_outside {j : Nat} {x : Nat} (hout : ∀ k < j, ¬ Takes (phdr m b k) x) :
    imageByte m b j x = m x := by
  induction j with
  | zero => rfl
  | succ j ih =>
    rw [imageByte_succ, if_neg (hout j (Nat.lt_succ_self j))]
    exact ih fun k hk => hout k (by omega)

/-- `relocate` of a well-formed file extracts the symbols and changes no byte. -/
theorem relocate_image (hwell : WellFormed m b n) (hroom : b + n ≤ 2 ^ 32)
    (h : Followed m b n (Ehdr.read m b).phnum s) :
    (relocate b s).2 = true ∧ (relocate b s).1.mem = s.mem ∧
      (relocate b s).1.segments = s.segments ∧ (relocate b s).1.events = s.events := by
  have hsize : 52 ≤ n := hwell.ehdr
  have hshdrs : ∀ i < (Ehdr.read m b).shnum, ShdrInside m b n i := by
    intro i hi
    have hheader : Inside b n (shdrAddr m b i) 40 := hwell.shdrs i hi
    exact ⟨Within.shift hheader (by omega), fun _ => Within.shift hheader (by omega)⟩
  unfold relocate
  simp only [sections_followed hroom h.same (by omega) hshdrs, relCount_eq_zero hwell.norel,
    relocateEntries]
  obtain ⟨hmem, hsegments⟩ := extractSymbols_same (sections m b)
    (List.range (sections m b).symCount) s
  exact ⟨trivial, hmem, hsegments, extractSymbol_events _ _ _⟩

theorem holds_init : Holds m b n 0 (init m) := ⟨followed_init, fun _ _ => rfl, rfl⟩

/-- Behind the last header every byte of the user half is what the file says. -/
theorem Holds.imaged (hwell : WellFormed m b n) (hroom : b + n ≤ 2 ^ 32) {bytes : List UInt8}
    {mem : Memory} (hlen : bytes.length = n) (hm : m = storeBytes mem b bytes) (hb : 2 ^ 31 ≤ b)
    (h : Holds m b n (Ehdr.read m b).phnum s) {u : State} (hmem : u.mem = s.mem)
    (hsegments : u.segments = s.segments) (hevents : u.events = s.events ++ [.kfree b]) :
    Imaged m b bytes mem u := by
  have hbyte : ∀ i < (Ehdr.read m b).phnum, (phdr m b i).type = PT_LOAD →
      ∀ k < (phdr m b i).memsz,
        u.mem ((phdr m b i).vaddr + k) = segmentByte m b (phdr m b i) ((phdr m b i).vaddr + k) := by
    intro i hi htype k hk
    have hlow := hwell.low i hi htype
    have htakes : Takes (phdr m b i) ((phdr m b i).vaddr + k) := ⟨htype, by omega, by omega⟩
    rw [hmem, h.user _ (by omega)]
    exact imageByte_takes (fun j hj hother => hwell.apart j hj i hi _ hother htakes) hi htakes
  refine ⟨?_, ?_, ?_, hsegments.trans h.followed.segments, ?_⟩
  · intro i hi htype k hk
    have hsize := hwell.sizes i hi htype
    have hend := hwell.data i hi htype
    have hread : bytes[(phdr m b i).offset + k]? =
        some (storeBytes mem b bytes (b + ((phdr m b i).offset + k))) :=
      storeBytes_read (by omega) (by omega)
    rw [hread, hbyte i hi htype k (by omega), segmentByte, if_pos (by omega),
      Nat.add_sub_cancel_left,
      load8, Nat.mod_eq_of_lt (by omega), ← hm, Nat.add_assoc]
  · intro i hi htype k hlo hhi
    rw [hbyte i hi htype k hhi, segmentByte, if_neg (by omega)]
  · intro x hx hout
    have hstored : SameOn (fun y => y = x) mem (storeBytes mem b bytes) := by
      apply storeBytes_sameOn
      intro k hk heq
      omega
    rw [hmem, h.user x hx, imageByte_outside hout, hm]
    exact hstored x rfl
  · rw [hevents, h.events]

end Image

/-- A well-formed file is loaded: its segments hold its bytes and zeroes behind them, the rest of
the user half is as it was, and only the headers `PT_LOAD` count. -/
theorem image_has_file_bytes (file : File) (mem : Memory) (hread : ReadInFull file)
    (hb : 2 ^ 31 ≤ file.buffer) (hroom : file.buffer + file.bytes.length ≤ 2 ^ 32)
    (hwell : WellFormed (storeBytes mem file.buffer file.bytes) file.buffer file.bytes.length) :
    (loadProgram file (init mem)).2 = true ∧
      Imaged (storeBytes mem file.buffer file.bytes) file.buffer file.bytes mem
        (loadProgram file (init mem)).1 := by
  obtain ⟨filelen, hlen, hne, hresult⟩ := hread
  obtain ⟨hident, hmachine, htype⟩ := hwell.accepted
  have hinit : (init mem).mem = mem := rfl
  have hstored : ({ init mem with mem := storeBytes mem file.buffer file.bytes } : State) =
      init (storeBytes mem file.buffer file.bytes) := rfl
  have hcount : (Ehdr.read (storeBytes mem file.buffer file.bytes) file.buffer).phnum ≤
      0 + 2 ^ 16 := by
    have hlt : (Ehdr.read (storeBytes mem file.buffer file.bytes) file.buffer).phnum < 2 ^ 16 :=
      load16_lt
    omega
  obtain ⟨s, hheaders, hholds⟩ :=
    loadHeaders_image hwell hroom hb hcount (Nat.zero_le _) holds_init
  obtain ⟨_, hmem, hsegments, hevents⟩ := relocate_image hwell hroom hholds.followed
  unfold loadProgram
  simp only [hlen, if_neg hne, hinit, hstored, hresult, hident, hmachine, htype, hheaders, ne_eq,
    not_true_eq_false, if_false]
  refine ⟨trivial, hholds.imaged hwell hroom rfl rfl hb hmem hsegments ?_⟩
  simp only [State.log, hevents]

/-- Two segments with a note between their headers: three bytes, and two bytes with four zeroes
behind them. -/
def imageElf : List UInt8 :=
  (tinyElf [0, 0x80, 4, 8]).take 44 ++ [3, 0, 0, 0, 0, 0, 0, 0] ++
  [1, 0, 0, 0, 148, 0, 0, 0, 0, 0x80, 4, 8, 0, 0, 0, 0, 3, 0, 0, 0, 3, 0, 0, 0] ++
  [0, 0, 0, 0, 0, 0, 0, 0] ++
  [4, 0, 0, 0, 148, 0, 0, 0, 0, 0x80, 4, 8, 0, 0, 0, 0, 5, 0, 0, 0, 1, 0, 0, 0] ++
  [0, 0, 0, 0, 0, 0, 0, 0] ++
  [1, 0, 0, 0, 151, 0, 0, 0, 1, 0xA0, 4, 8, 0, 0, 0, 0, 2, 0, 0, 0, 6, 0, 0, 0] ++
  [0, 0, 0, 0, 0, 0, 0, 0] ++ [0xB0, 0xC3, 0x90, 0x41, 0x42]

def imageFile : File where
  filelen := some 153
  buffer := 0xF2000010
  result := 153
  bytes := imageElf

def imageMemory : Memory := storeBytes (fun _ => 0xAA) 0xF2000010 imageElf

def imagePhdr : Nat → Phdr
  | 0 => { type := PT_LOAD, offset := 148, vaddr := 0x08048000, filesz := 3, memsz := 3 }
  | 1 => { type := 4, offset := 148, vaddr := 0x08048000, filesz := 5, memsz := 1 }
  | _ => { type := PT_LOAD, offset := 151, vaddr := 0x0804A001, filesz := 2, memsz := 6 }

theorem imageFile_ehdr : Ehdr.read imageMemory 0xF2000010 =
    { ident := ELFMAG, type := ET_EXEC, machine := EM_386, entry := 0, phoff := 52, shoff := 0
      phentsize := 32, phnum := 3, shentsize := 0, shnum := 0 } := by
  decide +kernel

theorem imageFile_phdr {i : Nat} (hi : i < 3) :
    phdr imageMemory 0xF2000010 i = imagePhdr i ∧
      phdrAddr imageMemory 0xF2000010 i = 0xF2000044 + 32 * i := by
  have hall : ∀ i < 3, phdr imageMemory 0xF2000010 i = imagePhdr i ∧
      phdrAddr imageMemory 0xF2000010 i = 0xF2000044 + 32 * i := by decide +kernel
  exact hall i hi

theorem imageFile_wellFormed : WellFormed imageMemory 0xF2000010 153 := by
  have hcount : (Ehdr.read imageMemory 0xF2000010).phnum = 3 := by rw [imageFile_ehdr]
  have hnone : (Ehdr.read imageMemory 0xF2000010).shnum = 0 := by rw [imageFile_ehdr]
  have hinside : ∀ i < 3, (imagePhdr i).offset + (imagePhdr i).filesz ≤ 153 := by decide +kernel
  have hlow : ∀ i < 3, (imagePhdr i).vaddr + (imagePhdr i).memsz ≤ 2 ^ 31 := by decide +kernel
  refine
    { accepted := ?_
      ehdr := by decide
      phdrs := ?_
      shdrs := ?_
      sizes := ?_
      data := ?_
      low := ?_
      apart := ?_
      norel := ?_ }
  · unfold Accepted
    rw [imageFile_ehdr]
    exact ⟨rfl, rfl, rfl⟩
  · intro i hi k hk
    rw [hcount] at hi
    rw [(imageFile_phdr hi).2]
    unfold Phdr.size at hk
    unfold InFile
    omega
  · intro i hi
    omega
  · intro i hi htype
    rw [hcount] at hi
    rw [(imageFile_phdr hi).1] at htype ⊢
    match i with
    | 0 => exact Nat.le_refl 3
    | 1 => exact absurd htype (by decide)
    | 2 => exact Nat.le_add_right 2 4
  · intro i hi _
    rw [hcount] at hi
    rw [(imageFile_phdr hi).1]
    exact hinside i hi
  · intro i hi _
    rw [hcount] at hi
    rw [(imageFile_phdr hi).1]
    exact hlow i hi
  · intro i hi j hj x hx hx'
    rw [hcount] at hi hj
    rw [(imageFile_phdr hi).1] at hx
    rw [(imageFile_phdr hj).1] at hx'
    obtain ⟨htype, hlow, hhigh⟩ := hx
    obtain ⟨htype', hlow', hhigh'⟩ := hx'
    match i, j with
    | 0, 0 => rfl
    | 2, 2 => rfl
    | 1, _ => exact absurd htype (by decide)
    | 0, 1 => exact absurd htype' (by decide)
    | 2, 1 => exact absurd htype' (by decide)
    | 0, 2 =>
      simp only [imagePhdr] at hhigh hlow'
      omega
    | 2, 0 =>
      simp only [imagePhdr] at hlow hhigh'
      omega
  · intro i hi
    omega

theorem image_has_file_bytes_segments :
    (loadProgram imageFile (init fun _ => 0xAA)).2 = true ∧
      Imaged imageMemory 0xF2000010 imageElf (fun _ => 0xAA)
        (loadProgram imageFile (init fun _ => 0xAA)).1 :=
  image_has_file_bytes imageFile (fun _ => 0xAA) ⟨153, rfl, by decide, rfl⟩ (by decide)
    (by decide +kernel) imageFile_wellFormed

end OsdevCourse.Loader
