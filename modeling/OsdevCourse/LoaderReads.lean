import OsdevCourse.LoaderPatches
import OsdevCourse.LoaderSafety

/-!
# What the loader reads of the file

The bytes that `load_program` reads through the file buffer, in the order of the source. The
offsets, strides and counts come from the file and none is compared with its length; only the
index of a symbol is compared with the size of the table it is an index of.
-/

namespace OsdevCourse.Loader

set_option autoImplicit false

open Elf

/-- Bytes that are read one after the other. -/
structure Access where
  addr : Nat
  len : Nat
  deriving DecidableEq

/-- The bytes of a string, its NUL included; without one they go round the address space. -/
def stringSpan (m : Memory) : Nat → Nat → Nat
  | 0, _ => 0
  | fuel + 1, a => if load8 m a = 0 then 1 else stringSpan m fuel (a + 1) + 1

def stringAccess (m : Memory) (a : Nat) : Access := ⟨a, stringSpan m (2 ^ 32) a⟩

/-- The bytes that `kstrcmp` reads of each of its strings. -/
def compareSpan (m : Memory) : Nat → Nat → Nat → Nat
  | 0, _, _ => 0
  | fuel + 1, a, b =>
    if load8 m a ≠ 0 ∧ load8 m b ≠ 0 ∧ load8 m a = load8 m b then
      compareSpan m fuel (a + 1) (b + 1) + 1
    else 1

def getAddrReads (m : Memory) (symbol : Nat) : List Symbol → List Access
  | [] => []
  | sym :: rest =>
    let n := compareSpan m (2 ^ 32) sym.name symbol
    [⟨sym.name, n⟩, ⟨symbol, n⟩] ++
      if kstrcmp m (2 ^ 32) sym.name symbol then [] else getAddrReads m symbol rest

/-- The loop over the program headers. -/
def headersReads (buffer : Nat) : Nat → Nat → State → List Access
  | 0, _, _ => []
  | fuel + 1, i, s =>
    ⟨buffer + 44, 2⟩ ::
      if i < (Ehdr.read s.mem buffer).phnum then
        let a := phdrAddr s.mem buffer i
        let ph := Phdr.read s.mem a
        [⟨buffer + 28, 4⟩, ⟨buffer + 42, 2⟩, ⟨a, 4⟩] ++
          if ph.type = PT_LOAD then
            ⟨a + 16, 8⟩ ::
              if ph.memsz < ph.filesz then []
              else
                [⟨a + 4, 8⟩, ⟨buffer + ph.offset, ph.filesz⟩] ++
                  headersReads buffer fuel (i + 1) (loadSegment buffer a s)
          else headersReads buffer fuel (i + 1) s
      else []

def sectionReads (m : Memory) (buffer i : Nat) : List Access :=
  let a := shdrAddr m buffer i
  let sh := Shdr.read m a
  [⟨buffer + 32, 4⟩, ⟨buffer + 46, 2⟩, ⟨a + 4, 4⟩] ++
    if sh.type = SHT_SYNSYM ∨ sh.type = SHT_REL then [⟨a + 16, 8⟩] else []

def sectionsReads (m : Memory) (buffer : Nat) : List Access :=
  ⟨buffer + 48, 2⟩ :: (List.range (Ehdr.read m buffer).shnum).flatMap (sectionReads m buffer)

/-- One turn of the loop over the relocations; `kdebug` prints the name of the symbol after the
patch. -/
def relocateEntryReads (t : Tables) (j : Nat) (s : State) : List Access :=
  let a := relAddr t j
  let rel := Rel.read s.mem a
  let c := symAddr t rel.sym
  let sym := Sym.read s.mem c
  let patched := (relocateEntry t j s).1.mem
  let printed := [⟨c, 4⟩, stringAccess patched (t.symName + (Sym.read patched c).name)]
  ⟨a + 4, 4⟩ ::
    if rel.type = R_386_32 then
      if t.symCount ≤ rel.sym then []
      else
        ⟨a, 4⟩ ::
          if translateAddr s.segments rel.offset = 0 then []
          else ⟨c + 4, 4⟩ :: if translateAddr s.segments sym.value = 0 then [] else printed
    else if rel.type = R_386_PC32 then
      if t.symCount ≤ rel.sym then []
      else
        ⟨a, 4⟩ ::
          if translateAddr s.segments rel.offset = 0 then []
          else
            ⟨c + 4, 4⟩ ::
              if sym.value ≠ 0 then
                if translateAddr s.segments sym.value = 0 then [] else printed
              else
                ⟨c, 4⟩ :: getAddrReads s.mem (t.symName + sym.name) s.symbols ++
                  if getAddr s (t.symName + sym.name) = 0 then [] else printed
    else [⟨a, 4⟩]

def relocateEntriesReads (t : Tables) : Nat → Nat → State → List Access
  | 0, _, _ => []
  | count + 1, j, s =>
    relocateEntryReads t j s ++
      match relocateEntry t j s with
      | (s, true) => relocateEntriesReads t count (j + 1) s
      | (_, false) => []

def symbolReads (t : Tables) (m : Memory) (i : Nat) : List Access :=
  let c := symAddr t i
  ⟨c, 4⟩ :: if (Sym.read m c).name = 0 then [] else [⟨c + 4, 4⟩]

def relocateReads (buffer : Nat) (s : State) : List Access :=
  let t := sections s.mem buffer
  sectionsReads s.mem buffer ++ relocateEntriesReads t t.relCount 0 s ++
    match relocateEntries t t.relCount 0 s with
    | (_, false) => []
    | (s, true) => (List.range t.symCount).flatMap (symbolReads t s.mem)

/-- The bytes that `load_program` reads of a file that it has read in full. -/
def loadReads (file : File) (s : State) : List Access :=
  let s := { s with mem := storeBytes s.mem file.buffer file.bytes }
  let ehdr := Ehdr.read s.mem file.buffer
  ⟨file.buffer, 4⟩ ::
    if ehdr.ident ≠ ELFMAG then []
    else
      ⟨file.buffer + 18, 2⟩ ::
        if ehdr.machine ≠ EM_386 then []
        else
          ⟨file.buffer + 16, 2⟩ ::
            if ehdr.type ≠ ET_EXEC then []
            else
              headersReads file.buffer (2 ^ 16) 0 s ++
                match loadHeaders file.buffer (2 ^ 16) 0 s with
                | (_, false) => []
                | (s, true) => relocateReads file.buffer s ++ [⟨file.buffer + 24, 4⟩]

/-! ### Tables inside the file -/

/-- The bytes of a file of `n` bytes in a buffer at `b`. -/
def InFile (b n x : Nat) : Prop := b ≤ x ∧ x < b + n

def Inside (b n a len : Nat) : Prop := Within (InFile b n) a len

def AllInside (b n : Nat) (reads : List Access) : Prop := ∀ r ∈ reads, Inside b n r.addr r.len

section Conditions
variable (m : Memory) (b n : Nat)

def Accepted : Prop :=
  (Ehdr.read m b).ident = ELFMAG ∧ (Ehdr.read m b).machine = EM_386 ∧ (Ehdr.read m b).type = ET_EXEC

def phdr (i : Nat) : Phdr := Phdr.read m (phdrAddr m b i)

def shdr (i : Nat) : Shdr := Shdr.read m (shdrAddr m b i)

/-- A header that `load_program` refuses. -/
def Refused (i : Nat) : Prop := (phdr m b i).type = PT_LOAD ∧
    (phdr m b i).memsz < (phdr m b i).filesz

/-- The file gets as far as its relocations. -/
def Loadable : Prop := Accepted m b ∧ ∀ i < (Ehdr.read m b).phnum, ¬ Refused m b i

/-- What is read of a program header, and the bytes of its segment. -/
structure PhdrInside (i : Nat) : Prop where
  type : Inside b n (phdrAddr m b i) 4
  sizes : (phdr m b i).type = PT_LOAD → Inside b n (phdrAddr m b i + 16) 8
  data : (phdr m b i).type = PT_LOAD → ¬ Refused m b i →
    Inside b n (phdrAddr m b i + 4) 8 ∧ Inside b n (b + (phdr m b i).offset) (phdr m b i).filesz

structure ShdrInside (i : Nat) : Prop where
  type : Inside b n (shdrAddr m b i + 4) 4
  place : (shdr m b i).type = SHT_SYNSYM ∨ (shdr m b i).type = SHT_REL →
    Inside b n (shdrAddr m b i + 16) 8

def segmentOf (i : Nat) : Segment where
  vaddr := (phdr m b i).vaddr
  base := (phdr m b i).vaddr
  size := segmentSize (phdr m b i).memsz

/-- The segments of the program headers before the header `i`. -/
def segmentsOf (i : Nat) : List Segment :=
  (List.range i).flatMap fun j => if (phdr m b j).type = PT_LOAD then [segmentOf m b j] else []

variable (segs : List Segment) (t : Tables) (j : Nat)

/-- A symbol without a value is looked for in the loader's symbols, of which there are none yet. -/
def Unvalued : Prop :=
  (relAt m t j).type = R_386_PC32 ∧ (symAt m t (relAt m t j).sym).value = 0

/-- The relocation is applied. -/
def Applies : Prop :=
  translateAddr segs (relAt m t j).offset ≠ 0 ∧
    ((relAt m t j).type = R_386_RELATIVE ∨
      Symbolic m t j ∧ (relAt m t j).sym < t.symCount ∧ ¬ Unvalued m t j ∧
        translateAddr segs (symAt m t (relAt m t j).sym).value ≠ 0)

/-- What is read of a symbol that a relocation uses, with the name that is printed. -/
def SymbolInside (i : Nat) : Prop :=
  Inside b n (symAddr t i + 4) 4 ∧
    (Unvalued m t j → Inside b n (symAddr t i) 4) ∧
    (¬ Unvalued m t j → translateAddr segs (symAt m t i).value ≠ 0 →
      Inside b n (symAddr t i) 4 ∧
        Inside b n (t.symName + (symAt m t i).name)
          (stringSpan m (2 ^ 32) (t.symName + (symAt m t i).name)))

structure RelInside : Prop where
  info : Inside b n (relAddr t j + 4) 4
  offset : (Symbolic m t j → (relAt m t j).sym < t.symCount) → Inside b n (relAddr t j) 4
  symbol : Symbolic m t j → (relAt m t j).sym < t.symCount →
    translateAddr segs (relAt m t j).offset ≠ 0 → SymbolInside m b n segs t j (relAt m t j).sym

structure SymInside (i : Nat) : Prop where
  name : Inside b n (symAddr t i) 4
  value : (symAt m t i).name ≠ 0 → Inside b n (symAddr t i + 4) 4

/-- Whatever the loader comes to read of the file is there. -/
structure TablesInside : Prop where
  ident : 4 ≤ n
  kind : (Ehdr.read m b).ident = ELFMAG → 20 ≤ n
  header : Accepted m b → 46 ≤ n
  phdrs : Accepted m b → ∀ i < (Ehdr.read m b).phnum, (∀ j < i, ¬ Refused m b j) →
    PhdrInside m b n i
  counts : Loadable m b → 50 ≤ n
  shdrs : Loadable m b → ∀ i < (Ehdr.read m b).shnum, ShdrInside m b n i
  rels : Loadable m b → ∀ j < (sections m b).relCount,
    (∀ i < j, Applies m (segmentsOf m b (Ehdr.read m b).phnum) (sections m b) i) →
      RelInside m b n (segmentsOf m b (Ehdr.read m b).phnum) (sections m b) j
  syms : Loadable m b → (∀ i < (sections m b).relCount,
    Applies m (segmentsOf m b (Ehdr.read m b).phnum) (sections m b) i) →
      ∀ i < (sections m b).symCount, SymInside m b n (sections m b) i

/-- No segment comes to lie over the file in its buffer, nor the word that a relocation may patch
at the end of one. -/
def Apart : Prop :=
  ∀ i < (Ehdr.read m b).phnum, PhdrInside m b n i → (phdr m b i).type = PT_LOAD →
    ¬ Refused m b i →
    Within (fun x => ¬ InFile b n x) (phdr m b i).vaddr (phdr m b i).memsz ∧
      Within (fun x => ¬ InFile b n x) (phdr m b i).vaddr (segmentSize (phdr m b i).memsz + 4)

end Conditions

/-! ### Lists of accesses -/

section Lists
variable {b n : Nat} {r : Access} {reads reads' : List Access}

theorem allInside_nil : AllInside b n [] ↔ True := iff_true_intro (by simp [AllInside])

theorem allInside_cons :
    AllInside b n (r :: reads) ↔ Inside b n r.addr r.len ∧ AllInside b n reads :=
  List.forall_mem_cons

theorem allInside_append :
    AllInside b n (reads ++ reads') ↔ AllInside b n reads ∧ AllInside b n reads' :=
  List.forall_mem_append

theorem allInside_flatMap {α : Type} {l : List α} {f : α → List Access} :
    AllInside b n (l.flatMap f) ↔ ∀ x ∈ l, AllInside b n (f x) := by
  unfold AllInside
  simp only [List.mem_flatMap]
  constructor
  · intro h x hx r hr
    exact h r ⟨x, hx, hr⟩
  · intro h r hr
    obtain ⟨x, hx, hr⟩ := hr
    exact h x hx r hr

/-- Up to the first that fails `P`: the one at `i`, and then the others. -/
theorem forall_until_iff {P Q : Nat → Prop} {i n : Nat} (hi : i < n) :
    (∀ l, i ≤ l → l < n → (∀ j, i ≤ j → j < l → P j) → Q l) ↔
      Q i ∧ (P i → ∀ l, i + 1 ≤ l → l < n → (∀ j, i + 1 ≤ j → j < l → P j) → Q l) := by
  constructor
  · intro hall
    refine ⟨hall i (Nat.le_refl _) hi fun j hj hlt => by omega, ?_⟩
    intro hP l hl hlt hrest
    refine hall l (by omega) hlt ?_
    intro j hj hjl
    cases Nat.eq_or_lt_of_le hj with
    | inl heq => exact heq ▸ hP
    | inr hlt' => exact hrest j hlt' hjl
  · intro hall l hl hlt hrest
    cases Nat.eq_or_lt_of_le hl with
    | inl heq => exact heq ▸ hall.1
    | inr hlt' =>
      exact hall.2 (hrest i (Nat.le_refl _) hlt') l hlt' hlt fun j hj hjl => hrest j (by omega) hjl

theorem inside_header {k len : Nat} (hroom : b + n ≤ 2 ^ 32) (hpos : 0 < len)
    (hend : k + len ≤ 52) : Inside b n (b + k) len ↔ k + len ≤ n := by
  constructor
  · intro h
    have hlast := h (len - 1) (by omega)
    have hfirst := h 0 hpos
    unfold InFile at hlast hfirst
    omega
  · intro h i hi
    unfold InFile
    rw [Nat.mod_eq_of_lt (by omega)]
    omega

end Lists

/-! ### Bytes that stay the same -/

section Same
variable {m m' : Memory} {p : Nat → Prop} {a fuel : Nat}

theorem sameOn_symm (h : SameOn p m m') : SameOn p m' m := fun x hx => (h x hx).symm

theorem stringSpan_congr (h : SameOn p m m') (ha : Within p a (stringSpan m fuel a)) :
    stringSpan m' fuel a = stringSpan m fuel a := by
  induction fuel generalizing a with
  | zero => rfl
  | succ fuel ih =>
    simp only [stringSpan] at ha ⊢
    have hpos : 0 < if load8 m a = 0 then 1 else stringSpan m fuel (a + 1) + 1 := by
      split <;> omega
    rw [load8_congr h (ha.head hpos)]
    split
    · rfl
    · rename_i hne
      rw [if_neg hne] at ha
      rw [ih (ha.shift (k := 1) (by omega))]

theorem stringSpan_within_iff (h : SameOn p m m') :
    Within p a (stringSpan m' fuel a) ↔ Within p a (stringSpan m fuel a) := by
  constructor
  · intro ha
    rw [stringSpan_congr (sameOn_symm h) ha]
    exact ha
  · intro ha
    rw [stringSpan_congr h ha]
    exact ha

end Same

/-! ### The program headers -/

/-- Up to the header `i` the loader has left the file as it was and loaded its segments. -/
structure Followed (m : Memory) (b n i : Nat) (s : State) : Prop where
  same : SameOn (InFile b n) m s.mem
  segments : s.segments = segmentsOf m b i
  symbols : s.symbols = []

section Headers
variable {m : Memory} {b n : Nat} (hroom : b + n ≤ 2 ^ 32)
include hroom

/-- The fields of the file header that lie inside the file are the file's. -/
theorem ehdr_congr {m' : Memory} (hsame : SameOn (InFile b n) m m') (hn : 46 ≤ n) :
    (Ehdr.read m' b).phnum = (Ehdr.read m b).phnum ∧
      (∀ i, phdrAddr m' b i = phdrAddr m b i) ∧ (Ehdr.read m' b).entry = (Ehdr.read m b).entry := by
  have h16 : ∀ k, k + 2 ≤ 46 → load16 m' (b + k) = load16 m (b + k) := by
    intro k hk
    exact load16_congr hsame ((inside_header hroom (by omega) (by omega)).2 (by omega))
  have h32 : ∀ k, k + 4 ≤ 46 → load32 m' (b + k) = load32 m (b + k) := by
    intro k hk
    exact load32_congr hsame ((inside_header hroom (by omega) (by omega)).2 (by omega))
  refine ⟨h16 44 (by omega), ?_, h32 24 (by omega)⟩
  intro i
  unfold phdrAddr
  simp only [Ehdr.read]
  rw [h32 28 (by omega), h16 42 (by omega)]

theorem shdr_congr {m' : Memory} (hsame : SameOn (InFile b n) m m') (hn : 50 ≤ n) :
    (Ehdr.read m' b).shnum = (Ehdr.read m b).shnum ∧
      ∀ i, shdrAddr m' b i = shdrAddr m b i := by
  have h16 : ∀ k, k + 2 ≤ 50 → load16 m' (b + k) = load16 m (b + k) := by
    intro k hk
    exact load16_congr hsame ((inside_header hroom (by omega) (by omega)).2 (by omega))
  refine ⟨h16 48 (by omega), ?_⟩
  intro i
  unfold shdrAddr
  simp only [Ehdr.read]
  rw [load32_congr hsame ((inside_header hroom (k := 32) (by omega) (by omega)).2 (by omega)),
    h16 46 (by omega)]

omit hroom in
theorem PhdrInside.read {m' : Memory} {i : Nat} (h : PhdrInside m b n i)
    (hsame : SameOn (InFile b n) m m') :
    (Phdr.read m' (phdrAddr m b i)).type = (phdr m b i).type ∧
      ((phdr m b i).type = PT_LOAD →
        (Phdr.read m' (phdrAddr m b i)).memsz = (phdr m b i).memsz ∧
          (Phdr.read m' (phdrAddr m b i)).filesz = (phdr m b i).filesz ∧
          (¬ Refused m b i → (Phdr.read m' (phdrAddr m b i)).vaddr = (phdr m b i).vaddr ∧
            (Phdr.read m' (phdrAddr m b i)).offset = (phdr m b i).offset)) := by
  refine ⟨load32_congr hsame h.type, ?_⟩
  intro htype
  have hsizes := h.sizes htype
  refine ⟨?_, load32_congr hsame (hsizes.take (by omega)), ?_⟩
  · exact load32_congr hsame (Within.shift (k := 4) hsizes (by omega))
  · intro hnot
    have hdata := (h.data htype hnot).1
    exact ⟨load32_congr hsame (Within.shift (k := 4) hdata (by omega)),
      load32_congr hsame (hdata.take (by omega))⟩

omit hroom in
theorem segmentsOf_succ (i : Nat) : segmentsOf m b (i + 1) = segmentsOf m b i ++
    if (phdr m b i).type = PT_LOAD then [segmentOf m b i] else [] := by
  unfold segmentsOf
  rw [List.range_succ, List.flatMap_append, List.flatMap_singleton]

omit hroom in
theorem Followed.loadSegment {i : Nat} {s : State} (h : Followed m b n i s)
    (hin : PhdrInside m b n i) (htype : (phdr m b i).type = PT_LOAD)
    (hnot : ¬ Refused m b i)
    (hcopy : Within (fun x => ¬ InFile b n x) (phdr m b i).vaddr (phdr m b i).memsz) :
    Followed m b n (i + 1) (Loader.loadSegment b (phdrAddr m b i) s) := by
  obtain ⟨_, hfields⟩ := hin.read h.same
  obtain ⟨hmemsz, hfilesz, hplace⟩ := hfields htype
  obtain ⟨hvaddr, hoffset⟩ := hplace hnot
  have hle : (phdr m b i).filesz ≤ (phdr m b i).memsz :=
    Nat.le_of_not_lt fun hlt => hnot ⟨htype, hlt⟩
  have hcopied : SameOn (InFile b n) s.mem (kmemcpy s.mem (phdr m b i).vaddr
      (b + (phdr m b i).offset) (phdr m b i).filesz) := kmemcpy_sameOn (hcopy.take hle)
  have hsame := h.same.trans hcopied
  -- The header is read again behind the copy.
  obtain ⟨_, hfields'⟩ := hin.read hsame
  obtain ⟨hmemsz', hfilesz', _⟩ := hfields' htype
  have hsegments : s.segments ++ [segmentOf m b i] = segmentsOf m b (i + 1) := by
    rw [segmentsOf_succ, if_pos htype, h.segments]
  unfold Loader.loadSegment
  simp only [State.log, hvaddr, hmemsz, hfilesz, hoffset, hmemsz', hfilesz']
  rw [← segmentOf, hsegments]
  split
  · refine ⟨hsame.trans (kmemset_sameOn ?_), rfl, h.symbols⟩
    intro x hx
    have hrest : Within (fun x => ¬ InFile b n x) ((phdr m b i).vaddr + (phdr m b i).filesz)
        ((phdr m b i).memsz - (phdr m b i).filesz) := hcopy.shift (by omega)
    have hzero := hrest x hx
    rw [Nat.mod_add_mod]
    exact hzero
  · exact ⟨hsame, rfl, h.symbols⟩

omit hroom in
theorem Followed.skip {i : Nat} {s : State} (h : Followed m b n i s)
    (htype : (phdr m b i).type ≠ PT_LOAD) : Followed m b n (i + 1) s := by
  refine ⟨h.same, ?_, h.symbols⟩
  rw [segmentsOf_succ, if_neg htype, List.append_nil]
  exact h.segments

omit hroom in
/-- What is read of a header inside the loop: `skipped` and `loaded` are read after it. -/
theorem headerReads_iff {i : Nat} {s : State} (h : Followed m b n i s)
    {skipped loaded : List Access}
    {P : Prop} (hskipped : (phdr m b i).type ≠ PT_LOAD → (AllInside b n skipped ↔ P))
    (hloaded : PhdrInside m b n i → (phdr m b i).type = PT_LOAD → ¬ Refused m b i →
      (AllInside b n loaded ↔ P)) :
    AllInside b n (⟨phdrAddr m b i, 4⟩ ::
      if (Phdr.read s.mem (phdrAddr m b i)).type = PT_LOAD then
        ⟨phdrAddr m b i + 16, 8⟩ ::
          if (Phdr.read s.mem (phdrAddr m b i)).memsz <
            (Phdr.read s.mem (phdrAddr m b i)).filesz then []
          else ⟨phdrAddr m b i + 4, 8⟩ ::
            ⟨b + (Phdr.read s.mem (phdrAddr m b i)).offset,
              (Phdr.read s.mem (phdrAddr m b i)).filesz⟩ :: loaded
      else skipped) ↔ PhdrInside m b n i ∧ (¬ Refused m b i → P) := by
  rw [allInside_cons]
  cases Classical.em (Inside b n (phdrAddr m b i) 4) with
  | inr hout => exact iff_of_false (fun hand => hout hand.1) fun hand => hout hand.1.type
  | inl htypeIn =>
    have htypeEq : (Phdr.read s.mem (phdrAddr m b i)).type = (phdr m b i).type :=
      load32_congr h.same htypeIn
    rw [and_iff_right htypeIn, htypeEq]
    cases Classical.em ((phdr m b i).type = PT_LOAD) with
    | inr hother =>
      have hin : PhdrInside m b n i :=
        ⟨htypeIn, fun heq => absurd heq hother, fun heq => absurd heq hother⟩
      have hnot : ¬ Refused m b i := fun href => hother href.1
      rw [if_neg hother, hskipped hother, and_iff_right hin]
      exact ⟨fun hP _ => hP, fun hP => hP hnot⟩
    | inl hload =>
      rw [if_pos hload, allInside_cons]
      cases Classical.em (Inside b n (phdrAddr m b i + 16) 8) with
      | inr hout =>
        exact iff_of_false (fun hand => hout hand.1) fun hand => hout (hand.1.sizes hload)
      | inl hsizes =>
        have hmemsz : (Phdr.read s.mem (phdrAddr m b i)).memsz = (phdr m b i).memsz :=
          load32_congr h.same (Within.shift (k := 4) hsizes (by omega))
        have hfilesz : (Phdr.read s.mem (phdrAddr m b i)).filesz = (phdr m b i).filesz :=
          load32_congr h.same (hsizes.take (by omega))
        rw [and_iff_right hsizes, hmemsz, hfilesz]
        cases Classical.em ((phdr m b i).memsz < (phdr m b i).filesz) with
        | inl hlt =>
          have href : Refused m b i := ⟨hload, hlt⟩
          have hin : PhdrInside m b n i :=
            ⟨htypeIn, fun _ => hsizes, fun _ hnot => absurd href hnot⟩
          rw [if_pos hlt]
          exact iff_of_true (allInside_nil.2 trivial) ⟨hin, fun hnot => absurd href hnot⟩
        | inr hle =>
          have hnot : ¬ Refused m b i := fun href => hle href.2
          rw [if_neg hle, allInside_cons, allInside_cons]
          cases Classical.em (Inside b n (phdrAddr m b i + 4) 8) with
          | inr hout =>
            exact iff_of_false (fun hand => hout hand.1)
              fun hand => hout (hand.1.data hload hnot).1
          | inl hplace =>
            have hoffset : (Phdr.read s.mem (phdrAddr m b i)).offset = (phdr m b i).offset :=
              load32_congr h.same (hplace.take (by omega))
            rw [and_iff_right hplace, hoffset]
            cases Classical.em (Inside b n (b + (phdr m b i).offset) (phdr m b i).filesz) with
            | inr hout =>
              exact iff_of_false (fun hand => hout hand.1)
                fun hand => hout (hand.1.data hload hnot).2
            | inl hdata =>
              have hin : PhdrInside m b n i :=
                ⟨htypeIn, fun _ => hsizes, fun _ _ => ⟨hplace, hdata⟩⟩
              rw [and_iff_right hdata, hloaded hin hload hnot, and_iff_right hin]
              exact ⟨fun hP _ => hP, fun hP => hP hnot⟩

/-- The loop reads no byte outside the file exactly where the headers that it comes to lie
inside. -/
theorem headersReads_iff (hn : 46 ≤ n) (hapart : Apart m b n) {fuel i : Nat} {s : State}
    (hfuel : (Ehdr.read m b).phnum ≤ i + fuel) (h : Followed m b n i s) :
    AllInside b n (headersReads b fuel i s) ↔
      ∀ l, i ≤ l → l < (Ehdr.read m b).phnum → (∀ j, i ≤ j → j < l → ¬ Refused m b j) →
        PhdrInside m b n l := by
  induction fuel generalizing i s with
  | zero =>
    refine iff_of_true (allInside_nil.2 trivial) ?_
    intro l hl hlt
    omega
  | succ fuel ih =>
    obtain ⟨hphnum, haddr, _⟩ := ehdr_congr hroom h.same hn
    have hfields : ∀ k len, 0 < len → k + len ≤ 46 → Inside b n (b + k) len :=
        fun k len hpos hend =>
      (inside_header hroom hpos (by omega)).2 (by omega)
    unfold headersReads
    simp only [hphnum, haddr]
    rw [allInside_cons, and_iff_right (hfields 44 2 (by omega) (by omega))]
    cases Nat.lt_or_ge i (Ehdr.read m b).phnum with
    | inr hend =>
      rw [if_neg (by omega)]
      refine iff_of_true (allInside_nil.2 trivial) ?_
      intro l hl hlt
      omega
    | inl hi =>
      rw [if_pos hi, forall_until_iff hi]
      simp only [List.cons_append, List.nil_append]
      rw [allInside_cons, allInside_cons, and_iff_right (hfields 28 4 (by omega) (by omega)),
        and_iff_right (hfields 42 2 (by omega) (by omega))]
      apply headerReads_iff h
      · intro hother
        exact ih (by omega) (h.skip hother)
      · intro hin hload hnot
        exact ih (by omega) (h.loadSegment hin hload hnot (hapart i hi hin hload hnot).1)

/-- Where the headers that it comes to lie inside the file, the loop ends behind the last one or
at the first that is refused. -/
theorem loadHeaders_followed (hn : 46 ≤ n) (hapart : Apart m b n) {fuel i : Nat} {s : State}
    (hfuel : (Ehdr.read m b).phnum ≤ i + fuel) (hi : i ≤ (Ehdr.read m b).phnum)
    (h : Followed m b n i s)
    (hin : ∀ l, i ≤ l → l < (Ehdr.read m b).phnum → (∀ j, i ≤ j → j < l → ¬ Refused m b j) →
      PhdrInside m b n l) :
    ∃ l t, i ≤ l ∧ l ≤ (Ehdr.read m b).phnum ∧ (∀ j, i ≤ j → j < l → ¬ Refused m b j) ∧
      (l < (Ehdr.read m b).phnum → Refused m b l) ∧
      loadHeaders b fuel i s = (t, decide (l = (Ehdr.read m b).phnum)) ∧ Followed m b n l t := by
  have hover : i = (Ehdr.read m b).phnum →
      ∃ l t, i ≤ l ∧ l ≤ (Ehdr.read m b).phnum ∧ (∀ j, i ≤ j → j < l → ¬ Refused m b j) ∧
        (l < (Ehdr.read m b).phnum → Refused m b l) ∧
        (s, true) = (t, decide (l = (Ehdr.read m b).phnum)) ∧ Followed m b n l t := by
    intro heq
    refine ⟨i, s, Nat.le_refl _, hi, ?_, ?_, by rw [decide_eq_true heq], h⟩
    · intro j hj hji
      omega
    · intro hlt
      omega
  induction fuel generalizing i s with
  | zero => exact hover (by omega)
  | succ fuel ih =>
    obtain ⟨hphnum, haddr, _⟩ := ehdr_congr hroom h.same hn
    unfold loadHeaders
    simp only [hphnum, haddr]
    cases Nat.lt_or_ge i (Ehdr.read m b).phnum with
    | inr hend =>
      rw [if_neg (by omega)]
      exact hover (by omega)
    | inl hlt =>
      have hhere := hin i (Nat.le_refl _) hlt fun j hj hji => by omega
      obtain ⟨htype, hfields⟩ := hhere.read h.same
      have hcontinue : ∀ s', ¬ Refused m b i → Followed m b n (i + 1) s' →
          ∃ l t, i ≤ l ∧ l ≤ (Ehdr.read m b).phnum ∧ (∀ j, i ≤ j → j < l → ¬ Refused m b j) ∧
            (l < (Ehdr.read m b).phnum → Refused m b l) ∧
            loadHeaders b fuel (i + 1) s' = (t, decide (l = (Ehdr.read m b).phnum)) ∧
            Followed m b n l t := by
        intro s' hnot hnext
        have hbefore : ∀ l, (∀ j, i + 1 ≤ j → j < l → ¬ Refused m b j) →
            ∀ j, i ≤ j → j < l → ¬ Refused m b j := by
          intro l hlater j hj hjl
          cases Nat.eq_or_lt_of_le hj with
          | inl heq => exact heq ▸ hnot
          | inr hlt' => exact hlater j hlt' hjl
        have hrest : ∀ l, i + 1 ≤ l → l < (Ehdr.read m b).phnum →
            (∀ j, i + 1 ≤ j → j < l → ¬ Refused m b j) → PhdrInside m b n l :=
          fun l hl hlt' hlater => hin l (by omega) hlt' (hbefore l hlater)
        obtain ⟨l, t, hl, hle, hlater, hstop, heq, hfollowed⟩ := ih (by omega) hlt hnext hrest (by
          intro heq
          refine ⟨i + 1, s', Nat.le_refl _, hlt, ?_, ?_, by rw [decide_eq_true heq], hnext⟩
          · intro j hj hji
            omega
          · intro hlt'
            omega)
        exact ⟨l, t, by omega, hle, hbefore l hlater, hstop, heq, hfollowed⟩
      rw [if_pos hlt, htype]
      cases Classical.em ((phdr m b i).type = PT_LOAD) with
      | inr hother =>
        rw [if_neg hother]
        exact hcontinue s (fun href => hother href.1) (h.skip hother)
      | inl hload =>
        obtain ⟨hmemsz, hfilesz, _⟩ := hfields hload
        rw [if_pos hload, hmemsz, hfilesz]
        cases Classical.em ((phdr m b i).memsz < (phdr m b i).filesz) with
        | inl hsmall =>
          rw [if_pos hsmall]
          refine ⟨i, s, Nat.le_refl _, hi, ?_, fun _ => ⟨hload, hsmall⟩, ?_, h⟩
          · intro j hj hji
            omega
          · rw [decide_eq_false (by omega)]
        | inr hle =>
          have hnot : ¬ Refused m b i := fun href => hle href.2
          rw [if_neg hle]
          exact hcontinue _ hnot
            (h.loadSegment hhere hload hnot (hapart i hlt hhere hload hnot).1)

/-! ### The section headers -/

theorem sectionsReads_iff {m' : Memory} (hsame : SameOn (InFile b n) m m') (hn : 50 ≤ n) :
    AllInside b n (sectionsReads m' b) ↔ ∀ i < (Ehdr.read m b).shnum, ShdrInside m b n i := by
  obtain ⟨hshnum, haddr⟩ := shdr_congr hroom hsame hn
  have hfields : ∀ k len, 0 < len → k + len ≤ 50 → Inside b n (b + k) len := fun k len hpos hend =>
    (inside_header hroom hpos (by omega)).2 (by omega)
  unfold sectionsReads
  rw [allInside_cons, and_iff_right (hfields 48 2 (by omega) (by omega)), hshnum, allInside_flatMap]
  simp only [List.mem_range]
  refine forall₂_congr fun i hi => ?_
  unfold sectionReads
  simp only [haddr, List.cons_append, List.nil_append, allInside_cons]
  rw [and_iff_right (hfields 32 4 (by omega) (by omega)),
    and_iff_right (hfields 46 2 (by omega) (by omega))]
  cases Classical.em (Inside b n (shdrAddr m b i + 4) 4) with
  | inr hout => exact iff_of_false (fun hand => hout hand.1) fun hin => hout hin.type
  | inl htypeIn =>
    have htype : (Shdr.read m' (shdrAddr m b i)).type = (shdr m b i).type :=
      load32_congr hsame htypeIn
    rw [and_iff_right htypeIn, htype]
    cases Classical.em ((shdr m b i).type = SHT_SYNSYM ∨ (shdr m b i).type = SHT_REL) with
    | inl hread =>
      rw [if_pos hread, allInside_cons]
      constructor
      · intro hand
        exact ⟨htypeIn, fun _ => hand.1⟩
      · intro hin
        exact ⟨hin.place hread, allInside_nil.2 trivial⟩
    | inr hother =>
      rw [if_neg hother]
      exact iff_of_true (allInside_nil.2 trivial) ⟨htypeIn, fun hread => absurd hread hother⟩

theorem sections_followed {m' : Memory} (hsame : SameOn (InFile b n) m m') (hn : 50 ≤ n)
    (hin : ∀ i < (Ehdr.read m b).shnum, ShdrInside m b n i) : sections m' b = sections m b := by
  obtain ⟨hshnum, haddr⟩ := shdr_congr hroom hsame hn
  unfold sections
  rw [hshnum]
  apply List.foldl_ext
  intro t i hi
  have hhere := hin i (List.mem_range.1 hi)
  have htype : (Shdr.read m' (shdrAddr m b i)).type = (shdr m b i).type :=
    load32_congr hsame hhere.type
  have hplace : (shdr m b i).type = SHT_SYNSYM ∨ (shdr m b i).type = SHT_REL →
      (Shdr.read m' (shdrAddr m b i)).offset = (shdr m b i).offset ∧
        (Shdr.read m' (shdrAddr m b i)).size = (shdr m b i).size := by
    intro hread
    have hbytes := hhere.place hread
    exact ⟨load32_congr hsame (hbytes.take (by omega)),
      load32_congr hsame (Within.shift (k := 4) hbytes (by omega))⟩
  unfold readSection
  simp only [haddr, htype]
  split
  · rename_i hsym
    obtain ⟨hoffset, hsize⟩ := hplace (.inl hsym)
    rw [hoffset, hsize]
    exact (if_pos hsym).symm
  · rename_i hnsym
    split
    · rename_i hrel
      obtain ⟨hoffset, hsize⟩ := hplace (.inr hrel)
      rw [hoffset, hsize]
      exact (if_neg hnsym).trans (if_pos hrel) |>.symm
    · rename_i hnrel
      exact ((if_neg hnsym).trans (if_neg hnrel)).symm

end Headers

/-! ### The relocations -/

/-- The word that a relocation patches does not lie over the file. -/
def PatchesApart (b n : Nat) (segs : List Segment) : Prop :=
  ∀ v < 2 ^ 32, translateAddr segs v ≠ 0 →
    Within (fun x => ¬ InFile b n x) (translateAddr segs v) 4

section Relocations
variable {m : Memory} {b n : Nat}

theorem mem_segmentsOf {i : Nat} {seg : Segment} (h : seg ∈ segmentsOf m b i) :
    ∃ j < i, (phdr m b j).type = PT_LOAD ∧ seg = segmentOf m b j := by
  obtain ⟨j, hj, hseg⟩ := List.mem_flatMap.1 h
  split at hseg
  · rename_i htype
    exact ⟨j, List.mem_range.1 hj, htype, List.mem_singleton.1 hseg⟩
  · exact absurd hseg (List.not_mem_nil)

theorem patchesApart (hapart : Apart m b n)
    (hin : ∀ i < (Ehdr.read m b).phnum, PhdrInside m b n i ∧ ¬ Refused m b i) :
    PatchesApart b n (segmentsOf m b (Ehdr.read m b).phnum) := by
  intro v hv hne
  unfold translateAddr at hne ⊢
  cases hfind : (segmentsOf m b (Ehdr.read m b).phnum).find? fun seg => contains seg v with
  | none =>
    rw [hfind] at hne
    exact absurd rfl hne
  | some seg =>
    have hcontains := List.find?_some hfind
    obtain ⟨i, hi, htype, heq⟩ := mem_segmentsOf (List.mem_of_find?_eq_some hfind)
    obtain ⟨_, hsize⟩ := hapart i hi (hin i hi).1 htype (hin i hi).2
    simp only [contains, heq, segmentOf, Bool.and_eq_true, decide_eq_true_eq] at hcontains
    obtain ⟨hlow, hhigh⟩ := hcontains
    have hle := Nat.mod_le ((phdr m b i).vaddr + segmentSize (phdr m b i).memsz) (2 ^ 32)
    intro k hk
    have hword := hsize (v - (phdr m b i).vaddr + k) (by omega)
    simp only [heq, segmentOf]
    have hsum : (phdr m b i).vaddr + (v - (phdr m b i).vaddr + k) = v + k := by omega
    have hback : (v - (phdr m b i).vaddr + (phdr m b i).vaddr) % 2 ^ 32 = v := by omega
    rw [hback, ← hsum]
    exact hword

variable {i : Nat} {s : State}

theorem Followed.relocateEntry (h : Followed m b n i s)
    (hpatches : PatchesApart b n (segmentsOf m b i)) (t : Tables) (j : Nat) :
    Followed m b n i (Loader.relocateEntry t j s).1 := by
  rcases relocateEntry_cases t j s with heq | ⟨v, value, heq, hv, hne⟩
  · rw [heq]
    exact h
  · rw [heq]
    rw [h.segments] at hne ⊢
    exact ⟨h.same.trans (store32_sameOn (hpatches v hv hne)), h.segments, h.symbols⟩

theorem printed_iff {m' : Memory} (hsame : SameOn (InFile b n) m m') (t : Tables) (i : Nat) :
    AllInside b n [⟨symAddr t i, 4⟩,
      stringAccess m' (t.symName + (Sym.read m' (symAddr t i)).name)] ↔
      Inside b n (symAddr t i) 4 ∧ Inside b n (t.symName + (symAt m t i).name)
        (stringSpan m (2 ^ 32) (t.symName + (symAt m t i).name)) := by
  rw [allInside_cons, allInside_cons, allInside_nil, and_true]
  refine and_congr_right fun hc => ?_
  have hname : (Sym.read m' (symAddr t i)).name = (symAt m t i).name := load32_congr hsame hc
  rw [hname]
  exact stringSpan_within_iff hsame

/-- What a turn reads to find a symbol that has no value. -/
def lookupReads (t : Tables) (j : Nat) (s : State) : List Access :=
  let sym := (relAt s.mem t j).sym
  if (relAt s.mem t j).type = R_386_PC32 ∧ (symAt s.mem t sym).value = 0 then
    ⟨symAddr t sym, 4⟩ :: getAddrReads s.mem (t.symName + (symAt s.mem t sym).name) s.symbols
  else []

theorem relocateEntryReads_symbolic {t : Tables} {j : Nat} (hsymbolic : Symbolic s.mem t j) :
    relocateEntryReads t j s = ⟨relAddr t j + 4, 4⟩ ::
      if t.symCount ≤ (relAt s.mem t j).sym then []
      else ⟨relAddr t j, 4⟩ ::
        if target t j s = 0 then []
        else ⟨symAddr t (relAt s.mem t j).sym + 4, 4⟩ :: (lookupReads t j s ++
          if symbolAddr t j s = 0 then []
          else [⟨symAddr t (relAt s.mem t j).sym, 4⟩,
            stringAccess (relocateEntry t j s).1.mem (t.symName +
              (Sym.read (relocateEntry t j s).1.mem (symAddr t (relAt s.mem t j).sym)).name)]) := by
  unfold relocateEntryReads lookupReads symbolAddr target
  rcases hsymbolic with h32 | hpc
  · have hnot : ¬ ((relAt s.mem t j).type = R_386_PC32 ∧
        (symAt s.mem t (relAt s.mem t j).sym).value = 0) := by
      rw [h32]
      exact fun hand => absurd hand.1 (by decide)
    simp only [if_neg hnot, List.nil_append]
    exact congrArg _ (if_pos h32)
  · have h32 : (relAt s.mem t j).type ≠ R_386_32 := by
      rw [hpc]
      decide
    refine congrArg _ ((if_neg h32).trans ((if_pos hpc).trans ?_))
    cases Classical.em ((symAt s.mem t (relAt s.mem t j).sym).value = 0) with
    | inl hzero =>
      simp only [if_pos (And.intro hpc hzero)]
      unfold symAt relAt at *
      simp only [hzero, ne_eq, not_true_eq_false, if_false, List.cons_append]
    | inr hvalue =>
      simp only [if_neg fun hand : _ ∧ _ => hvalue hand.2, List.nil_append]
      unfold symAt relAt at *
      simp only [ne_eq, hvalue, not_false_eq_true, if_true]

theorem relocateEntryReads_plain {t : Tables} {j : Nat} (hplain : ¬ Symbolic s.mem t j) :
    relocateEntryReads t j s = [⟨relAddr t j + 4, 4⟩, ⟨relAddr t j, 4⟩] := by
  obtain ⟨h32, hpc⟩ := not_or.1 hplain
  exact congrArg _ ((if_neg h32).trans (if_neg hpc))

namespace Followed
variable (h : Followed m b n i s) {t : Tables} {j : Nat}
include h

theorem relKind (hinfo : Inside b n (relAddr t j + 4) 4) :
    (relAt s.mem t j).type = (relAt m t j).type ∧ (relAt s.mem t j).sym = (relAt m t j).sym := by
  have hword : (relAt s.mem t j).info = (relAt m t j).info := load32_congr h.same hinfo
  unfold Rel.type Rel.sym
  rw [hword]
  exact ⟨rfl, rfl⟩

theorem symbolic_iff (hinfo : Inside b n (relAddr t j + 4) 4) :
    Symbolic s.mem t j ↔ Symbolic m t j := by
  unfold Symbolic
  rw [(h.relKind hinfo).1]

theorem target_eq (hoffset : Inside b n (relAddr t j) 4) :
    target t j s = translateAddr (segmentsOf m b i) (relAt m t j).offset := by
  have hword : (relAt s.mem t j).offset = (relAt m t j).offset := load32_congr h.same hoffset
  unfold target
  rw [h.segments, hword]

section Symbol
variable (hinfo : Inside b n (relAddr t j + 4) 4)
  (hvalue : Inside b n (symAddr t (relAt m t j).sym + 4) 4)
include hinfo hvalue

theorem unvalued_iff : ((relAt s.mem t j).type = R_386_PC32 ∧
    (symAt s.mem t (relAt s.mem t j).sym).value = 0) ↔ Unvalued m t j := by
  have hword : (symAt s.mem t (relAt m t j).sym).value = (symAt m t (relAt m t j).sym).value :=
    load32_congr h.same hvalue
  obtain ⟨htype, hsym⟩ := h.relKind hinfo
  unfold Unvalued
  rw [htype, hsym, hword]

/-- The loader has no symbols yet, so one without a value is not found. -/
theorem symbolAddr_unvalued (hun : Unvalued m t j) : symbolAddr t j s = 0 := by
  unfold symbolAddr
  simp only
  rw [if_pos ((h.unvalued_iff hinfo hvalue).2 hun)]
  unfold getAddr
  rw [h.symbols]
  rfl

theorem symbolAddr_valued (hvalued : ¬ Unvalued m t j) :
    symbolAddr t j s = translateAddr (segmentsOf m b i) (symAt m t (relAt m t j).sym).value := by
  have hword : (symAt s.mem t (relAt m t j).sym).value = (symAt m t (relAt m t j).sym).value :=
    load32_congr h.same hvalue
  unfold symbolAddr
  simp only
  rw [if_neg fun hand => hvalued ((h.unvalued_iff hinfo hvalue).1 hand), (h.relKind hinfo).2, hword,
    h.segments]

theorem symbolAddr_ne_zero : symbolAddr t j s ≠ 0 ↔ ¬ Unvalued m t j ∧
    translateAddr (segmentsOf m b i) (symAt m t (relAt m t j).sym).value ≠ 0 := by
  cases Classical.em (Unvalued m t j) with
  | inl hun =>
    rw [h.symbolAddr_unvalued hinfo hvalue hun]
    exact iff_of_false (fun hne => hne rfl) fun hand => hand.1 hun
  | inr hvalued =>
    rw [h.symbolAddr_valued hinfo hvalue hvalued]
    exact (and_iff_right hvalued).symm

theorem usedReads_iff (hpatches : PatchesApart b n (segmentsOf m b i)) :
    AllInside b n (lookupReads t j s ++
      if symbolAddr t j s = 0 then []
      else [⟨symAddr t (relAt m t j).sym, 4⟩,
        stringAccess (Loader.relocateEntry t j s).1.mem (t.symName +
          (Sym.read (Loader.relocateEntry t j s).1.mem (symAddr t (relAt m t j).sym)).name)]) ↔
      SymbolInside m b n (segmentsOf m b i) t j (relAt m t j).sym := by
  have hprinted := printed_iff (h.relocateEntry hpatches t j).same t (relAt m t j).sym
  have hsym := (h.relKind hinfo).2
  have hun := h.unvalued_iff hinfo hvalue
  rw [allInside_append]
  unfold lookupReads SymbolInside
  simp only [hsym] at hun ⊢
  rw [and_iff_right hvalue]
  cases Classical.em (Unvalued m t j) with
  | inl hunvalued =>
    rw [if_pos (hun.2 hunvalued), h.symbols, h.symbolAddr_unvalued hinfo hvalue hunvalued,
      if_pos rfl]
    constructor
    · intro hand
      exact ⟨fun _ => (allInside_cons.1 hand.1).1, fun hvalued => absurd hunvalued hvalued⟩
    · intro hand
      exact ⟨allInside_cons.2 ⟨hand.1 hunvalued, allInside_nil.2 trivial⟩, allInside_nil.2 trivial⟩
  | inr hvalued =>
    rw [if_neg fun hand => hvalued (hun.1 hand), h.symbolAddr_valued hinfo hvalue hvalued,
      and_iff_right (allInside_nil.2 trivial)]
    split
    · rename_i hzero
      exact iff_of_true (allInside_nil.2 trivial)
        ⟨fun hunvalued => absurd hunvalued hvalued, fun _ hne => absurd hzero hne⟩
    · rename_i hne
      rw [hprinted]
      exact ⟨fun hand => ⟨fun hunvalued => absurd hunvalued hvalued, fun _ _ => hand⟩,
        fun hand => hand.2 hvalued hne⟩

end Symbol

/-- A turn reads no byte outside the file exactly where the relocation and what it uses of its
symbol lie inside. -/
theorem relocateEntryReads_iff (hpatches : PatchesApart b n (segmentsOf m b i)) (t : Tables)
    (j : Nat) :
    AllInside b n (relocateEntryReads t j s) ↔ RelInside m b n (segmentsOf m b i) t j := by
  cases Classical.em (Inside b n (relAddr t j + 4) 4) with
  | inr hout =>
    refine iff_of_false ?_ fun hin => hout hin.info
    intro hall
    exact hout (allInside_cons.1 hall).1
  | inl hinfo =>
    obtain ⟨_, hsym⟩ := h.relKind hinfo
    cases Classical.em (Symbolic m t j) with
    | inr hplain =>
      rw [relocateEntryReads_plain fun hs => hplain ((h.symbolic_iff hinfo).1 hs), allInside_cons,
        allInside_cons, and_iff_right hinfo]
      constructor
      · intro hand
        exact ⟨hinfo, fun _ => hand.1, fun hs => absurd hs hplain⟩
      · intro hin
        exact ⟨hin.offset fun hs => absurd hs hplain, allInside_nil.2 trivial⟩
    | inl hsymbolic =>
      rw [relocateEntryReads_symbolic ((h.symbolic_iff hinfo).2 hsymbolic), hsym, allInside_cons,
        and_iff_right hinfo]
      cases Nat.lt_or_ge (relAt m t j).sym t.symCount with
      | inr hlarge =>
        rw [if_pos hlarge]
        exact iff_of_true (allInside_nil.2 trivial)
          ⟨hinfo, fun hlt => absurd (hlt hsymbolic) (by omega), fun _ hlt => absurd hlt (by omega)⟩
      | inl hsmall =>
        rw [if_neg (by omega), allInside_cons]
        cases Classical.em (Inside b n (relAddr t j) 4) with
        | inr hout =>
          exact iff_of_false (fun hand => hout hand.1) fun hin => hout (hin.offset fun _ => hsmall)
        | inl hplace =>
          rw [and_iff_right hplace, h.target_eq hplace]
          cases Classical.em (translateAddr (segmentsOf m b i) (relAt m t j).offset = 0) with
          | inl hzero =>
            rw [if_pos hzero]
            exact iff_of_true (allInside_nil.2 trivial)
              ⟨hinfo, fun _ => hplace, fun _ _ hne => absurd hzero hne⟩
          | inr hne =>
            rw [if_neg hne, allInside_cons]
            cases Classical.em (Inside b n (symAddr t (relAt m t j).sym + 4) 4) with
            | inr hout =>
              exact iff_of_false (fun hand => hout hand.1)
                fun hin => hout (hin.symbol hsymbolic hsmall hne).1
            | inl hvalue =>
              rw [and_iff_right hvalue, h.usedReads_iff hinfo hvalue hpatches]
              exact ⟨fun hin => ⟨hinfo, fun _ => hplace, fun _ _ _ => hin⟩,
                fun hin => hin.symbol hsymbolic hsmall hne⟩

/-- A turn whose reads lie inside the file patches where the file says so. -/
theorem patches_iff (hin : RelInside m b n (segmentsOf m b i) t j) :
    Patches t j s ↔ Applies m (segmentsOf m b i) t j := by
  obtain ⟨htype, hsym⟩ := h.relKind hin.info
  unfold Patches Applies
  rw [h.symbolic_iff hin.info, htype, hsym]
  cases Classical.em (Symbolic m t j → (relAt m t j).sym < t.symCount) with
  | inl hsmall =>
    rw [h.target_eq (hin.offset hsmall)]
    refine and_congr_right fun hne => or_congr_right (and_congr_right fun hs =>
      and_congr_right fun hlt => ?_)
    exact h.symbolAddr_ne_zero hin.info (hin.symbol hs hlt hne).1
  | inr hlarge =>
    -- The index is that of no symbol, and the entry has one.
    obtain ⟨hs, hge⟩ := Classical.not_imp.1 hlarge
    exact iff_of_false (fun hand => hge (hand.2.resolve_left hs.not_relative).2.1)
      fun hand => hge (hand.2.resolve_left hs.not_relative).2.1

theorem relocateEntry_applies (hin : RelInside m b n (segmentsOf m b i) t j) :
    (Loader.relocateEntry t j s).2 = true ↔ Applies m (segmentsOf m b i) t j := by
  rw [← h.patches_iff hin, relocateEntry_eq]
  split
  · rename_i hpatch
    exact iff_of_true rfl hpatch
  · rename_i hpatch
    exact iff_of_false (by simp) hpatch

end Followed

theorem relocateEntriesReads_iff {t : Tables} {count j : Nat} (h : Followed m b n i s)
    (hpatches : PatchesApart b n (segmentsOf m b i)) :
    AllInside b n (relocateEntriesReads t count j s) ↔
      ∀ l, j ≤ l → l < j + count → (∀ k, j ≤ k → k < l → Applies m (segmentsOf m b i) t k) →
        RelInside m b n (segmentsOf m b i) t l := by
  induction count generalizing j s with
  | zero =>
    refine iff_of_true (allInside_nil.2 trivial) ?_
    intro l hl hlt
    omega
  | succ count ih =>
    have hend : j + (count + 1) = j + 1 + count := by omega
    have hnext := h.relocateEntry hpatches t j
    unfold relocateEntriesReads
    rw [allInside_append, h.relocateEntryReads_iff hpatches, forall_until_iff (by omega), hend]
    refine and_congr_right fun hhere => ?_
    have hiff := h.relocateEntry_applies hhere
    cases hresult : relocateEntry t j s with
    | mk s' ok =>
      rw [hresult] at hiff hnext
      cases ok with
      | false =>
        refine iff_of_true (allInside_nil.2 trivial) ?_
        intro happlies
        exact absurd (hiff.2 happlies) (by simp)
      | true => exact (ih hnext).trans ⟨fun hall _ => hall, fun hall => hall (hiff.1 rfl)⟩

/-- The loop over the relocations ends behind the last one where all of them apply. -/
theorem relocateEntries_followed {t : Tables} {count j : Nat} (h : Followed m b n i s)
    (hpatches : PatchesApart b n (segmentsOf m b i))
    (hin : ∀ l, j ≤ l → l < j + count → (∀ k, j ≤ k → k < l → Applies m (segmentsOf m b i) t k) →
      RelInside m b n (segmentsOf m b i) t l) :
    Followed m b n i (relocateEntries t count j s).1 ∧
      ((relocateEntries t count j s).2 = true ↔
        ∀ l, j ≤ l → l < j + count → Applies m (segmentsOf m b i) t l) := by
  induction count generalizing j s with
  | zero =>
    refine ⟨h, iff_of_true rfl ?_⟩
    intro l hl hlt
    omega
  | succ count ih =>
    have hhere := hin j (Nat.le_refl _) (by omega) fun k hk hkl => by omega
    have hiff := h.relocateEntry_applies hhere
    have hnext := h.relocateEntry hpatches t j
    unfold relocateEntries
    cases hresult : relocateEntry t j s with
    | mk s' ok =>
      rw [hresult] at hiff hnext
      cases ok with
      | false =>
        refine ⟨hnext, iff_of_false (by simp) ?_⟩
        intro hall
        exact absurd (hiff.2 (hall j (Nat.le_refl _) (by omega))) (by simp)
      | true =>
        have happlied := hiff.1 rfl
        have hrest := ih hnext (j := j + 1) fun l hl hlt hbefore =>
          hin l (by omega) (by omega) fun k hk hkl => by
            cases Nat.eq_or_lt_of_le hk with
            | inl heq => exact heq ▸ happlied
            | inr hlater => exact hbefore k hlater hkl
        refine ⟨hrest.1, hrest.2.trans ?_⟩
        constructor
        · intro hall l hl hlt
          cases Nat.eq_or_lt_of_le hl with
          | inl heq => exact heq ▸ happlied
          | inr hlater => exact hall l hlater (by omega)
        · intro hall l hl hlt
          exact hall l (by omega) (by omega)

theorem symbolReads_iff {m' : Memory} (hsame : SameOn (InFile b n) m m') (t : Tables) (l : Nat) :
    AllInside b n (symbolReads t m' l) ↔ SymInside m b n t l := by
  unfold symbolReads
  simp only [allInside_cons]
  cases Classical.em (Inside b n (symAddr t l) 4) with
  | inr hout => exact iff_of_false (fun hand => hout hand.1) fun hin => hout hin.name
  | inl hname =>
    have heq : (Sym.read m' (symAddr t l)).name = (symAt m t l).name := load32_congr hsame hname
    rw [and_iff_right hname, heq]
    split
    · rename_i hzero
      exact iff_of_true (allInside_nil.2 trivial) ⟨hname, fun hne => absurd hzero hne⟩
    · rename_i hne
      rw [allInside_cons, allInside_nil, and_true]
      exact ⟨fun hin => ⟨hname, fun _ => hin⟩, fun hin => hin.value hne⟩

end Relocations

/-! ### The whole file -/

section Whole
variable {m : Memory} {b n : Nat} (hroom : b + n ≤ 2 ^ 32)
include hroom

omit hroom in
theorem followed_init : Followed m b n 0 (init m) := ⟨.refl _ _, rfl, rfl⟩

theorem relocateReads_iff (hn : 46 ≤ n) (hapart : Apart m b n)
    (hheaders : ∀ i < (Ehdr.read m b).phnum, PhdrInside m b n i ∧ ¬ Refused m b i) {s : State}
    (h : Followed m b n (Ehdr.read m b).phnum s) :
    AllInside b n (relocateReads b s) ↔
      50 ≤ n ∧ (∀ i < (Ehdr.read m b).shnum, ShdrInside m b n i) ∧
      (∀ j < (sections m b).relCount,
        (∀ i < j, Applies m (segmentsOf m b (Ehdr.read m b).phnum) (sections m b) i) →
          RelInside m b n (segmentsOf m b (Ehdr.read m b).phnum) (sections m b) j) ∧
      ((∀ i < (sections m b).relCount,
        Applies m (segmentsOf m b (Ehdr.read m b).phnum) (sections m b) i) →
          ∀ i < (sections m b).symCount, SymInside m b n (sections m b) i) := by
  have hpatches := patchesApart hapart hheaders
  unfold relocateReads
  simp only [allInside_append]
  cases Nat.lt_or_ge n 50 with
  | inl hshort =>
    refine iff_of_false ?_ fun hand => by omega
    intro hand
    have hcount : Inside b n (b + 48) 2 := hand.1.1 ⟨b + 48, 2⟩ List.mem_cons_self
    rw [inside_header hroom (by omega) (by omega)] at hcount
    omega
  | inr hlong =>
    rw [and_iff_right hlong, sectionsReads_iff hroom h.same hlong]
    cases Classical.em (∀ i < (Ehdr.read m b).shnum, ShdrInside m b n i) with
    | inr hout => exact iff_of_false (fun hand => hout hand.1.1) fun hand => hout hand.1
    | inl hshdrs =>
      rw [and_iff_right hshdrs, and_iff_right hshdrs, sections_followed hroom h.same hlong hshdrs,
        relocateEntriesReads_iff h hpatches]
      have hrange : ∀ p : Nat → Prop, (∀ l, 0 ≤ l → l < 0 + (sections m b).relCount → p l) ↔
          ∀ l < (sections m b).relCount, p l := by
        intro p
        simp only [Nat.zero_le, true_implies, Nat.zero_add]
      rw [hrange]
      simp only [Nat.zero_le, true_implies]
      refine and_congr_right fun hrels => ?_
      have hreached : ∀ l, 0 ≤ l → l < 0 + (sections m b).relCount → (∀ k, 0 ≤ k → k < l →
          Applies m (segmentsOf m b (Ehdr.read m b).phnum) (sections m b) k) →
            RelInside m b n (segmentsOf m b (Ehdr.read m b).phnum) (sections m b) l :=
        fun l _ hl hbefore => hrels l (by omega) fun k hk => hbefore k (Nat.zero_le _) hk
      obtain ⟨hafter, happlied⟩ := relocateEntries_followed h hpatches hreached
      rw [hrange] at happlied
      cases hresult : relocateEntries (sections m b) (sections m b).relCount 0 s with
      | mk s' ok =>
        rw [hresult] at hafter happlied
        cases ok with
        | false =>
          refine iff_of_true (allInside_nil.2 trivial) ?_
          intro hall
          exact absurd (happlied.2 hall) (by simp)
        | true =>
          rw [allInside_flatMap]
          simp only [List.mem_range, symbolReads_iff hafter.same]
          exact ⟨fun hall _ => hall, fun hall => hall (happlied.1 rfl)⟩

theorem imageReads_iff (haccepted : Accepted m b) (hapart : Apart m b n) :
    AllInside b n (⟨b, 4⟩ :: ⟨b + 18, 2⟩ :: ⟨b + 16, 2⟩ :: (headersReads b (2 ^ 16) 0 (init m) ++
      match loadHeaders b (2 ^ 16) 0 (init m) with
      | (_, false) => []
      | (s, true) => relocateReads b s ++ [⟨b + 24, 4⟩])) ↔ TablesInside m b n := by
  have hident : Inside b n b 4 ↔ 4 ≤ n := inside_header hroom (k := 0) (by omega) (by omega)
  rw [allInside_cons, allInside_cons, allInside_cons, allInside_append]
  cases Nat.lt_or_ge n 46 with
  | inl hshort =>
    refine iff_of_false ?_ fun hin => by
      have hlen := hin.header haccepted
      omega
    intro hand
    have hcount : Inside b n (b + 44) 2 := hand.2.2.2.1 ⟨b + 44, 2⟩ List.mem_cons_self
    rw [inside_header hroom (by omega) (by omega)] at hcount
    omega
  | inr hn =>
    have hfields : ∀ k len, 0 < len → k + len ≤ 46 → Inside b n (b + k) len :=
      fun k len hpos hend => (inside_header hroom hpos (by omega)).2 (by omega)
    rw [and_iff_right (hident.2 (by omega)), and_iff_right (hfields 18 2 (by omega) (by omega)),
      and_iff_right (hfields 16 2 (by omega) (by omega))]
    have hcount : (Ehdr.read m b).phnum ≤ 0 + 2 ^ 16 := by
      have hlt : (Ehdr.read m b).phnum < 2 ^ 16 := load16_lt
      omega
    rw [headersReads_iff hroom hn hapart hcount followed_init]
    cases Classical.em (∀ i < (Ehdr.read m b).phnum, (∀ j < i, ¬ Refused m b j) →
      PhdrInside m b n i) with
    | inr hout =>
      refine iff_of_false ?_ fun hin => hout (hin.phdrs haccepted)
      intro hand
      exact hout fun i hi hbefore => hand.1 i (Nat.zero_le _) hi fun j _ hj => hbefore j hj
    | inl hphdrs =>
      have hloop : ∀ l, 0 ≤ l → l < (Ehdr.read m b).phnum → (∀ j, 0 ≤ j → j < l → ¬ Refused m b j) →
          PhdrInside m b n l :=
        fun l _ hl hbefore => hphdrs l hl fun j hj => hbefore j (Nat.zero_le _) hj
      rw [and_iff_right hloop]
      obtain ⟨l, s, _, hle, hbefore, hstop, heq, hfollowed⟩ :=
        loadHeaders_followed hroom hn hapart hcount (Nat.zero_le _) followed_init hloop
      cases Nat.eq_or_lt_of_le hle with
      | inr hlt =>
        have hnot : ¬ Loadable m b := fun hload => hload.2 l hlt (hstop hlt)
        rw [heq, decide_eq_false (by omega)]
        refine iff_of_true (allInside_nil.2 trivial) ?_
        exact ⟨by omega, fun _ => by omega, fun _ => hn, fun _ => hphdrs,
          fun hload => absurd hload hnot,
          fun hload => absurd hload hnot, fun hload => absurd hload hnot,
          fun hload => absurd hload hnot⟩
      | inl hend =>
        have hnone : ∀ i < (Ehdr.read m b).phnum, ¬ Refused m b i :=
          fun i hi => hbefore i (Nat.zero_le _) (by omega)
        have hload : Loadable m b := ⟨haccepted, hnone⟩
        rw [heq, decide_eq_true hend]
        rw [hend] at hfollowed
        rw [allInside_append, allInside_cons, allInside_nil, and_true,
          and_iff_left (hfields 24 4 (by omega) (by omega)),
          relocateReads_iff hroom hn hapart
            (fun i hi => ⟨hphdrs i hi fun j hj => hnone j (by omega), hnone i hi⟩) hfollowed]
        constructor
        · intro hand
          obtain ⟨hcounts, hshdrs, hrels, hsyms⟩ := hand
          exact ⟨by omega, fun _ => by omega, fun _ => hn, fun _ => hphdrs, fun _ => hcounts,
            fun _ => hshdrs, fun _ => hrels, fun _ => hsyms⟩
        · intro hin
          exact ⟨hin.counts hload, hin.shdrs hload, hin.rels hload, hin.syms hload⟩

omit hroom in
theorem tablesInside_refused (hnot : ¬ Accepted m b) :
    TablesInside m b n ↔ 4 ≤ n ∧ ((Ehdr.read m b).ident = ELFMAG → 20 ≤ n) := by
  have hload : ¬ Loadable m b := fun hload => hnot hload.1
  constructor
  · intro hin
    exact ⟨hin.ident, hin.kind⟩
  · intro hand
    exact ⟨hand.1, hand.2, fun h => absurd h hnot, fun h => absurd h hnot, fun h => absurd h hload,
      fun h => absurd h hload, fun h => absurd h hload, fun h => absurd h hload⟩

end Whole

theorem loadReads_accepted_iff (file : File) (mem : Memory)
    (hroom : file.buffer + file.bytes.length ≤ 2 ^ 32)
    (haccepted : Accepted (storeBytes mem file.buffer file.bytes) file.buffer)
    (hapart : Apart (storeBytes mem file.buffer file.bytes) file.buffer file.bytes.length) :
    AllInside file.buffer file.bytes.length (loadReads file (init mem)) ↔
      TablesInside (storeBytes mem file.buffer file.bytes) file.buffer file.bytes.length := by
  obtain ⟨hident, hmachine, htype⟩ := haccepted
  have hinit : (init mem).mem = mem := rfl
  have hstored : ({ init mem with mem := storeBytes mem file.buffer file.bytes } : State) =
      init (storeBytes mem file.buffer file.bytes) := rfl
  unfold loadReads
  simp only [hinit, hstored]
  rw [if_neg (fun hne => hne hident), if_neg (fun hne => hne hmachine),
    if_neg (fun hne => hne htype)]
  exact imageReads_iff hroom ⟨hident, hmachine, htype⟩ hapart

theorem loadReads_refused_iff (file : File) (mem : Memory)
    (hroom : file.buffer + file.bytes.length ≤ 2 ^ 32)
    (hnot : ¬ Accepted (storeBytes mem file.buffer file.bytes) file.buffer) :
    AllInside file.buffer file.bytes.length (loadReads file (init mem)) ↔
      TablesInside (storeBytes mem file.buffer file.bytes) file.buffer file.bytes.length := by
  have hident : Inside file.buffer file.bytes.length file.buffer 4 ↔ 4 ≤ file.bytes.length :=
    inside_header hroom (k := 0) (by omega) (by omega)
  have hmachine : Inside file.buffer file.bytes.length (file.buffer + 18) 2 ↔
      20 ≤ file.bytes.length := inside_header hroom (by omega) (by omega)
  have htype : Inside file.buffer file.bytes.length (file.buffer + 16) 2 ↔
      18 ≤ file.bytes.length := inside_header hroom (by omega) (by omega)
  have hinit : (init mem).mem = mem := rfl
  rw [tablesInside_refused hnot]
  unfold loadReads
  simp only [hinit]
  cases Classical.em ((Ehdr.read (storeBytes mem file.buffer file.bytes) file.buffer).ident =
    ELFMAG) with
  | inr hother =>
    rw [if_pos hother, allInside_cons, allInside_nil, and_true, hident]
    exact ⟨fun hlen => ⟨hlen, fun heq => absurd heq hother⟩, fun hand => hand.1⟩
  | inl heq =>
    rw [if_neg (fun hne => hne heq)]
    cases Classical.em ((Ehdr.read (storeBytes mem file.buffer file.bytes) file.buffer).machine =
      EM_386) with
    | inr hother =>
      rw [if_pos hother, allInside_cons, allInside_cons, allInside_nil, and_true, hident, hmachine]
      exact ⟨fun hand => ⟨hand.1, fun _ => hand.2⟩, fun hand => ⟨hand.1, hand.2 heq⟩⟩
    | inl hmach =>
      have hother : (Ehdr.read (storeBytes mem file.buffer file.bytes) file.buffer).type ≠
          ET_EXEC :=
        fun hexec => hnot ⟨heq, hmach, hexec⟩
      rw [if_neg (fun hne => hne hmach), if_pos hother, allInside_cons, allInside_cons,
        allInside_cons, allInside_nil, and_true, hident, hmachine, htype]
      constructor
      · intro hand
        exact ⟨hand.1, fun _ => hand.2.1⟩
      · intro hand
        have hlong := hand.2 heq
        exact ⟨hand.1, hlong, by omega⟩

theorem tinyFile_phdr {i : Nat} (hi : i < (Ehdr.read (storeBytes (fun _ => 0) 0xF2000010
    (tinyElf [0, 0x80, 4, 8])) 0xF2000010).phnum) :
    phdr (storeBytes (fun _ => 0) 0xF2000010 (tinyElf [0, 0x80, 4, 8])) 0xF2000010 i =
      { type := PT_LOAD, offset := 0, vaddr := 0x08048000, filesz := 1, memsz := 1 } := by
  have hehdr : Ehdr.read (storeBytes (fun _ => 0) 0xF2000010 (tinyElf [0, 0x80, 4, 8])) 0xF2000010 =
      { ident := ELFMAG, type := ET_EXEC, machine := EM_386, entry := 0, phoff := 52, shoff := 0
        phentsize := 32, phnum := 1, shentsize := 0, shnum := 0 } := by
    decide +kernel
  have hphdr : Phdr.read (storeBytes (fun _ => 0) 0xF2000010 (tinyElf [0, 0x80, 4, 8])) 0xF2000044 =
      { type := PT_LOAD, offset := 0, vaddr := 0x08048000, filesz := 1, memsz := 1 } := by
    decide +kernel
  have haddr : phdrAddr (storeBytes (fun _ => 0) 0xF2000010 (tinyElf [0, 0x80, 4, 8]))
    0xF2000010 i =
      0xF2000044 := by
    simp only [hehdr] at hi
    simp only [phdrAddr, hehdr]
    omega
  unfold phdr
  rw [haddr, hphdr]

theorem tinyFile_apart :
    Apart (storeBytes (fun _ => 0) 0xF2000010 (tinyElf [0, 0x80, 4, 8])) 0xF2000010 84 := by
  intro i hi _ _ _
  rw [tinyFile_phdr hi]
  constructor
  · intro k hk
    unfold InFile
    simp only at hk ⊢
    omega
  · intro k hk
    unfold segmentSize at hk
    unfold InFile
    simp only at hk ⊢
    omega

theorem tinyFile_reads :
    AllInside 0xF2000010 84 (loadReads (tinyFile [0, 0x80, 4, 8]) (init fun _ => 0)) := by
  have hin : ∀ r ∈ loadReads (tinyFile [0, 0x80, 4, 8]) (init fun _ => 0), ∀ i < r.len,
      0xF2000010 ≤ (r.addr + i) % 2 ^ 32 ∧ (r.addr + i) % 2 ^ 32 < 0xF2000010 + 84 := by
    decide +kernel
  exact hin

theorem tinyFile_accepted :
    Accepted (storeBytes (fun _ => 0) 0xF2000010 (tinyElf [0, 0x80, 4, 8])) 0xF2000010 := by
  refine ⟨?_, ?_, ?_⟩
  all_goals decide +kernel

theorem tinyFile_tables :
    TablesInside (storeBytes (fun _ => 0) 0xF2000010 (tinyElf [0, 0x80, 4, 8])) 0xF2000010 84 := 
  (loadReads_accepted_iff (tinyFile [0, 0x80, 4, 8]) (fun _ => 0) (by decide) tinyFile_accepted
    tinyFile_apart).1 tinyFile_reads

/-- The first 60 bytes of the file, which end inside its program header. -/
def truncatedFile : File where
  filelen := some 60
  buffer := 0xF2000010
  result := 60
  bytes := (tinyElf [0, 0x80, 4, 8]).take 60

/-- The one segment, the byte 0x7F, goes to `e_phnum` of the header in the buffer. -/
def rewritingFile : File := tinyFile [0x3C, 0, 0, 0xF2]

theorem rewritingFile_tables : TablesInside
    (storeBytes (fun _ => 0) 0xF2000010 (tinyElf [0x3C, 0, 0, 0xF2])) 0xF2000010 84 := by
  have hehdr : Ehdr.read (storeBytes (fun _ => 0) 0xF2000010 (tinyElf [0x3C, 0, 0, 0xF2]))
      0xF2000010 =
      { ident := ELFMAG, type := ET_EXEC, machine := EM_386, entry := 0, phoff := 52, shoff := 0
        phentsize := 32, phnum := 1, shentsize := 0, shnum := 0 } := by
    decide +kernel
  have hphdr : Phdr.read (storeBytes (fun _ => 0) 0xF2000010 (tinyElf [0x3C, 0, 0, 0xF2]))
      0xF2000044 =
      { type := PT_LOAD, offset := 0, vaddr := 0xF200003C, filesz := 1, memsz := 1 } := by
    decide +kernel
  generalize storeBytes (fun _ => 0) 0xF2000010 (tinyElf [0x3C, 0, 0, 0xF2]) = m at hehdr hphdr
  have haddr : phdrAddr m 0xF2000010 0 = 0xF2000044 := by simp only [phdrAddr, hehdr]
  have hsections : sections m 0xF2000010 = ⟨0, 0, 0, 0, 0⟩ := by
    unfold sections
    rw [hehdr]
    rfl
  have hfields : ∀ k len, k + len ≤ 84 → Inside 0xF2000010 84 (0xF2000010 + k) len := by
    intro k len hend i hi
    unfold InFile
    omega
  constructor
  · decide
  · intro _
    decide
  · intro _
    decide
  · intro _ i hi _
    rw [hehdr] at hi
    obtain rfl : i = 0 := by
      simp only at hi
      omega
    constructor
    · rw [haddr]
      exact hfields 52 4 (by decide)
    · intro _
      rw [haddr]
      exact hfields 68 8 (by decide)
    · intro _ _
      rw [phdr, haddr, hphdr]
      exact ⟨hfields 56 8 (by decide), hfields 0 1 (by decide)⟩
  · intro _
    decide
  · intro _ i hi
    rw [hehdr] at hi
    exact absurd hi (Nat.not_lt_zero i)
  · intro _ j hj
    rw [hsections] at hj
    exact absurd hj (Nat.not_lt_zero j)
  · intro _ _ i hi
    rw [hsections] at hi
    exact absurd hi (Nat.not_lt_zero i)

end OsdevCourse.Loader
