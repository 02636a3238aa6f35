import OsdevCourse.LoaderFormulas

/-!
# What the scan of the sections finds

One set of variables takes the tables of the last section of each kind, and the string table
is taken to be right behind the symbols; `sh_link` is not read. For a file whose tables do not
overlap it is told here which layouts this is right for.
-/

namespace OsdevCourse.Loader

set_option autoImplicit false

open Elf

def SHT_SYMTAB : Nat := 2
def SHT_STRTAB : Nat := 3

section Defs
variable (m : Memory) (b n : Nat)

/-- `sh_link` -/
def shLink (i : Nat) : Nat := load32 m (shdrAddr m b i + 24)

/-- An entry of a section of relocations. -/
def relIn (i k : Nat) : Rel := Rel.read m (b + (shdr m b i).offset + k * Rel.size)

/-- An entry of a symbol table. -/
def symIn (i k : Nat) : Sym := Sym.read m (b + (shdr m b i).offset + k * Sym.size)

def UsesSymbol (r : Rel) : Prop := r.type = R_386_32 ∨ r.type = R_386_PC32

def IsTable (type : Nat) : Prop :=
  type = SHT_REL ∨ type = SHT_SYNSYM ∨ type = SHT_SYMTAB ∨ type = SHT_STRTAB

/-- The sections of a file of `n` bytes at the address `b`, a buffer of the kernel: the tables lie
in the file without overlap, there is at most one table of dynamic symbols, and links name what
they have to name. -/
structure SectionedFile : Prop where
  room : b + n ≤ 2 ^ 32
  high : 2 ^ 31 ≤ b
  inside : ∀ i < (Ehdr.read m b).shnum, IsTable (shdr m b i).type →
    (shdr m b i).offset + (shdr m b i).size ≤ n
  apart : ∀ i < (Ehdr.read m b).shnum, ∀ j < (Ehdr.read m b).shnum, i ≠ j →
    IsTable (shdr m b i).type → IsTable (shdr m b j).type →
    0 < (shdr m b i).size → 0 < (shdr m b j).size →
    (shdr m b i).offset + (shdr m b i).size ≤ (shdr m b j).offset ∨
      (shdr m b j).offset + (shdr m b j).size ≤ (shdr m b i).offset
  one : ∀ i < (Ehdr.read m b).shnum, ∀ j < (Ehdr.read m b).shnum,
    (shdr m b i).type = SHT_SYNSYM → (shdr m b j).type = SHT_SYNSYM → i = j
  rels : ∀ i < (Ehdr.read m b).shnum, (shdr m b i).type = SHT_REL →
    ∀ k < (shdr m b i).size / Rel.size, UsesSymbol (relIn m b i k) →
    shLink m b i < (Ehdr.read m b).shnum ∧
      ((shdr m b (shLink m b i)).type = SHT_SYNSYM ∨ (shdr m b (shLink m b i)).type = SHT_SYMTAB) ∧
      (relIn m b i k).sym < (shdr m b (shLink m b i)).size / Sym.size
  names : ∀ i < (Ehdr.read m b).shnum, (shdr m b i).type = SHT_SYNSYM →
    shLink m b i < (Ehdr.read m b).shnum ∧ (shdr m b (shLink m b i)).type = SHT_STRTAB ∧
      ∀ k < (shdr m b i).size / Sym.size, (symIn m b i k).name < (shdr m b (shLink m b i)).size

/-- The layouts that the scan is made for: relocations in one section only, of symbols of the
dynamic symbol table, and the names right behind the symbols. -/
structure TablesFound : Prop where
  single : ∀ i j, i < j → j < (Ehdr.read m b).shnum → (shdr m b i).type = SHT_REL →
    (shdr m b j).type = SHT_REL → (shdr m b i).size < Rel.size
  dynamic : ∀ i < (Ehdr.read m b).shnum, (shdr m b i).type = SHT_REL →
    ∀ k < (shdr m b i).size / Rel.size, UsesSymbol (relIn m b i k) →
    (shdr m b (shLink m b i)).type = SHT_SYNSYM
  behind : ∀ i < (Ehdr.read m b).shnum, (shdr m b i).type = SHT_SYNSYM →
    ∀ k < (shdr m b i).size / Sym.size, (symIn m b i k).name ≠ 0 →
    (shdr m b i).offset + (shdr m b i).size = (shdr m b (shLink m b i)).offset

end Defs

/-- Every relocation of every section is applied, with the symbols of the table its section links
to, and the loader has every named dynamic symbol with its name in the linked string table. -/
structure Scanned (b : Nat) (s : State) : Prop where
  rels : ∀ i < (Ehdr.read s.mem b).shnum, (shdr s.mem b i).type = SHT_REL →
    ∀ k < (shdr s.mem b i).size / Rel.size, ∃ j u, j < (sections s.mem b).relCount ∧
      Turn (sections s.mem b) s j u ∧ Patches (sections s.mem b) j u ∧
      relAddr (sections s.mem b) j % 2 ^ 32 =
        (b + (shdr s.mem b i).offset + k * Rel.size) % 2 ^ 32 ∧
      (Symbolic u.mem (sections s.mem b) j →
        (sections s.mem b).sym % 2 ^ 32 = (b + (shdr s.mem b (shLink s.mem b i)).offset) % 2 ^ 32)
  syms : ∀ i < (Ehdr.read s.mem b).shnum, (shdr s.mem b i).type = SHT_SYNSYM →
    ∀ k < (shdr s.mem b i).size / Sym.size, (symIn s.mem b i k).name ≠ 0 →
    ∃ sym ∈ (relocate b s).1.symbols.drop s.symbols.length,
      sym.name =
        (b + (shdr s.mem b (shLink s.mem b i)).offset + (symIn s.mem b i k).name) % 2 ^ 32 ∧
      sym.addr = translateAddr s.segments (symIn s.mem b i k).value

/-! ### The variables after the scan -/

section Scan
variable {m : Memory} {b i k : Nat}

/-- The variables after the first sections. -/
def scanned (m : Memory) (b k : Nat) : Tables :=
  (List.range k).foldl (readSection m b)
    { sym := 0, symCount := 0, symName := 0, rel := 0, relCount := 0 }

theorem scanned_succ : scanned m b (k + 1) = readSection m b (scanned m b k) k := by
  unfold scanned
  rw [List.range_succ, List.foldl_append]
  rfl

theorem readSection_rel (t : Tables) (h : (shdr m b i).type = SHT_REL) : readSection m b t i =
    { t with rel := b + (shdr m b i).offset, relCount := (shdr m b i).size / Rel.size } := by
  have hne : (shdr m b i).type ≠ SHT_SYNSYM := by
    rw [h]
    decide
  exact (if_neg hne).trans (if_pos h)

theorem readSection_sym (t : Tables) (h : (shdr m b i).type = SHT_SYNSYM) : readSection m b t i =
    { t with
      sym := b + (shdr m b i).offset
      symCount := (shdr m b i).size / Sym.size
      symName := b + (shdr m b i).offset + (shdr m b i).size } :=
  if_pos h

theorem readSection_other (t : Tables) (hsym : (shdr m b i).type ≠ SHT_SYNSYM)
    (hrel : (shdr m b i).type ≠ SHT_REL) : readSection m b t i = t :=
  (if_neg hsym).trans (if_neg hrel)

/-- The relocations of the last section that has the type are the ones that are kept. -/
theorem scanned_rel (hi : i < k) (htype : (shdr m b i).type = SHT_REL)
    (hlast : ∀ j, i < j → j < k → (shdr m b j).type ≠ SHT_REL) :
    (scanned m b k).rel = b + (shdr m b i).offset ∧
      (scanned m b k).relCount = (shdr m b i).size / Rel.size := by
  induction k with
  | zero => exact absurd hi (Nat.not_lt_zero i)
  | succ k ih =>
    rw [scanned_succ]
    rcases Nat.lt_succ_iff_lt_or_eq.mp hi with hlt | rfl
    · have hbefore := ih hlt fun j hij hj => hlast j hij (Nat.lt_succ_of_lt hj)
      have hnot := hlast k hlt (Nat.lt_succ_self k)
      by_cases hsym : (shdr m b k).type = SHT_SYNSYM
      · rw [readSection_sym _ hsym]
        exact hbefore
      · rw [readSection_other _ hsym hnot]
        exact hbefore
    · rw [readSection_rel _ htype]
      exact ⟨rfl, rfl⟩

theorem scanned_sym (hi : i < k) (htype : (shdr m b i).type = SHT_SYNSYM)
    (hlast : ∀ j, i < j → j < k → (shdr m b j).type ≠ SHT_SYNSYM) :
    (scanned m b k).sym = b + (shdr m b i).offset ∧
      (scanned m b k).symCount = (shdr m b i).size / Sym.size ∧
      (scanned m b k).symName = b + (shdr m b i).offset + (shdr m b i).size := by
  induction k with
  | zero => exact absurd hi (Nat.not_lt_zero i)
  | succ k ih =>
    rw [scanned_succ]
    rcases Nat.lt_succ_iff_lt_or_eq.mp hi with hlt | rfl
    · have hbefore := ih hlt fun j hij hj => hlast j hij (Nat.lt_succ_of_lt hj)
      have hnot := hlast k hlt (Nat.lt_succ_self k)
      by_cases hrel : (shdr m b k).type = SHT_REL
      · rw [readSection_rel _ hrel]
        exact hbefore
      · rw [readSection_other _ hnot hrel]
        exact hbefore
    · rw [readSection_sym _ htype]
      exact ⟨rfl, rfl, rfl⟩

theorem scanned_symCount_zero (hnone : ∀ j, j < k → (shdr m b j).type ≠ SHT_SYNSYM) :
    (scanned m b k).symCount = 0 := by
  induction k with
  | zero => rfl
  | succ k ih =>
    rw [scanned_succ]
    have hbefore := ih fun j hj => hnone j (Nat.lt_succ_of_lt hj)
    have hnot := hnone k (Nat.lt_succ_self k)
    by_cases hrel : (shdr m b k).type = SHT_REL
    · rw [readSection_rel _ hrel]
      exact hbefore
    · rw [readSection_other _ hnot hrel]
      exact hbefore

theorem exists_last {p : Nat → Prop} (hi : i < k) (hp : p i) :
    ∃ r, i ≤ r ∧ r < k ∧ p r ∧ ∀ j, r < j → j < k → ¬ p j := by
  induction k with
  | zero => exact absurd hi (Nat.not_lt_zero i)
  | succ k ih =>
    by_cases hk : p k
    · exact ⟨k, Nat.le_of_lt_succ hi, Nat.lt_succ_self k, hk, fun j hj hjk => by omega⟩
    · rcases Nat.lt_succ_iff_lt_or_eq.mp hi with hlt | rfl
      · obtain ⟨r, hir, hr, hpr, hlast⟩ := ih hlt
        refine ⟨r, hir, Nat.lt_succ_of_lt hr, hpr, fun j hj hjk => ?_⟩
        rcases Nat.lt_succ_iff_lt_or_eq.mp hjk with hjk | rfl
        · exact hlast j hj hjk
        · exact hk
      · exact absurd hp hk

end Scan

/-! ### The tables in the file -/

theorem inside_of_le {b n k len : Nat} (hroom : b + n ≤ 2 ^ 32) (hend : k + len ≤ n) :
    Inside b n (b + k) len := by
  intro i hi
  unfold InFile
  rw [Nat.mod_eq_of_lt (by omega)]
  omega

theorem Turn.sameFile {t : Tables} {s u : State} {b n j : Nat} (h : Turn t s j u)
    (hpatches : PatchesApart b n s.segments) : SameOn (InFile b n) s.mem u.mem := by
  induction h with
  | start => exact .refl _ _
  | @next j u hturn hpatch ih =>
    have htarget := hpatch.1
    unfold target at htarget
    rw [hturn.same.1] at htarget
    have hstore : SameOn (InFile b n) u.mem (patched t j u).mem := by
      apply store32_sameOn
      unfold target
      rw [hturn.same.1]
      exact hpatches _ load32_lt htarget
    exact ih.trans hstore

section File
variable {m : Memory} {b n i j k : Nat}

theorem isTable_rel (h : (shdr m b i).type = SHT_REL) : IsTable (shdr m b i).type := Or.inl h

theorem isTable_sym (h : (shdr m b i).type = SHT_SYNSYM) : IsTable (shdr m b i).type :=
  Or.inr (Or.inl h)

theorem entry_end {w size : Nat} (hk : k < size / w) : k * w + w ≤ size := by
  have hentry : (k + 1) * w ≤ size := Nat.le_trans (Nat.mul_le_mul_right w hk)
    (Nat.div_mul_le_self _ _)
  rwa [Nat.add_mul, Nat.one_mul] at hentry

theorem entry_pos {w size : Nat} (hk : k < size / w) : 0 < w := by
  apply Nat.pos_of_ne_zero
  rintro rfl
  rw [Nat.div_zero] at hk
  exact Nat.not_lt_zero k hk

/-- The relocations that the scan finds are those of the last section that has any. -/
theorem sections_rel (hi : i < (Ehdr.read m b).shnum) (htype : (shdr m b i).type = SHT_REL)
    (hlast : ∀ j, i < j → j < (Ehdr.read m b).shnum → (shdr m b j).type ≠ SHT_REL) :
    (sections m b).rel = b + (shdr m b i).offset ∧
      (sections m b).relCount = (shdr m b i).size / Rel.size :=
  scanned_rel hi htype hlast

/-- Symbols are found in a dynamic symbol table only. -/
theorem exists_dynamic (hcount : k < (sections m b).symCount) :
    ∃ i < (Ehdr.read m b).shnum, (shdr m b i).type = SHT_SYNSYM := by
  by_contra hnone
  have hzero : (sections m b).symCount = 0 :=
    scanned_symCount_zero fun j hj htype => hnone ⟨j, hj, htype⟩
  omega

namespace SectionedFile
variable (hfile : SectionedFile m b n)
include hfile

theorem inside_entry {w d l : Nat} (hi : i < (Ehdr.read m b).shnum)
    (htable : IsTable (shdr m b i).type)
    (hk : k < (shdr m b i).size / w) (hd : d + l ≤ w) :
    Inside b n (b + (shdr m b i).offset + k * w + d) l := by
  have hend := hfile.inside i hi htable
  have hentry := entry_end hk
  have hsum : b + (shdr m b i).offset + k * w + d = b +
    ((shdr m b i).offset + k * w + d) := by omega
  rw [hsum]
  exact inside_of_le hfile.room (by omega)

theorem relIn_same {m' : Memory} (hsame : SameOn (InFile b n) m m')
    (hi : i < (Ehdr.read m b).shnum) (htype : (shdr m b i).type = SHT_REL)
    (hk : k < (shdr m b i).size / Rel.size) :
    Rel.read m' (b + (shdr m b i).offset + k * Rel.size) = relIn m b i k :=
  Rel.read_congr hsame (hfile.inside_entry (d := 0) hi (isTable_rel htype) hk (Nat.le_refl _))

theorem entry_eq {w x l : Nat} (hi : i < (Ehdr.read m b).shnum) (hti : IsTable (shdr m b i).type)
    (hj : j < (Ehdr.read m b).shnum) (htj : IsTable (shdr m b j).type)
    (hk : k < (shdr m b i).size / w) (hl : l < (shdr m b j).size / x)
    (haddr : (b + (shdr m b i).offset + k * w) % 2 ^ 32 =
    (b + (shdr m b j).offset + l * x) % 2 ^ 32) :
    i = j := by
  have hendi := hfile.inside i hi hti
  have hendj := hfile.inside j hj htj
  have hroom := hfile.room
  have hkend := entry_end hk
  have hlend := entry_end hl
  have hw := entry_pos hk
  have hx := entry_pos hl
  rw [Nat.mod_eq_of_lt (by omega), Nat.mod_eq_of_lt (by omega)] at haddr
  by_contra hne
  rcases hfile.apart i hi j hj hne hti htj (by omega) (by omega) with h | h
  · omega
  · omega

theorem sections_sym (hi : i < (Ehdr.read m b).shnum) (htype : (shdr m b i).type = SHT_SYNSYM) :
    (sections m b).sym = b + (shdr m b i).offset ∧
      (sections m b).symCount = (shdr m b i).size / Sym.size ∧
      (sections m b).symName = b + (shdr m b i).offset + (shdr m b i).size := by
  apply scanned_sym hi htype
  intro j hij hj hsym
  have heq := hfile.one i hi j hj htype hsym
  omega

theorem symInside (hk : k < (sections m b).symCount) : SymInside m b n (sections m b) k := by
  obtain ⟨i, hi, htype⟩ := exists_dynamic hk
  obtain ⟨hsym, hcount, _⟩ := hfile.sections_sym hi htype
  rw [hcount] at hk
  have hname := hfile.inside_entry (d := 0) (l := 4) hi (isTable_sym htype) hk (by decide)
  have hvalue := hfile.inside_entry (d := 4) (l := 4) hi (isTable_sym htype) hk (by decide)
  refine ⟨?_, fun _ => ?_⟩
  · unfold symAddr
    rw [hsym]
    exact hname
  · unfold symAddr
    rw [hsym]
    exact hvalue

end SectionedFile

end File

theorem no_descent {p : Nat → Prop} (measure : Nat → Nat)
    (hstep : ∀ k, p k → ∃ l, p l ∧ measure l < measure k) (k : Nat) : ¬ p k := by
  induction hm : measure k using Nat.strongRecOn generalizing k with
  | ind _ ih =>
    intro hk
    obtain ⟨l, hl, hlt⟩ := hstep k hk
    exact ih _ (hm ▸ hlt) l rfl hl

/-! ### What `relocate` has done -/

section Done
variable {s : State} {b n i j k : Nat} (hfile : SectionedFile s.mem b n)
  (hpatches : PatchesApart b n s.segments) (hdone : (relocate b s).2 = true)
include hdone

theorem turns_done : ∃ v, Turn (sections s.mem b) s (sections s.mem b).relCount v ∧
    (relocate b s).1 = (List.range (sections s.mem b).symCount).foldl
      (extractSymbol (sections s.mem b)) v := by
  obtain ⟨v, _, _, _, hend⟩ := relocate_turns b s
  rcases hend with ⟨_, hv, heq⟩ | ⟨hstop, _⟩
  · exact ⟨v, hv, heq⟩
  · rw [hdone] at hstop
    exact absurd hstop (by decide)

include hfile hpatches

theorem symbols_done : (relocate b s).1.symbols.drop s.symbols.length =
    (keptSymbols s.mem (sections s.mem b)).map (symbolAt s.mem s.segments (sections s.mem b)) := by
  obtain ⟨v, hv, heq⟩ := turns_done hdone
  have hleft := (extractSymbols_left (hv.sameFile hpatches) hv.same.1
    fun k hk => hfile.symInside (List.mem_range.mp hk)).2
  rw [heq, hleft, hv.same.2, List.drop_left]
  rfl

theorem turn_entry (hi : i < (Ehdr.read s.mem b).shnum) (htype : (shdr s.mem b i).type = SHT_REL)
    (hlast : ∀ j, i < j → j < (Ehdr.read s.mem b).shnum → (shdr s.mem b j).type ≠ SHT_REL)
    (hk : k < (shdr s.mem b i).size / Rel.size) :
    ∃ u, Turn (sections s.mem b) s k u ∧ Patches (sections s.mem b) k u ∧
      relAt u.mem (sections s.mem b) k = relIn s.mem b i k := by
  obtain ⟨hrel, hcount⟩ := sections_rel hi htype hlast
  obtain ⟨v, hv, _⟩ := turns_done hdone
  obtain ⟨u, hu, hpatch⟩ := hv.earlier (hcount.symm ▸ hk)
  refine ⟨u, hu, hpatch, ?_⟩
  unfold relAt relAddr
  rw [hrel]
  exact hfile.relIn_same (hu.sameFile hpatches) hi htype hk

omit hpatches hdone in
/-- Relocations of one section only are applied. -/
theorem Scanned.single (h : Scanned b s) (hij : i < j) (hj : j < (Ehdr.read s.mem b).shnum)
    (htypei : (shdr s.mem b i).type = SHT_REL) (htypej : (shdr s.mem b j).type = SHT_REL) :
    (shdr s.mem b i).size < Rel.size := by
  by_contra hlarge
  obtain ⟨r, hjr, hr, htype, hlast⟩ :=
    exists_last (p := fun i => (shdr s.mem b i).type = SHT_REL) hj htypej
  have hi : i < (Ehdr.read s.mem b).shnum := Nat.lt_trans hij hj
  have hentry : 0 < (shdr s.mem b i).size / Rel.size :=
    Nat.div_pos (Nat.not_lt.mp hlarge) (by decide)
  obtain ⟨hrel, hcount⟩ := sections_rel hr htype hlast
  obtain ⟨l, u, hl, _, _, haddr, _⟩ := h.rels i hi htypei 0 hentry
  rw [hcount] at hl
  unfold relAddr at haddr
  rw [hrel] at haddr
  have heq : r = i :=
    hfile.entry_eq hr (isTable_rel htype) hi (isTable_rel htypei) hl hentry haddr
  omega

/-- They use the dynamic symbol table only. -/
theorem Scanned.dynamic (h : Scanned b s) (hi : i < (Ehdr.read s.mem b).shnum)
    (htype : (shdr s.mem b i).type = SHT_REL) (hk : k < (shdr s.mem b i).size / Rel.size)
    (huses : UsesSymbol (relIn s.mem b i k)) :
    (shdr s.mem b (shLink s.mem b i)).type = SHT_SYNSYM := by
  have hlast : ∀ j, i < j → j < (Ehdr.read s.mem b).shnum → (shdr s.mem b j).type ≠ SHT_REL := by
    intro j hij hj htypej
    have hsmall := h.single hfile hij hj htype htypej
    rw [Nat.div_eq_of_lt hsmall] at hk
    exact Nat.not_lt_zero k hk
  obtain ⟨hrel, hcount⟩ := sections_rel hi htype hlast
  obtain ⟨l, u, hl, hu, hpatch, haddr, hsymbols⟩ := h.rels i hi htype k hk
  -- the turn is the one of the entry itself
  have hlk : l = k := by
    rw [hcount] at hl
    have hend := hfile.inside i hi (isTable_rel htype)
    have hroom := hfile.room
    have hlend := entry_end hl
    have hkend := entry_end hk
    unfold relAddr at haddr
    rw [hrel] at haddr
    unfold Rel.size at *
    omega
  subst hlk
  obtain ⟨w, hw, _, hread⟩ := turn_entry hfile hpatches hdone hi htype hlast hk
  obtain rfl := hw.unique hu
  have hsymbolic : Symbolic w.mem (sections s.mem b) l := by
    unfold Symbolic
    rw [hread]
    exact huses
  have hused : (relAt w.mem (sections s.mem b) l).sym < (sections s.mem b).symCount := by
    rcases hpatch.2 with hrelative | ⟨_, hused, _⟩
    · rcases hsymbolic with h32 | hpc
      · exact absurd (h32.symm.trans hrelative) (by decide)
      · exact absurd (hpc.symm.trans hrelative) (by decide)
    · exact hused
  obtain ⟨hlink, hkind, hcovers⟩ := hfile.rels i hi htype l hk huses
  obtain ⟨y, hy, htypey⟩ := exists_dynamic hused
  obtain ⟨hsym, hsymCount, _⟩ := hfile.sections_sym hy htypey
  have hfound := hsymbols hsymbolic
  rw [hsym] at hfound
  rw [hsymCount, hread] at hused
  have htable : IsTable (shdr s.mem b (shLink s.mem b i)).type := by
    rcases hkind with h | h
    · exact isTable_sym h
    · exact Or.inr (Or.inr (Or.inl h))
  have heq : y = shLink s.mem b i :=
    hfile.entry_eq (k := 0) (l := 0) hy (isTable_sym htypey) hlink htable (Nat.zero_lt_of_lt hused)
      (Nat.zero_lt_of_lt hcovers) hfound
  rwa [← heq]

theorem Scanned.behind (h : Scanned b s) (hi : i < (Ehdr.read s.mem b).shnum)
    (htype : (shdr s.mem b i).type = SHT_SYNSYM) (hk : k < (shdr s.mem b i).size / Sym.size)
    (hname : (symIn s.mem b i k).name ≠ 0) :
    (shdr s.mem b i).offset + (shdr s.mem b i).size = (shdr s.mem b (shLink s.mem b i)).offset := by
  obtain ⟨hsym, hcount, hsymName⟩ := hfile.sections_sym hi htype
  obtain ⟨hlink, hstrings, hnames⟩ := hfile.names i hi htype
  have htable : IsTable (shdr s.mem b (shLink s.mem b i)).type := Or.inr (Or.inr (Or.inr hstrings))
  have hend := hfile.inside _ hlink htable
  have hendi := hfile.inside i hi (isTable_sym htype)
  have hroom := hfile.room
  have hhigh := hfile.high
  have hapart : (shdr s.mem b i).offset + (shdr s.mem b i).size ≤
    (shdr s.mem b (shLink s.mem b i)).offset ∨
      (shdr s.mem b (shLink s.mem b i)).offset + (shdr s.mem b (shLink s.mem b i)).size ≤
        (shdr s.mem b i).offset := by
    have hne : i ≠ shLink s.mem b i := by
      intro heq
      rw [← heq, htype] at hstrings
      exact absurd hstrings (by decide)
    have hsize := hnames k hk
    have hentry := entry_end hk
    unfold Sym.size at hentry
    exact hfile.apart i hi _ hlink hne (isTable_sym htype) htable (by omega) (by omega)
  -- each name is that of a symbol, counted from the end of the table
  have hnext : ∀ k, k < (shdr s.mem b i).size / Sym.size ∧ (symIn s.mem b i k).name ≠ 0 →
      ∃ l, (l < (shdr s.mem b i).size / Sym.size ∧ (symIn s.mem b i l).name ≠ 0) ∧
        (shdr s.mem b i).offset + (shdr s.mem b i).size + (symIn s.mem b i l).name =
          (shdr s.mem b (shLink s.mem b i)).offset + (symIn s.mem b i k).name := by
    rintro k ⟨hk, hname⟩
    obtain ⟨sym, hmem, heq, _⟩ := h.syms i hi htype k hk hname
    rw [symbols_done hfile hpatches hdone] at hmem
    obtain ⟨l, hl, rfl⟩ := List.mem_map.mp hmem
    obtain ⟨hrange, hnamed⟩ := List.mem_filter.mp hl
    have hread : symAt s.mem (sections s.mem b) l = symIn s.mem b i l := by
      unfold symAt symAddr symIn
      rw [hsym]
    rw [List.mem_range, hcount] at hrange
    rw [hread] at hnamed
    have hbound := hnames k hk
    have hboundl := hnames l hrange
    refine ⟨l, ⟨hrange, of_decide_eq_true hnamed⟩, ?_⟩
    unfold symbolAt at heq
    simp only [hsymName, hread] at heq
    omega
  have hnone : ∀ measure : Nat → Nat, (∀ k l, k < (shdr s.mem b i).size / Sym.size →
      l < (shdr s.mem b i).size / Sym.size →
      (shdr s.mem b i).offset + (shdr s.mem b i).size + (symIn s.mem b i l).name =
        (shdr s.mem b (shLink s.mem b i)).offset + (symIn s.mem b i k).name →
      measure l < measure k) → False := by
    intro measure hdown
    refine no_descent (p := fun k => k < (shdr s.mem b i).size / Sym.size ∧
      (symIn s.mem b i k).name ≠ 0) measure (fun k hk => ?_) k ⟨hk, hname⟩
    obtain ⟨l, hl, heq⟩ := hnext k hk
    exact ⟨l, hl, hdown k l hk.1 hl.1 heq⟩
  rcases hapart with hbefore | hafter
  · rcases Nat.eq_or_lt_of_le hbefore with heq | hlt
    · exact heq
    · exfalso
      apply hnone fun k => (shdr s.mem b (shLink s.mem b i)).size - (symIn s.mem b i k).name
      intro k l _ hl heq
      have hbound := hnames l hl
      omega
  · exfalso
    apply hnone fun k => (symIn s.mem b i k).name
    intro k l hk _ heq
    have hbound := hnames k hk
    omega

theorem TablesFound.scanned (h : TablesFound s.mem b) : Scanned b s := by
  constructor
  · intro i hi htype k hk
    have hlast : ∀ j, i < j → j < (Ehdr.read s.mem b).shnum → (shdr s.mem b j).type ≠ SHT_REL := by
      intro j hij hj htypej
      rw [Nat.div_eq_of_lt (h.single i j hij hj htype htypej)] at hk
      exact Nat.not_lt_zero k hk
    obtain ⟨hrel, hcount⟩ := sections_rel hi htype hlast
    obtain ⟨u, hu, hpatch, hread⟩ := turn_entry hfile hpatches hdone hi htype hlast hk
    refine ⟨k, u, hcount.symm ▸ hk, hu, hpatch, ?_, fun hsymbolic => ?_⟩
    · unfold relAddr
      rw [hrel]
    · unfold Symbolic at hsymbolic
      rw [hread] at hsymbolic
      obtain ⟨hlink, _, _⟩ := hfile.rels i hi htype k hk hsymbolic
      rw [(hfile.sections_sym hlink (h.dynamic i hi htype k hk hsymbolic)).1]
  · intro i hi htype k hk hname
    obtain ⟨hsym, hcount, hsymName⟩ := hfile.sections_sym hi htype
    have hread : symAt s.mem (sections s.mem b) k = symIn s.mem b i k := by
      unfold symAt symAddr symIn
      rw [hsym]
    refine ⟨symbolAt s.mem s.segments (sections s.mem b) k, ?_, ?_, ?_⟩
    · rw [symbols_done hfile hpatches hdone]
      apply List.mem_map_of_mem
      apply List.mem_filter.mpr
      rw [hread]
      exact ⟨List.mem_range.mpr (hcount.symm ▸ hk), decide_eq_true hname⟩
    · have hbehind := h.behind i hi htype k hk hname
      unfold symbolAt
      simp only [hsymName, hread]
      rw [Nat.add_assoc b, hbehind]
    · unfold symbolAt
      simp only [hread]

/-- The scan is complete for exactly the files that have their relocations in one section, use the
dynamic symbol table alone, and have the names right behind it. -/
theorem sections_scanned_iff : Scanned b s ↔ TablesFound s.mem b := by
  constructor
  · intro h
    refine ⟨?_, ?_, ?_⟩
    · intro i j hij hj htypei htypej
      exact h.single hfile hij hj htypei htypej
    · intro i hi htype k hk huses
      exact h.dynamic hfile hpatches hdone hi htype hk huses
    · intro i hi htype k hk hname
      exact h.behind hfile hpatches hdone hi htype hk hname
  · exact fun h => h.scanned hfile hpatches hdone

end Done

/-! ### Files with relocations only -/

theorem sectionedState_apart (file : List UInt8) (n : Nat) :
    PatchesApart 0xF2000010 n (sectionedState file).segments := by
  intro v hv hne
  rw [translateAddr_eq_self (sectionedState_loaded file) hv hne]
  obtain ⟨_, seg, hseg, hin⟩ := (translateAddr_ne_zero_iff (sectionedState_loaded file) hv).mp hne
  rw [(sectionedState_loaded file seg hseg).contains_iff] at hin
  obtain rfl := List.mem_singleton.mp hseg
  obtain ⟨_, hhigh, _⟩ := hin
  simp only at hhigh
  intro k hk hfile
  unfold InFile at hfile
  omega

/-- Sections of relocations, one behind the other, that use no symbols. -/
theorem sectionedFile_of_rels {m : Memory} {b n : Nat} (first : Nat) (hroom : b + n ≤ 2 ^ 32)
    (hhigh : 2 ^ 31 ≤ b) (hend : first + (Ehdr.read m b).shnum * Rel.size ≤ n)
    (hrels : ∀ i < (Ehdr.read m b).shnum,
      shdr m b i = { type := SHT_REL, offset := first + i * Rel.size, size := Rel.size } ∧
      (relIn m b i 0).type = R_386_RELATIVE) : SectionedFile m b n := by
  have hnot : ∀ i < (Ehdr.read m b).shnum, (shdr m b i).type ≠ SHT_SYNSYM := by
    intro i hi
    rw [(hrels i hi).1]
    exact (by decide : SHT_REL ≠ SHT_SYNSYM)
  refine
    { room := hroom
      high := hhigh
      inside := ?_
      apart := ?_
      one := fun i hi _ _ htype _ => absurd htype (hnot i hi)
      rels := ?_
      names := fun i hi htype => absurd htype (hnot i hi) }
  · intro i hi _
    rw [(hrels i hi).1]
    unfold Rel.size at hend ⊢
    simp only
    omega
  · intro i hi j hj hne _ _ _ _
    rw [(hrels i hi).1, (hrels j hj).1]
    unfold Rel.size
    simp only
    omega
  · intro i hi _ k hk huses
    rw [(hrels i hi).1] at hk
    have hzero : k = 0 := by
      have hone : Rel.size / Rel.size = 1 := rfl
      simp only [hone] at hk
      omega
    subst hzero
    rcases huses with h | h
    · rw [(hrels i hi).2] at h
      exact absurd h (by decide)
    · rw [(hrels i hi).2] at h
      exact absurd h (by decide)

/-- Two dynamic symbols, the second with the name `f`, their names right behind them, and two
relocations, the first one of the symbol. -/
def dynamicElf : List UInt8 :=
  sectionedElf 3 ++ shdrBytes SHT_SYNSYM 172 32 1 ++ shdrBytes SHT_STRTAB 204 3 0 ++
  shdrBytes SHT_REL 208 16 0 ++ [0, 0, 0, 0, 1, 0x08048010, 0, 0].flatMap Memory.wordBytes ++
  [0, 102, 0, 0] ++
  [0x08048000, 256 + R_386_32, 0x08048004, R_386_RELATIVE].flatMap Memory.wordBytes

theorem dynamicElf_rel {i : Nat} (hi : i < 3)
    (htype : (shdr (sectionedState dynamicElf).mem 0xF2000010 i).type = SHT_REL) : i = 2 := by
  have hall : ∀ i < 3, (shdr (sectionedState dynamicElf).mem 0xF2000010 i).type = SHT_REL →
      i = 2 := by decide +kernel
  exact hall i hi htype

theorem dynamicElf_sections : SectionedFile (sectionedState dynamicElf).mem 0xF2000010 224 := by
  have hshnum : (Ehdr.read (sectionedState dynamicElf).mem 0xF2000010).shnum = 3 := by
    decide +kernel
  refine
    { room := by omega
      high := by omega
      inside := ?_
      apart := ?_
      one := ?_
      rels := ?_
      names := ?_ }
  all_goals rw [hshnum]
  · unfold IsTable
    decide +kernel
  · have hall : ∀ i < 3, ∀ j < 3, i ≠ j →
        (shdr (sectionedState dynamicElf).mem 0xF2000010 i).offset +
            (shdr (sectionedState dynamicElf).mem 0xF2000010 i).size ≤
          (shdr (sectionedState dynamicElf).mem 0xF2000010 j).offset ∨
        (shdr (sectionedState dynamicElf).mem 0xF2000010 j).offset +
            (shdr (sectionedState dynamicElf).mem 0xF2000010 j).size ≤
          (shdr (sectionedState dynamicElf).mem 0xF2000010 i).offset := by decide +kernel
    exact fun i hi j hj hne _ _ _ _ => hall i hi j hj hne
  · decide +kernel
  · intro i hi htype k hk _
    have htwo : i = 2 := dynamicElf_rel hi htype
    subst htwo
    have hlink : shLink (sectionedState dynamicElf).mem 0xF2000010 2 = 0 := by decide +kernel
    have hsym : ∀ k < 2, (relIn (sectionedState dynamicElf).mem 0xF2000010 2 k).sym < 2 := by
      decide +kernel
    rw [hlink]
    exact ⟨by omega, .inl (by decide +kernel), hsym k hk⟩
  · decide +kernel

theorem sections_scanned_iff_symbol : Scanned 0xF2000010 (sectionedState dynamicElf) := by
  have hshnum : (Ehdr.read (sectionedState dynamicElf).mem 0xF2000010).shnum = 3 := by
    decide +kernel
  refine (sections_scanned_iff dynamicElf_sections (sectionedState_apart _ _)
    (by decide +kernel)).mpr ⟨?_, ?_, ?_⟩
  · intro i j hij hj hi hj'
    rw [hshnum] at hj
    have hfirst := dynamicElf_rel (Nat.lt_trans hij hj) hi
    have hsecond := dynamicElf_rel hj hj'
    omega
  · rw [hshnum]
    intro i hi htype k _ _
    have htwo : i = 2 := dynamicElf_rel hi htype
    subst htwo
    decide +kernel
  · rw [hshnum]
    decide +kernel

/-- A relocation in each of two sections. -/
def twoRelsElf : List UInt8 :=
  sectionedElf 2 ++ shdrBytes SHT_REL 132 8 0 ++ shdrBytes SHT_REL 140 8 0 ++
  [0x08048000, R_386_RELATIVE, 0x08048004, R_386_RELATIVE].flatMap Memory.wordBytes

/-- The one of the first section is not applied, and `relocate` returns true. -/
theorem first_section_ignored : ¬ ∀ (b n : Nat) (s : State), SectionedFile s.mem b n →
    PatchesApart b n s.segments → (relocate b s).2 = true → Scanned b s := by
  intro hclaim
  have hshnum : (Ehdr.read (sectionedState twoRelsElf).mem 0xF2000010).shnum =
    2 := by decide +kernel
  have htypes : ∀ i < 2, (shdr (sectionedState twoRelsElf).mem 0xF2000010 i).type = SHT_REL := by
    decide +kernel
  have hfile : SectionedFile (sectionedState twoRelsElf).mem 0xF2000010 148 := by
    apply sectionedFile_of_rels 132 (by omega) (by omega)
    · rw [hshnum]
      decide
    · rw [hshnum]
      decide +kernel
  have hscanned := hclaim 0xF2000010 148 (sectionedState twoRelsElf) hfile
    (sectionedState_apart _ _)
    (by decide +kernel)
  have hsmall := hscanned.single hfile (i := 0) (j := 1) (by omega) (by omega) (htypes 0 (by omega))
    (htypes 1 (by omega))
  exact absurd hsmall (by decide +kernel)

end OsdevCourse.Loader
