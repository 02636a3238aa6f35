import OsdevCourse.LoaderReads
import OsdevCourse.Kvector

/-!
# What the loader frees

The life of a `ProgramLoader`: `load_program`, `~ProgramLoader`, and the destructors of its two
vectors, as the calls of the kernel heap that they make. The names of the symbols point into the
file's buffer, which `load_program` frees before it returns.
-/

namespace OsdevCourse.Loader

set_option autoImplicit false

open Elf
open Kmalloc (Action Allocator Ample Owns OwnsFreed InFreed)

/-- A loader behind `load_program`, with what it has called. -/
structure Loaded where
  history : List Action
  segments : Kvector
  symbols : Kvector
  names : List Nat
  deriving DecidableEq

def freesOf (events : List Event) : List Nat :=
  events.filterMap fun
    | .kfree p => some p
    | _ => none

def sizeofSegment : Nat := 12

def sizeofSymbol : Nat := 8

/-- The vectors only grow, the segments before the symbols, so that their appends are told by what
is in them at the end. -/
def loadCalls (A : Allocator) (file : File) (mem : Memory) : Option Loaded :=
  match file.filelen with
  | none => some { history := [], segments := .empty, symbols := .empty, names := [] }
  | some filelen =>
    let s := (loadProgram file (init mem)).1
    match Kvector.appends A sizeofSegment s.segments.length
      [.kmalloc filelen file.buffer] .empty with
    | none => none
    | some (h, segments) =>
      match Kvector.appends A sizeofSymbol s.symbols.length h .empty with
      | none => none
      | some (h, symbols) =>
        some
          { history := h ++ (freesOf s.events).map .kfree
            segments := segments
            symbols := symbols
            names := s.symbols.map Symbol.name }

/-- `~ProgramLoader` -/
def destroyNames (names : List Nat) : List Action := (names.filter (· ≠ 0)).map .kfree

/-- The members are destroyed in the reverse of the order in which they are declared. -/
def Loaded.lifetime (l : Loaded) : List Action :=
  l.history ++ destroyNames l.names ++ l.symbols.destroy ++ l.segments.destroy

/-- The loader frees only what it was given and has not freed yet, and no name that `get_addr`
compares lies in a freed block. -/
def ReleasesOwn (A : Allocator) (file : File) (mem : Memory) : Prop :=
  ∃ l, loadCalls A file mem = some l ∧ OwnsFreed [] l.lifetime ∧ ∀ name ∈ l.names,
    ¬ InFreed l.history name

section Conditions
variable (m : Memory) (b : Nat)

/-- Every relocation of the file is applied. -/
def Relocated : Prop :=
  Loadable m b ∧ ∀ i < (sections m b).relCount,
    Applies m (segmentsOf m b (Ehdr.read m b).phnum) (sections m b) i

/-- The symbols that are extracted have a name. -/
def keptSymbols (t : Tables) : List Nat := (List.range t.symCount).filter fun i =>
    (symAt m t i).name ≠ 0

def symbolAt (segs : List Segment) (t : Tables) (i : Nat) : Symbol where
  name := (t.symName + (symAt m t i).name) % 2 ^ 32
  addr := translateAddr segs (symAt m t i).value

/-- The file names no symbol, and the arrays of the vectors are large enough for it. A name can be
at the address 0, which the destructor takes for no name. -/
structure Unnamed : Prop where
  segments : Accepted m b → ∀ l ≤ (Ehdr.read m b).phnum, (∀ j < l, ¬ Refused m b j) →
    (segmentsOf m b l).length ≤ 12
  symbols : Relocated m b → (keptSymbols m (sections m b)).length ≤ 12
  names : Relocated m b → ∀ i ∈ keptSymbols m (sections m b),
    ((sections m b).symName + (symAt m (sections m b) i).name) % 2 ^ 32 = 0

end Conditions

/-- The file is read in full. -/
def ReadInFull (file : File) : Prop :=
  ∃ filelen, file.filelen = some filelen ∧ file.buffer ≠ 0 ∧ file.result = toInt64 filelen

/-! ### The destructors -/

section Heap
variable {A : Allocator} {file : File} {mem : Memory} {filelen : Nat} {l : Loaded}

theorem null_not_in_names (names : List Nat) : 0 ∉ names.filter (· ≠ 0) := by
  intro hmem
  have hne := (List.mem_filter.1 hmem).2
  simp at hne

/-- The vectors free the blocks they hold, so that a name is freed for nothing or twice. -/
theorem lifetime_owns_iff (ho : Owns A l.history (l.symbols.blocks ++ l.segments.blocks)) :
    OwnsFreed [] l.lifetime ↔ ∀ name ∈ l.names, name = 0 := by
  have hcalls : l.lifetime = l.history ++
      (l.names.filter (· ≠ 0) ++ (l.symbols.blocks ++ l.segments.blocks)).map .kfree := by
    unfold Loaded.lifetime destroyNames Kvector.destroy
    rw [List.map_append, List.map_append, List.append_assoc, List.append_assoc]
  have hnull : 0 ∉ l.names.filter (· ≠ 0) ++ (l.symbols.blocks ++ l.segments.blocks) := by
    intro hmem
    cases List.mem_append.1 hmem with
    | inl hname => exact null_not_in_names _ hname
    | inr hblock => exact ho.pos hblock
  rw [hcalls, ho.frees_iff hnull]
  constructor
  · intro hand name hname
    obtain ⟨hnodup, hheld⟩ := hand
    apply Classical.byContradiction
    intro hne
    have hfreed : name ∈ l.names.filter (· ≠ 0) := List.mem_filter.2 ⟨hname, by simpa using hne⟩
    have hblock := hheld name (List.mem_append_left _ hfreed)
    exact (List.nodup_append.1 hnodup).2.2 name hfreed name hblock rfl
  · intro hall
    have hnone : l.names.filter (· ≠ 0) = [] := by
      apply List.filter_eq_nil_iff.2
      intro name hname
      simp [hall name hname]
    rw [hnone, List.nil_append]
    exact ⟨ho.nodup, fun p hp => hp⟩

theorem owns_buffer (hbuffer : file.buffer = A.answer [] filelen) (hne : file.buffer ≠ 0) :
    Owns A [.kmalloc filelen file.buffer] (Kvector.empty.blocks ++ [file.buffer]) := by
  have hanswer : A.answer [] filelen ≠ 0 := hbuffer ▸ hne
  have howns := Owns.nil.kmalloc hanswer
  rw [← hbuffer] at howns
  exact howns

theorem loadCalls_owns (hlen : file.filelen = some filelen)
    (hbuffer : file.buffer = A.answer [] filelen)
    (hne : file.buffer ≠ 0)
    (hfrees : freesOf (loadProgram file (init mem)).1.events = [file.buffer])
    (hcalls : loadCalls A file mem = some l) :
    Owns A l.history (l.symbols.blocks ++ l.segments.blocks) ∧
      (loadProgram file (init mem)).1.segments.length ≤ 12 ∧
      (loadProgram file (init mem)).1.symbols.length ≤ 12 ∧
      l.names = (loadProgram file (init mem)).1.symbols.map Symbol.name := by
  unfold loadCalls at hcalls
  rw [hlen] at hcalls
  simp only [hfrees] at hcalls
  have hfirst := owns_buffer hbuffer hne
  split at hcalls
  · exact absurd hcalls (by simp)
  · rename_i h₁ segments hsegments
    obtain ⟨_, howns₁, hcount₁⟩ := Kvector.appends_owns Kvector.formed_empty hfirst
      (Nat.zero_le _) hsegments
    have hsecond : Owns A h₁ (Kvector.empty.blocks ++ (segments.blocks ++ [file.buffer])) := howns₁
    split at hcalls
    · exact absurd hcalls (by simp)
    · rename_i h₂ symbols hsymbols
      obtain ⟨_, howns₂, hcount₂⟩ :=
        Kvector.appends_owns Kvector.formed_empty hsecond (Nat.zero_le _) hsymbols
      have heq := Option.some.inj hcalls
      subst heq
      have hzero : Kvector.empty.elems.length = 0 := rfl
      refine ⟨?_, by omega, by omega, rfl⟩
      have hlast : Owns A h₂ (file.buffer :: (symbols.blocks ++ segments.blocks)) := by
        refine howns₂.perm ?_
        rw [← List.append_assoc]
        exact List.perm_append_singleton _ _
      exact hlast.kfree

theorem loadCalls_room (hlen : file.filelen = some filelen)
    (hbuffer : file.buffer = A.answer [] filelen)
    (hne : file.buffer ≠ 0) (hample : Ample A filelen)
    (hsegments : (loadProgram file (init mem)).1.segments.length ≤ 12)
    (hsymbols : (loadProgram file (init mem)).1.symbols.length ≤ 12) :
    ∃ l, loadCalls A file mem = some l := by
  have hfirst := owns_buffer hbuffer hne
  have hstart : Kvector.Behind filelen file.buffer 0 [.kmalloc filelen file.buffer] :=
    ⟨[], rfl, by simp, Nat.le_refl _⟩
  have hzero : Kvector.empty.elems.length = 0 := rfl
  have hsmall : sizeofSegment ≤ 48 ∧ sizeofSymbol ≤ 48 := by decide
  obtain ⟨h₁, segments, happends, hbehind⟩ := Kvector.appends_room (m := 0)
    (k := (loadProgram file (init mem)).1.segments.length) Kvector.formed_empty hfirst hstart hample
    (by omega) (by omega) hsmall.1
  obtain ⟨_, howns, _⟩ := Kvector.appends_owns Kvector.formed_empty hfirst (Nat.zero_le _) happends
  have hsecond : Owns A h₁ (Kvector.empty.blocks ++ (segments.blocks ++ [file.buffer])) := howns
  obtain ⟨h₂, symbols, happends₂, _⟩ := Kvector.appends_room
    (k := (loadProgram file (init mem)).1.symbols.length) Kvector.formed_empty hsecond
    hbehind hample
    (by omega) (by omega) hsmall.2
  refine ⟨⟨h₂ ++ (freesOf (loadProgram file (init mem)).1.events).map .kfree, segments, symbols,
    (loadProgram file (init mem)).1.symbols.map Symbol.name⟩, ?_⟩
  unfold loadCalls
  simp only [hlen, happends, happends₂]

theorem releasesOwn_iff_names (hlen : file.filelen = some filelen)
    (hbuffer : file.buffer = A.answer [] filelen) (hne : file.buffer ≠ 0) (hample : Ample A filelen)
    (hfrees : freesOf (loadProgram file (init mem)).1.events = [file.buffer]) :
    ReleasesOwn A file mem ↔
      (loadProgram file (init mem)).1.segments.length ≤ 12 ∧
      (loadProgram file (init mem)).1.symbols.length ≤ 12 ∧
      ∀ sym ∈ (loadProgram file (init mem)).1.symbols, sym.name = 0 := by
  constructor
  · intro hown
    obtain ⟨l, hcalls, hfreed, _⟩ := hown
    obtain ⟨howns, hsegments, hsymbols, hnames⟩ := loadCalls_owns hlen hbuffer hne hfrees hcalls
    have hnull := (lifetime_owns_iff howns).1 hfreed
    refine ⟨hsegments, hsymbols, ?_⟩
    intro sym hsym
    apply hnull
    rw [hnames]
    exact List.mem_map_of_mem hsym
  · intro hand
    obtain ⟨hsegments, hsymbols, hnames⟩ := hand
    obtain ⟨l, hcalls⟩ := loadCalls_room hlen hbuffer hne hample hsegments hsymbols
    obtain ⟨howns, _, _, hnamesEq⟩ := loadCalls_owns hlen hbuffer hne hfrees hcalls
    have hnull : ∀ name ∈ l.names, name = 0 := by
      rw [hnamesEq]
      intro name hname
      obtain ⟨sym, hsym, rfl⟩ := List.mem_map.1 hname
      exact hnames sym hsym
    refine ⟨l, hcalls, (lifetime_owns_iff howns).2 hnull, ?_⟩
    intro name hname
    rw [hnull name hname]
    exact Kmalloc.not_inFreed_null

end Heap

/-! ### What is in the vectors -/

section Vectors
variable {m : Memory} {b n : Nat} {s : State} {file : File} {mem : Memory} {filelen : Nat}

theorem freesOf_append (es : List Event) (e : Event) :
    freesOf (es ++ [e]) = freesOf es ++ freesOf [e] := List.filterMap_append

theorem freesOf_loadSegment (buffer a : Nat) (s : State) :
    freesOf (loadSegment buffer a s).events = freesOf s.events := by
  have hboth : ∀ (c : Prop) [Decidable c] (u v : State), freesOf u.events = freesOf s.events →
      freesOf v.events = freesOf s.events → freesOf (if c then u else v).events =
          freesOf s.events := by
    intro c _ u v hu hv
    split
    · exact hu
    · exact hv
  unfold loadSegment
  refine hboth _ _ _ ?_ ?_
  · simp [State.log, freesOf]
  · simp [State.log, freesOf]

theorem freesOf_loadHeaders (buffer fuel i : Nat) (s : State) :
    freesOf (loadHeaders buffer fuel i s).1.events = freesOf s.events := by
  induction fuel generalizing i s with
  | zero => rfl
  | succ fuel ih =>
    unfold loadHeaders
    simp only
    split
    · split
      · split
        · rfl
        · rw [ih, freesOf_loadSegment]
      · exact ih _ _
    · rfl

theorem freesOf_relocateEntries (t : Tables) (count j : Nat) (s : State) :
    freesOf (relocateEntries t count j s).1.events = freesOf s.events := by
  induction count generalizing j s with
  | zero => rfl
  | succ count ih =>
    unfold relocateEntries
    rcases relocateEntry_cases t j s with heq | ⟨v, value, heq, _, _⟩
    · rw [heq]
    · rw [heq]
      simp only
      rw [ih]
      unfold patch State.log
      simp only [freesOf_append]
      simp [freesOf]

theorem extractSymbol_events (t : Tables) (is : List Nat) (s : State) :
    (is.foldl (extractSymbol t) s).events = s.events := by
  induction is generalizing s with
  | nil => rfl
  | cons i is ih =>
    rw [List.foldl_cons, ih]
    unfold extractSymbol
    simp only
    split
    · rfl
    · rfl

theorem extractSymbols_same (t : Tables) (is : List Nat) (s : State) :
    (is.foldl (extractSymbol t) s).mem = s.mem ∧
      (is.foldl (extractSymbol t) s).segments = s.segments := by
  induction is generalizing s with
  | nil => exact ⟨rfl, rfl⟩
  | cons i is ih =>
    rw [List.foldl_cons]
    obtain ⟨hmem, hsegments⟩ := ih (extractSymbol t s i)
    rw [hmem, hsegments]
    unfold extractSymbol
    simp only
    split
    · exact ⟨rfl, rfl⟩
    · exact ⟨rfl, rfl⟩

theorem freesOf_relocate (buffer : Nat) (s : State) :
    freesOf (relocate buffer s).1.events = freesOf s.events := by
  have hentries := freesOf_relocateEntries (sections s.mem buffer)
    (sections s.mem buffer).relCount 0 s
  unfold relocate
  simp only
  split
  · rename_i heq
    rw [heq] at hentries
    exact hentries
  · rename_i heq
    rw [heq] at hentries
    simp only
    rw [extractSymbol_events]
    exact hentries

theorem loadProgram_frees (hlen : file.filelen = some filelen) (hne : file.buffer ≠ 0) :
    freesOf (loadProgram file (init mem)).1.events = [file.buffer] := by
  have hlast : ∀ s : State, freesOf s.events = [] →
      freesOf (s.log (.kfree file.buffer)).events = [file.buffer] := by
    intro s hs
    unfold State.log
    simp only [freesOf_append, hs]
    rfl
  unfold loadProgram
  simp only [hlen, if_neg hne]
  split
  · exact hlast _ rfl
  · split
    · exact hlast _ rfl
    · split
      · exact hlast _ rfl
      · split
        · exact hlast _ rfl
        · have hheaders := freesOf_loadHeaders file.buffer (2 ^ 16) 0
            (init (storeBytes mem file.buffer file.bytes))
          split
          · rename_i heq
            have hs : freesOf (loadHeaders file.buffer (2 ^ 16) 0
                (init (storeBytes mem file.buffer file.bytes))).1.events = [] := hheaders
            exact hlast _ ((congrArg (fun r => freesOf (Prod.fst r).events) heq).symm.trans hs)
          · rename_i heq
            have hs : freesOf (loadHeaders file.buffer (2 ^ 16) 0
                (init (storeBytes mem file.buffer file.bytes))).1.events = [] := hheaders
            refine hlast _ ((freesOf_relocate _ _).trans ?_)
            exact (congrArg (fun r => freesOf (Prod.fst r).events) heq).symm.trans hs

variable {segs : List Segment} {t : Tables}

theorem extractSymbols_left {is : List Nat} (hsame : SameOn (InFile b n) m s.mem)
    (hsegs : s.segments = segs) (hin : ∀ i ∈ is, SymInside m b n t i) :
    (is.foldl (extractSymbol t) s).segments = segs ∧
      (is.foldl (extractSymbol t) s).symbols = s.symbols ++
        (is.filter fun i => (symAt m t i).name ≠ 0).map (symbolAt m segs t) := by
  induction is generalizing s with
  | nil =>
    refine ⟨hsegs, ?_⟩
    rw [List.filter_nil, List.map_nil, List.append_nil]
    rfl
  | cons i is ih =>
    have hhere := hin i List.mem_cons_self
    have hrest : ∀ j ∈ is, SymInside m b n t j := fun j hj => hin j (List.mem_cons_of_mem i hj)
    have hname : (Sym.read s.mem (t.sym + i * Sym.size)).name = (symAt m t i).name :=
      load32_congr hsame hhere.name
    rw [List.foldl_cons]
    cases Classical.em ((symAt m t i).name = 0) with
    | inl hzero =>
      have hskip : extractSymbol t s i = s := by
        unfold extractSymbol
        simp only [hname]
        exact if_pos hzero
      rw [hskip, List.filter_cons_of_neg (by simpa using hzero)]
      exact ih hsame hsegs hrest
    | inr hne =>
      have hvalue : (Sym.read s.mem (t.sym + i * Sym.size)).value = (symAt m t i).value :=
        load32_congr hsame (hhere.value hne)
      have hkeep : extractSymbol t s i =
          { s with symbols := s.symbols ++ [symbolAt m segs t i] } := by
        unfold extractSymbol symbolAt
        simp only [hname, hvalue, hsegs]
        exact if_neg hne
      rw [hkeep, List.filter_cons_of_pos (by simpa using hne), List.map_cons]
      obtain ⟨hsegments, hsymbols⟩ :=
        ih (s := { s with symbols := s.symbols ++ [symbolAt m segs t i] }) hsame hsegs hrest
      refine ⟨hsegments, hsymbols.trans ?_⟩
      rw [List.append_assoc, List.singleton_append]

theorem relocateEntries_loadable (hapart : Apart m b n) (hin : TablesInside m b n)
    (hload : Loadable m b) (h : Followed m b n (Ehdr.read m b).phnum s) :
    Followed m b n (Ehdr.read m b).phnum
        (relocateEntries (sections m b) (sections m b).relCount 0 s).1 ∧
      ((relocateEntries (sections m b) (sections m b).relCount 0 s).2 = true ↔
        ∀ i < (sections m b).relCount,
          Applies m (segmentsOf m b (Ehdr.read m b).phnum) (sections m b) i) := by
  have hheaders : ∀ i < (Ehdr.read m b).phnum, PhdrInside m b n i ∧ ¬ Refused m b i := fun i hi =>
    ⟨hin.phdrs hload.1 i hi fun j hj => hload.2 j (by omega), hload.2 i hi⟩
  have hrels : ∀ l, 0 ≤ l → l < 0 + (sections m b).relCount → (∀ k, 0 ≤ k → k < l →
      Applies m (segmentsOf m b (Ehdr.read m b).phnum) (sections m b) k) →
        RelInside m b n (segmentsOf m b (Ehdr.read m b).phnum) (sections m b) l :=
    fun l _ hl hbefore => hin.rels hload l (by omega) fun k hk => hbefore k (Nat.zero_le _) hk
  obtain ⟨hafter, happlied⟩ := relocateEntries_followed h (patchesApart hapart hheaders) hrels
  refine ⟨hafter, happlied.trans ?_⟩
  simp only [Nat.zero_le, true_implies, Nat.zero_add]

theorem relocate_left (hroom : b + n ≤ 2 ^ 32) (hapart : Apart m b n) (hin : TablesInside m b n)
    (hload : Loadable m b) (h : Followed m b n (Ehdr.read m b).phnum s) :
    SameOn (InFile b n) m (relocate b s).1.mem ∧
      (relocate b s).1.segments = segmentsOf m b (Ehdr.read m b).phnum ∧
      (Relocated m b → (relocate b s).1.symbols = (keptSymbols m (sections m b)).map
        (symbolAt m (segmentsOf m b (Ehdr.read m b).phnum) (sections m b))) ∧
      (¬ Relocated m b → (relocate b s).1.symbols = []) := by
  obtain ⟨hafter, happlied⟩ := relocateEntries_loadable hapart hin hload h
  unfold relocate
  simp only [sections_followed hroom h.same (hin.counts hload) (hin.shdrs hload)]
  cases hresult : relocateEntries (sections m b) (sections m b).relCount 0 s with
  | mk u ok =>
    rw [hresult] at hafter happlied
    cases ok with
    | false =>
      refine ⟨hafter.same, hafter.segments, ?_, fun _ => hafter.symbols⟩
      intro hrelocated
      exact absurd (happlied.2 hrelocated.2) (by simp)
    | true =>
      have hrelocated : Relocated m b := ⟨hload, happlied.1 rfl⟩
      have hsyms : ∀ i ∈ List.range (sections m b).symCount, SymInside m b n (sections m b) i :=
        fun i hi => hin.syms hload hrelocated.2 i (List.mem_range.1 hi)
      obtain ⟨hsegments, hsymbols⟩ := extractSymbols_left hafter.same hafter.segments hsyms
      rw [hafter.symbols, List.nil_append] at hsymbols
      refine ⟨?_, hsegments, fun _ => hsymbols, fun hnot => absurd hrelocated hnot⟩
      rw [(extractSymbols_same _ _ _).1]
      exact hafter.same

theorem segmentsOf_length_le {i j : Nat} (hle : i ≤ j) :
    (segmentsOf m b i).length ≤ (segmentsOf m b j).length := by
  induction hle with
  | refl => exact Nat.le_refl _
  | step _ ih =>
    rw [segmentsOf_succ, List.length_append]
    omega

theorem loadProgram_left {n : Nat} (hread : ReadInFull file) (hroom : file.buffer + n ≤ 2 ^ 32)
    (hapart : Apart (storeBytes mem file.buffer file.bytes) file.buffer n)
    (hin : TablesInside (storeBytes mem file.buffer file.bytes) file.buffer n) :
    ((loadProgram file (init mem)).1.segments.length ≤ 12 ∧
      (loadProgram file (init mem)).1.symbols.length ≤ 12 ∧
      ∀ sym ∈ (loadProgram file (init mem)).1.symbols, sym.name = 0) ↔
    Unnamed (storeBytes mem file.buffer file.bytes) file.buffer := by
  obtain ⟨filelen, hlen, hne, hresult⟩ := hread
  have hinit : ∀ m, (init m).mem = m := fun _ => rfl
  have hstored : ∀ m, ({ init mem with mem := m } : State) = init m := fun _ => rfl
  unfold loadProgram
  simp only [hlen, if_neg hne, hresult, ne_eq, not_true_eq_false, if_false, hinit, hstored]
  generalize storeBytes mem file.buffer file.bytes = m at hapart hin ⊢
  have hrefused : ¬ Accepted m file.buffer → Unnamed m file.buffer := fun hnot =>
    ⟨fun hacc => absurd hacc hnot, fun hrel => absurd hrel.1.1 hnot,
      fun hrel => absurd hrel.1.1 hnot⟩
  have hnothing : ∀ e, ((init m).log e).segments.length ≤ 12 ∧
    ((init m).log e).symbols.length ≤ 12 ∧
      ∀ sym ∈ ((init m).log e).symbols, sym.name = 0 :=
    fun e => ⟨Nat.zero_le _, Nat.zero_le _, by simp [State.log, init]⟩
  split
  · rename_i hother
    exact iff_of_true (hnothing _) (hrefused fun hacc => hother hacc.1)
  · rename_i hident
    split
    · rename_i hother
      exact iff_of_true (hnothing _) (hrefused fun hacc => hother hacc.2.1)
    · rename_i hmachine
      split
      · rename_i hother
        exact iff_of_true (hnothing _) (hrefused fun hacc => hother hacc.2.2)
      · rename_i htype
        have haccepted : Accepted m file.buffer :=
          ⟨not_not.1 hident, not_not.1 hmachine, not_not.1 htype⟩
        have hcount : (Ehdr.read m file.buffer).phnum ≤ 0 + 2 ^ 16 := by
          have hlt : (Ehdr.read m file.buffer).phnum < 2 ^ 16 := load16_lt
          omega
        obtain ⟨l, s, _, hle, hbefore, hstop, heq, hfollowed⟩ :=
          loadHeaders_followed hroom (hin.header haccepted) hapart hcount (Nat.zero_le _)
            followed_init fun i _ hi hbefore =>
              hin.phdrs haccepted i hi fun j hj => hbefore j (Nat.zero_le _) hj
        -- The headers before the first refused one are those before `l`.
        have hsegments : (segmentsOf m file.buffer l).length ≤ 12 ↔
            ∀ i ≤ (Ehdr.read m file.buffer).phnum, (∀ j < i, ¬ Refused m file.buffer j) →
              (segmentsOf m file.buffer i).length ≤ 12 := by
          constructor
          · intro hshort i hi hnone
            refine Nat.le_trans (segmentsOf_length_le ?_) hshort
            apply Nat.le_of_not_lt
            intro hlt
            exact hnone l hlt (hstop (by omega))
          · intro hall
            exact hall l hle fun j hj => hbefore j (Nat.zero_le _) hj
        cases Nat.eq_or_lt_of_le hle with
        | inr hlt =>
          have hnot : ¬ Relocated m file.buffer := fun hrel => hrel.1.2 l hlt (hstop hlt)
          rw [heq, decide_eq_false (by omega)]
          simp only [State.log, hfollowed.segments, hfollowed.symbols]
          rw [hsegments]
          constructor
          · intro hand
            exact ⟨fun _ => hand.1, fun hrel => absurd hrel hnot, fun hrel => absurd hrel hnot⟩
          · intro hun
            exact ⟨hun.segments haccepted, Nat.zero_le _, by simp⟩
        | inl hend =>
          have hload : Loadable m file.buffer :=
            ⟨haccepted, fun i hi => hbefore i (Nat.zero_le _) (by omega)⟩
          rw [heq, decide_eq_true hend]
          rw [hend] at hfollowed hsegments
          obtain ⟨_, hsegs, hkept, hnone⟩ := relocate_left hroom hapart hin hload hfollowed
          simp only [State.log, hsegs]
          rw [hsegments]
          cases Classical.em (Relocated m file.buffer) with
          | inr hnot =>
            rw [hnone hnot]
            constructor
            · intro hand
              exact ⟨fun _ => hand.1, fun hrel => absurd hrel hnot, fun hrel => absurd hrel hnot⟩
            · intro hun
              exact ⟨hun.segments haccepted, Nat.zero_le _, by simp⟩
          | inl hrel =>
            rw [hkept hrel, List.length_map]
            constructor
            · intro hand
              refine ⟨fun _ => hand.1, fun _ => hand.2.1, ?_⟩
              intro _ i hi
              exact hand.2.2 _ (List.mem_map_of_mem hi)
            · intro hun
              refine ⟨hun.segments haccepted, hun.symbols hrel, ?_⟩
              intro sym hsym
              obtain ⟨i, hi, rfl⟩ := List.mem_map.1 hsym
              exact hun.names hrel i hi

end Vectors

/-! ### The whole life -/

/-- What the kernel answers while the loader reads a file of `filelen` bytes. -/
structure Served (A : Allocator) (file : File) (filelen : Nat) : Prop where
  size : filelen + 31 < 2 ^ 32
  buffer : file.buffer = A.answer [] filelen
  ample : Ample A filelen

def InHeap (A : Allocator) (x : Nat) : Prop := A.base ≤ x ∧ x < A.base + A.size

/-- No segment comes to lie over the heap, nor the word that a relocation may patch at the end of
one. -/
def OffHeap (A : Allocator) (m : Memory) (b n : Nat) : Prop :=
  ∀ i < (Ehdr.read m b).phnum, PhdrInside m b n i → (phdr m b i).type = PT_LOAD →
    ¬ Refused m b i →
    Within (fun x => ¬ InHeap A x) (phdr m b i).vaddr (phdr m b i).memsz ∧
      Within (fun x => ¬ InHeap A x) (phdr m b i).vaddr (segmentSize (phdr m b i).memsz + 4)

theorem OffHeap.apart {A : Allocator} {m : Memory} {b n : Nat} (h : OffHeap A m b n)
    (hlow : A.base ≤ b) (hhigh : b + n ≤ A.base + A.size) : Apart m b n := by
  have hout : ∀ x, ¬ InHeap A x → ¬ InFile b n x := by
    intro x hx hin
    unfold InFile at hin
    unfold InHeap at hx
    omega
  intro i hi hin htype hnot
  obtain ⟨hsegment, hpatch⟩ := h i hi hin htype hnot
  exact ⟨fun k hk => hout _ (hsegment k hk), fun k hk => hout _ (hpatch k hk)⟩

/-- The 16 MiB of a heap behind an image that ends below `0xF2000000`. -/
def bootHeap : Allocator := Kmalloc.bumpAllocator 0xF2000000 (16 * 1024 * 1024) (by omega)

theorem bootHeap_served {file : File} {filelen : Nat} (hsmall : filelen ≤ 4096)
    (hbuffer : file.buffer = 0xF2000010) :
    Served bootHeap file filelen := by
  have hclass : (Kmalloc.requestClass filelen).2 ≤ 4096 + 32 := by
    have hspec : Kmalloc.requestClass filelen =
        ((Kmalloc.requestClass filelen).1, (Kmalloc.requestClass filelen).2) := rfl
    obtain ⟨_, _, _, hslack⟩ := Kmalloc.requestClass_spec hspec
    omega
  refine ⟨by omega, ?_, Kmalloc.bumpAllocator_ample _ (by omega)⟩
  have hroom : ¬ 0xF2000000 + 16 * 1024 * 1024 ≤
      0xF2000000 + (Kmalloc.requestClass filelen).2 := by omega
  exact hbuffer.trans (if_neg hroom).symm

/-- An executable of 143 bytes with one segment and one dynamic symbol, whose name lies behind the
symbol table. -/
def namedElf : List UInt8 :=
  [0x7F, 0x45, 0x4C, 0x46, 0, 0, 0, 0, 0, 0, 0, 0, 0, 0, 0, 0, 2, 0, 3, 0, 0, 0, 0, 0] ++
  [0, 0x80, 4, 8, 52, 0, 0, 0, 84, 0, 0, 0, 0, 0, 0, 0, 52, 0, 32, 0, 1, 0, 40, 0, 1, 0, 0, 0] ++
  [1, 0, 0, 0, 0, 0, 0, 0, 0, 0x80, 4, 8, 0, 0, 0, 0, 1, 0, 0, 0, 1, 0, 0, 0, 0, 0, 0, 0,
    0, 0, 0, 0] ++
  [0, 0, 0, 0, 11, 0, 0, 0, 0, 0, 0, 0, 0, 0, 0, 0, 124, 0, 0, 0, 16, 0, 0, 0] ++
  [0, 0, 0, 0, 0, 0, 0, 0, 0, 0, 0, 0, 0, 0, 0, 0] ++
  [1, 0, 0, 0, 0, 0x80, 4, 8, 0, 0, 0, 0, 0, 0, 0, 0] ++ [0, 102, 0]

def namedFile : File where
  filelen := some 143
  buffer := 0xF2000010
  result := 143
  bytes := namedElf

end OsdevCourse.Loader
