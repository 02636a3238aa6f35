import OsdevCourse.MmuStepEffects

/-!
# Two machines that differ in their free frames

Whatever the free frames hold, a step does the same. The tables and directories that it walks are
not free, so it reads the same words, and a frame that it takes from the pool is cleared or filled
in before the step is over.
-/

namespace OsdevCourse.Mmu

set_option autoImplicit false

open PageEntry

/-- The states are the same, apart from what the frames of `D` hold. -/
structure AgreeOff (D : Word → Prop) (s s' : State) : Prop where
  cr3 : s'.cr3 = s.cr3
  index : s'.framesIndex = s.framesIndex
  mem : ∀ f, ¬ D f → ∀ j, s'.mem f j = s.mem f j

theorem putInto_cr3 (k : Kernel) (dir : Word) (addr : Nat) (f : Word) (s : State) :
    (putInto k dir addr f s).cr3 = s.cr3 := by
  unfold putInto
  split
  · rfl
  · rfl

theorem marked_framesIndex (t : Word) (i addr : Nat) (paddr flag : Word) (s : State) :
    (marked t i addr paddr flag s).2.framesIndex = s.framesIndex := by
  unfold marked
  simp only
  split
  · split
    · rfl
    · rfl
  · split
    · rfl
    · rfl

namespace AgreeOff
variable {D : Word → Prop} {s s' : State} (h : AgreeOff D s s')
include h

theorem mono {E : Word → Prop} (hsub : ∀ f, D f → E f) : AgreeOff E s s' :=
  ⟨h.cr3, h.index, fun f hf => h.mem f fun hd => hf (hsub f hd)⟩

theorem set (f : Word) (i : Nat) (w : Word) : AgreeOff D (s.set f i w) (s'.set f i w) := by
  refine ⟨h.cr3, h.index, ?_⟩
  intro g hg j
  rw [set_mem, set_mem, h.mem g hg]

theorem invlpg (addr : Nat) : AgreeOff D (s.invlpg addr) (s'.invlpg addr) := ⟨h.cr3, h.index, h.mem⟩

theorem withIndex (n : Nat) : AgreeOff D { s with framesIndex := n } { s' with framesIndex := n } :=
  ⟨h.cr3, rfl, h.mem⟩

theorem loadCr3 (pd : Word) : AgreeOff D (s.loadCr3 pd) (s'.loadCr3 pd) := ⟨rfl, h.index, h.mem⟩

theorem put (k : Kernel) {dir : Word} (addr : Nat) (f : Word) (hdir : ¬ D dir)
    (htable : ¬ D (frameOf (s.mem dir (mmuPdIndex addr)))) :
    AgreeOff (fun g => D g ∧ g ≠ f) (putInto k dir addr f s) (putInto k dir addr f s') := by
  refine ⟨?_, ?_, ?_⟩
  · rw [putInto_cr3, putInto_cr3, h.cr3]
  · rw [putInto_framesIndex, putInto_framesIndex, h.index]
  · intro g hg j
    rw [putInto_mem, putInto_mem, h.mem dir hdir, h.mem _ htable]
    by_cases hf : g = f
    · rw [if_pos hf, if_pos hf]
    · rw [if_neg hf, if_neg hf, h.mem g fun hd => hg ⟨hd, hf⟩]

theorem mark {t : Word} (ht : ¬ D t) (i addr : Nat) (paddr flag : Word) :
    (marked t i addr paddr flag s').1 = (marked t i addr paddr flag s).1 ∧
      AgreeOff D (marked t i addr paddr flag s).2 (marked t i addr paddr flag s').2 := by
  unfold marked
  simp only [h.mem t ht i]
  split
  · split
    · exact ⟨rfl, h.set _ _ _⟩
    · exact ⟨rfl, (h.set _ _ _).invlpg _⟩
  · split
    · exact ⟨rfl, h.set _ _ _⟩
    · exact ⟨rfl, h⟩

theorem free {k : Kernel} (hpt : ¬ D k.framepoolPt) (f : Word) :
    AgreeOff D (freed k f s) (freed k f s') := by
  have hpage : ∀ j, poolPage k s' j = poolPage k s j := fun j => congrArg frameOf (h.mem _ hpt j)
  unfold freed
  rw [h.index, hpage]
  exact (h.set _ _ _).withIndex _

theorem clone {k : Kernel} {t f : Word} (hpd : ¬ D k.pd) (htf : t ≠ f) (hpdf : k.pd ≠ f)
    (hpdt : k.pd ≠ t) : AgreeOff (fun g => D g ∧ g ≠ f) (cloned k t f s) (cloned k t f s') := by
  refine ⟨h.cr3, h.index, ?_⟩
  intro g hg j
  rw [cloned_mem htf hpdf hpdt, cloned_mem htf hpdf hpdt, h.mem k.pd hpd]
  by_cases hf : g = f
  · rw [if_pos hf, if_pos hf]
  · rw [if_neg hf, if_neg hf, h.mem g fun hd => hg ⟨hd, hf⟩]

end AgreeOff

/-- The frame is free. -/
def InPool (k : Kernel) (s : State) (f : Word) : Prop := ∃ i < s.framesIndex, poolWord k s i = f

namespace Roles
variable {k : Kernel} {L : Pool k} {role : Word → Role} {x : Spaces} (h : Roles L role x)
include h

theorem inPool_idle {f : Word} (hf : InPool k x.state f) : (role f).IsIdle := by
  obtain ⟨i, hi, rfl⟩ := hf
  rw [h.slots.inPool i hi]
  exact True.intro

/-! ### What is read is the same -/

section Agree
variable {D : Word → Prop} {s' : State} (hidle : ∀ f, D f → (role f).IsIdle)
  (hagree : AgreeOff D x.state s')
include hidle

theorem dir_off {a : Word} (ha : a ∈ x.dirs k) : ¬ D a := by
  intro hd
  have hrole := hidle a hd
  rw [h.named.dir ha] at hrole
  exact hrole

omit h in
theorem table_off {t : Word} (ht : (role t).IsTable) : ¬ D t := by
  intro hd
  have hrole := hidle t hd
  cases hcase : role t with
  | table o d => rw [hcase] at hrole; exact hrole
  | _ => rw [hcase] at ht; exact ht

theorem poolPt_off : ¬ D k.framepoolPt := by
  intro hd
  have hrole := hidle _ hd
  rw [h.named.poolPt] at hrole
  exact hrole

theorem tableOf_off {a : Word} (ha : a ∈ x.dirs k) {addr : Nat}
    (hpresent : present (x.state.mem a (mmuPdIndex addr)) = true) :
    ¬ D (Spaces.tableOf x.state a addr) :=
  fun hd => h.tableOf_ne_idle (hidle _ hd) ha hpresent rfl

include hagree

theorem poolWord_agree_off {i : Nat} (hi : i < L.frames.length) :
    poolWord k s' i = poolWord k x.state i := by
  obtain ⟨hj, hbacked⟩ := L.slot_backed hi
  unfold poolWord poolPage
  rw [hagree.mem _ (h.poolPt_off hidle), h.slots.poolTable]
  apply hagree.mem
  intro hd
  have hrole := hidle _ hd
  rw [h.named.backing _ hj hbacked] at hrole
  exact hrole

theorem agree : Roles L role { x with state := s' } := by
  refine ⟨⟨h.named.pd, h.named.pt, h.named.poolPt, h.named.backing, h.named.data, h.named.clone⟩,
    ?_, ?_, ?_⟩
  · refine h.dirsOk.congr rfl hagree.cr3 ?_ fun _ _ => rfl
    intro a ha
    exact hagree.mem a (h.dir_off hidle ha)
  · apply h.slots.congr (Nat.le_of_eq hagree.index) ?_ ?_ fun _ _ => rfl
    · exact hagree.mem _ (h.poolPt_off hidle)
    · intro i hi
      have hle := h.framesIndex_le
      simp only [hagree.index] at hi
      exact h.poolWord_agree_off hidle hagree (by omega)
  · refine h.tables.congr rfl (fun _ => Iff.rfl) ?_ fun _ _ _ hpage _ _ => hpage
    intro t ht
    exact hagree.mem t (table_off hidle ht)

theorem shown_agree : shown s' = shown x.state := by
  unfold shown
  rw [hagree.cr3, hagree.mem _ (h.dir_off hidle h.dirsOk.cr3)]

theorem shown_entry_agree (j : Nat) :
    s'.mem (shown s') j = x.state.mem (shown x.state) j := by
  rw [h.shown_agree hidle hagree]
  exact hagree.mem _ (h.dir_off hidle h.shown_mem) j

theorem windowTable_agree (addr : Nat) : windowTable s' addr = windowTable x.state addr :=
  congrArg frameOf (h.shown_entry_agree hidle hagree _)

theorem hasTable_agree (addr : Nat) : HasTable s' addr ↔ HasTable x.state addr := by
  unfold HasTable
  rw [h.shown_entry_agree hidle hagree, hagree.index]

theorem top_agree (hpos : 0 < x.state.framesIndex) : top k s' = top k x.state := by
  have hle := h.framesIndex_le
  unfold top
  rw [hagree.index]
  exact h.poolWord_agree_off hidle hagree (by omega)

theorem translate_agree (addr : Nat) : translate s' addr = translate x.state addr := by
  have hcr3 := h.dirsOk.cr3
  unfold translate
  simp only [hagree.cr3, hagree.mem _ (h.dir_off hidle hcr3)]
  by_cases hpresent : present (x.state.mem x.state.cr3 (mmuPdIndex addr)) = true
  · have htable := h.tableOf_off hidle hcr3 hpresent
    unfold Spaces.tableOf at htable
    simp only [hagree.mem _ htable]
  · rw [if_neg hpresent, if_neg hpresent]

theorem withTable_agree {addr : Nat} (hd : mmuPdIndex addr < 1022)
    (htable : HasTable x.state addr) :
    AgreeOff (fun f => D f ∧
        (present (x.state.mem (shown x.state) (mmuPdIndex addr)) = true ∨ f ≠ top k x.state))
      (withTable k addr x.state) (withTable k addr s') := by
  have hentry := h.shown_entry_agree hidle hagree (mmuPdIndex addr)
  have hshown := h.shown_agree hidle hagree
  by_cases hpresent : present (x.state.mem (shown x.state) (mmuPdIndex addr)) = true
  · unfold withTable
    rw [hentry, if_pos hpresent, if_pos hpresent]
    exact hagree.mono fun f hf => ⟨hf, .inl hpresent⟩
  · have htop := h.top_agree hidle hagree (htable.resolve_left hpresent)
    have hset : AgreeOff D
        { x.state.set (shown x.state) (mmuPdIndex addr) tableMark with
          framesIndex := x.state.framesIndex - 1 }
        { s'.set (shown x.state) (mmuPdIndex addr) tableMark with
          framesIndex := x.state.framesIndex - 1 } := (hagree.set _ _ _).withIndex _
    have hlast : (x.state.set (shown x.state) (mmuPdIndex addr) tableMark).mem
      (shown x.state) 1023 =
        shown x.state + 3#32 := by
      rw [set_mem_word _ _ _ _ _ (by omega)]
      exact h.shown_last
    have hdir := h.dir_off hidle h.shown_mem
    have hframe := frameOf_static (h.named.isFrame_dir h.shown_mem)
    have hput := hset.put k (ptSlot addr) (top k x.state) hdir (by
      rw [mmuPdIndex_ptSlot]
      simp only [hlast, hframe]
      exact hdir)
    unfold withTable madeTable
    rw [hentry, hshown, htop, hagree.index, if_neg hpresent, if_neg hpresent]
    exact hput.mono fun f hf => ⟨hf.1, .inr hf.2⟩

end Agree

/-! ### What stays in the pool -/

theorem withTable_pool {addr : Nat} (hd : mmuPdIndex addr < 1022) (htable : HasTable x.state addr)
    {f : Word} (hf : InPool k x.state f)
    (hkept : present (x.state.mem (shown x.state) (mmuPdIndex addr)) = true ∨ f ≠ top k x.state) :
    InPool k (withTable k addr x.state) f := by
  obtain ⟨role', htabled⟩ := h.withTable_tabled hd htable
  obtain ⟨i, hi, hword⟩ := hf
  have hindex := htabled.index
  have hlt : i < (withTable k addr x.state).framesIndex := by
    by_cases hpresent : present (x.state.mem (shown x.state) (mmuPdIndex addr)) = true
    · rw [if_pos hpresent] at hindex
      omega
    · rw [if_neg hpresent] at hindex
      have hne : i ≠ x.state.framesIndex - 1 := by
        intro heq
        apply hkept.resolve_left hpresent
        rw [← hword, heq]
        rfl
      omega
  exact ⟨i, hlt, (htabled.slots_kept h hd hlt).trans hword⟩

theorem marked_pool {t : Word} (ht : (role t).IsTable) (i addr : Nat) (paddr flag : Word) {f : Word}
    (hf : InPool k x.state f) : InPool k (marked t i addr paddr flag x.state).2 f := by
  obtain ⟨j, hj, hword⟩ := hf
  refine ⟨j, ?_, Eq.trans ?_ hword⟩
  · rw [marked_framesIndex]
    exact hj
  · apply h.slots_kept Role.IsTable id (fun _ => id) ?_ hj
    intro g hg
    apply marked_mem_frame
    rintro rfl
    exact hg ht

theorem freed_pool {f : Word} (hloose : role f = .loose) {g : Word}
    (hg : g = f ∨ InPool k x.state g) : InPool k (freed k f x.state) g := by
  have hf : f ∈ L.frames := by
    apply h.named.data
    rw [hloose]
    exact True.intro
  have hpage := h.poolPage_role (h.framesIndex_lt hf (by rw [hloose]; simp))
  have hpt : ∀ j, (freed k f x.state).mem k.framepoolPt j = x.state.mem k.framepoolPt j := by
    intro j
    apply set_mem_frame
    intro heq
    rw [← heq, h.named.poolPt] at hpage
    exact Role.noConfusion hpage
  rcases hg with rfl | ⟨i, hi, hword⟩
  · refine ⟨x.state.framesIndex, Nat.lt_succ_self _, ?_⟩
    unfold poolWord poolPage
    rw [hpt]
    exact set_mem_same _ _ _ _
  · refine ⟨i, Nat.lt_succ_of_lt hi, Eq.trans ?_ hword⟩
    apply h.pool_kept hpt ?_ hi
    intro g b j hg hother
    apply if_neg
    rintro ⟨rfl, rfl⟩
    exact hother ⟨Role.backing.inj (hg.symm.trans hpage), rfl⟩

theorem unmapAt_pool {addr : Nat} (hd : mmuPdIndex addr < 1022)
    (hpresent : present (x.state.mem (shown x.state) (mmuPdIndex addr)) = true) {flag : Word}
    (hallowed : flag &&& mmuMunmapNorelease = 0#32 →
      ∀ t i, slot x.state addr = some (t, i) → ¬ x.fixed t i)
    {f : Word} (hf : InPool k x.state f) : InPool k (unmapAt k addr flag x.state) f := by
  obtain ⟨i, hi, hword⟩ := hf
  have hmem := h.unmapAt_mem hd hpresent flag
  have htable := h.window_role hd hpresent
  refine ⟨i, ?_, Eq.trans ?_ hword⟩
  · unfold unmapAt
    simp only
    split
    · exact Nat.lt_succ_of_lt hi
    · exact hi
  -- a frame that is released goes to the next free slot
  have hslot : ∀ g j, Releases flag (x.state.mem (windowTable x.state addr) (mmuPtIndex addr)) ∧
      g = poolPage k x.state (x.state.framesIndex / 1024) ∧ j = x.state.framesIndex % 1024 →
      role g = .backing (x.state.framesIndex / 1024) ∧ j = x.state.framesIndex % 1024 := by
    rintro g j ⟨hreleases, rfl, rfl⟩
    exact ⟨h.poolPage_role (h.released hd hpresent hallowed hreleases).2, rfl⟩
  apply h.pool_kept ?_ ?_ hi
  · intro j
    rw [hmem, if_neg, if_neg]
    · rintro ⟨heq, -⟩
      rw [← heq, h.named.poolPt] at htable
      exact Role.noConfusion htable
    · intro hand
      have hrole := (hslot _ _ hand).1
      rw [h.named.poolPt] at hrole
      exact Role.noConfusion hrole
  · intro g b j hg hother
    rw [hmem, if_neg, if_neg]
    · rintro ⟨heq, -⟩
      rw [heq, htable] at hg
      exact Role.noConfusion hg
    · intro hand
      obtain ⟨hrole, hj⟩ := hslot _ _ hand
      exact hother ⟨Role.backing.inj (hg.symm.trans hrole), hj⟩

theorem faultAt_pool {addr : Nat} (hpos : 0 < x.state.framesIndex) (hd : mmuPdIndex addr < 1022)
    (hpresent : present (x.state.mem (shown x.state) (mmuPdIndex addr)) = true) {f : Word}
    (hf : InPool k x.state f ∧ f ≠ top k x.state) : InPool k (faultAt k addr x.state) f := by
  obtain ⟨⟨i, hi, hword⟩, hne⟩ := hf
  have htable := h.window_role hd hpresent
  have htop := h.top_role hpos
  refine ⟨i, ?_, Eq.trans ?_ hword⟩
  · unfold faultAt
    rw [putInto_framesIndex]
    have hlast : i ≠ x.state.framesIndex - 1 := by
      rintro rfl
      exact hne hword.symm
    exact Nat.lt_of_le_of_ne (Nat.le_sub_one_of_lt hi) hlast
  · apply h.slots_kept (fun r => r = .directory ∨ r.IsData ∨ r.IsTable)
      (by simp [Role.IsData, Role.IsTable])
      (fun b => by simp [Role.IsData, Role.IsTable]) ?_ hi
    intro g hg j
    unfold faultAt
    rw [putInto_mem, if_neg, if_neg, if_neg]
    · rintro ⟨rfl, -⟩
      apply hg
      right
      right
      exact h.table_role h.shown_mem hd hpresent
    · rintro rfl
      rw [htop] at hg
      exact hg (.inr (.inl True.intro))
    · rintro ⟨-, rfl, -⟩
      exact hg (.inl h.named.pd)

theorem storeAt_pool {addr : Nat} {w : Word} (hd : mmuPdIndex addr < 1022)
    (hdemand : ¬ x.fixed (Spaces.tableOf x.state x.state.cr3 addr) (mmuPtIndex addr))
    {place : Word × Nat} (hplace : translate x.state addr = some place) {f : Word}
    (hf : InPool k x.state f) : InPool k (x.state.set place.1 place.2 w) f := by
  obtain ⟨i, hi, hword⟩ := hf
  have hrole := h.stored_role hd hdemand hplace
  refine ⟨i, hi, Eq.trans ?_ hword⟩
  apply h.slots_kept Role.IsData id (fun _ => id) ?_ hi
  intro g hg j
  apply set_mem_frame
  rintro rfl
  rw [hrole] at hg
  exact hg True.intro

end Roles

/-! ### A step from both -/

theorem cloneAt_of {k : Kernel} {s s₁ : State} {f t : Word} (hne : s.framesIndex ≠ 0)
    (hf : top k s = f)
    (hs : withTable k kaddrClondpd { s with framesIndex := s.framesIndex - 1 } = s₁)
    (ht : frameOf (s₁.mem (shown s) 959) = t) :
    cloneAt k s = if present (s₁.mem t 1023) = true then (0#32, freed k f s₁)
      else (f, cloned k t f s₁) := by
  subst hf hs ht
  exact if_neg hne

/-- The two differ at most in what the free frames hold. -/
structure Alike (k : Kernel) (x x' : Spaces) : Prop where
  clones : x'.clones = x.clones
  fixed : x'.fixed = x.fixed
  state : AgreeOff (InPool k x.state) x.state x'.state

theorem Alike.eq {k : Kernel} {x x' : Spaces} (h : Alike k x x') :
    x' = { x with state := x'.state } := by
  obtain ⟨s', clones', fixed'⟩ := x'
  obtain ⟨rfl, rfl, _⟩ := h
  rfl

namespace Roles
variable {k : Kernel} {L : Pool k} {role : Word → Role} {x : Spaces}
    (h : Roles L role x) {s' : State}
  (hagree : AgreeOff (InPool k x.state) x.state s')
include h hagree

theorem markAt_alike {addr : Nat} (hd : mmuPdIndex addr < 1022) (htable : HasTable x.state addr)
    (paddr flag : Word) : (markAt k addr paddr flag s').1 = (markAt k addr paddr flag x.state).1 ∧
      AgreeOff (InPool k (markAt k addr paddr flag x.state).2) (markAt k addr paddr flag x.state).2
        (markAt k addr paddr flag s').2 := by
  have hidle := fun f (hf : InPool k x.state f) => h.inPool_idle hf
  obtain ⟨role', htabled⟩ := h.withTable_tabled hd htable
  have hroles := htabled.roles
  have hwith : AgreeOff (InPool k (withTable k addr x.state)) (withTable k addr x.state)
      (withTable k addr s') :=
    (h.withTable_agree hidle hagree hd htable).mono fun f hf => h.withTable_pool hd htable hf.1 hf.2
  have hidle' := fun f (hf : InPool k (withTable k addr x.state) f) => hroles.inPool_idle hf
  have ht := hroles.table_role htabled.mem_dirs hd htabled.present_pde
  have hentry : (withTable k addr s').mem (shown s') (mmuPdIndex addr) =
      (withTable k addr x.state).mem (shown x.state) (mmuPdIndex addr) := by
    rw [h.shown_agree hidle hagree]
    exact hwith.mem _ (hroles.dir_off hidle' htabled.mem_dirs) _
  unfold markAt
  rw [hentry]
  obtain ⟨hok, hmarked⟩ := hwith.mark (table_off hidle' ht) (mmuPtIndex addr) addr paddr flag
  exact ⟨hok, hmarked.mono fun f hf => hroles.marked_pool ht _ _ _ _ hf⟩

theorem unmapAt_alike {addr : Nat} (hd : mmuPdIndex addr < 1022)
    (hpresent : present (x.state.mem (shown x.state) (mmuPdIndex addr)) = true) {flag : Word}
    (hallowed : flag &&& mmuMunmapNorelease = 0#32 →
      ∀ t i, slot x.state addr = some (t, i) → ¬ x.fixed t i) :
    AgreeOff (InPool k (unmapAt k addr flag x.state)) (unmapAt k addr flag x.state)
      (unmapAt k addr flag s') := by
  have hidle := fun f (hf : InPool k x.state f) => h.inPool_idle hf
  have ht := h.table_role h.shown_mem hd hpresent
  have hoff : ¬ InPool k x.state (windowTable x.state addr) := table_off hidle ht
  have hagree' : AgreeOff (InPool k x.state) (unmapAt k addr flag x.state)
      (unmapAt k addr flag s') := by
    unfold unmapAt
    rw [h.windowTable_agree hidle hagree]
    simp only [hagree.mem _ hoff]
    split
    · exact ((hagree.set _ _ _).free (h.poolPt_off hidle) _).invlpg _
    · exact hagree.set _ _ _
  exact hagree'.mono fun f hf => h.unmapAt_pool hd hpresent hallowed hf

theorem faultAt_alike {addr : Nat} (hpos : 0 < x.state.framesIndex) (hd : mmuPdIndex addr < 1022)
    (hpresent : present (x.state.mem (shown x.state) (mmuPdIndex addr)) = true) :
    AgreeOff (InPool k (faultAt k addr x.state)) (faultAt k addr x.state) (faultAt k addr s') := by
  have hidle := fun f (hf : InPool k x.state f) => h.inPool_idle hf
  have ht := h.table_role h.shown_mem hd hpresent
  have hput := (hagree.withIndex (x.state.framesIndex - 1)).put k addr (top k x.state)
    (h.dir_off hidle h.shown_mem) (table_off hidle ht)
  unfold faultAt
  rw [h.shown_agree hidle hagree, h.top_agree hidle hagree hpos, hagree.index]
  exact hput.mono fun f hf => h.faultAt_pool hpos hd hpresent hf

theorem storeAt_alike {addr : Nat} {w : Word} (hd : mmuPdIndex addr < 1022)
    (hdemand : ¬ x.fixed (Spaces.tableOf x.state x.state.cr3 addr) (mmuPtIndex addr)) :
    AgreeOff (InPool k (storeAt addr w x.state)) (storeAt addr w x.state) (storeAt addr w s') := by
  have htranslate := h.translate_agree (fun f hf => h.inPool_idle hf) hagree addr
  unfold storeAt
  rw [htranslate]
  cases hplace : translate x.state addr with
  | none => exact hagree
  | some place =>
    exact (hagree.set _ _ _).mono fun f hf => h.storeAt_pool hd hdemand hplace hf

theorem cloneAt_alike (hready : 0 < x.state.framesIndex →
      HasTable { x.state with framesIndex := x.state.framesIndex - 1 } kaddrClondpd) :
    (cloneAt k s').1 = (cloneAt k x.state).1 ∧
      AgreeOff (InPool k (cloneAt k x.state).2) (cloneAt k x.state).2 (cloneAt k s').2 := by
  have hidle := fun f (hf : InPool k x.state f) => h.inPool_idle hf
  have hindex := hagree.index
  by_cases hempty : x.state.framesIndex = 0
  · unfold cloneAt
    rw [hindex, if_pos hempty, if_pos hempty]
    exact ⟨rfl, hagree⟩
  · have hpos : 0 < x.state.framesIndex := by omega
    have htable := hready hpos
    have hd : mmuPdIndex kaddrClondpd < 1022 := by decide
    obtain ⟨hpopped, hloose, role', htabled⟩ := h.popped_tabled hpos htable
    have hroles := htabled.roles
    have htop := h.top_agree hidle hagree hpos
    generalize hf : top k x.state = f at hpopped hloose htabled htop
    let s₁ : State := { x.state with framesIndex := x.state.framesIndex - 1 }
    let s₁' : State := { s' with framesIndex := s'.framesIndex - 1 }
    have hidle₁ : ∀ g, InPool k x.state g → (Function.update role f Role.loose g).IsIdle := by
      intro g hg
      by_cases hgf : g = f
      · rw [hgf, hloose]
        exact True.intro
      · rw [Function.update_of_ne hgf]
        exact hidle g hg
    have hagree₁ : AgreeOff (InPool k x.state) s₁ s₁' :=
      ⟨hagree.cr3, congrArg (· - 1) hindex, hagree.mem⟩
    have hwith := hpopped.withTable_agree hidle₁ hagree₁ hd htable
    generalize hD : (fun g => InPool k x.state g ∧
      (present (s₁.mem (shown s₁) (mmuPdIndex kaddrClondpd)) = true ∨ g ≠ top k s₁)) = D at hwith
    have hpool : ∀ g, D g → g = f ∨ InPool k (withTable k kaddrClondpd s₁) g := by
      subst hD
      rintro g ⟨⟨i, hi, hword⟩, hkept⟩
      by_cases hlast : i = x.state.framesIndex - 1
      · left
        rw [← hword, hlast]
        exact hf
      · right
        exact hpopped.withTable_pool hd htable
          ⟨i, Nat.lt_of_le_of_ne (Nat.le_sub_one_of_lt hi) hlast, hword⟩ hkept
    have hloose' : role' f = .loose := (htabled.kept f (by rw [hloose]; simp)).trans hloose
    have hidle' : ∀ g, D g → (role' g).IsIdle := by
      intro g hg
      rcases hpool g hg with rfl | hin
      · rw [hloose']
        exact True.intro
      · exact hroles.inPool_idle hin
    have hdir := htabled.mem_dirs
    have hpde : present ((withTable k kaddrClondpd s₁).mem (shown x.state) 959) = true :=
      htabled.present_pde
    have hentry : (withTable k kaddrClondpd s₁').mem (shown s') 959 =
        (withTable k kaddrClondpd s₁).mem (shown x.state) 959 := by
      rw [h.shown_agree hidle hagree]
      exact hwith.mem _ (hroles.dir_off hidle' hdir) _
    have ht := hroles.table_role hdir (by omega) hpde
    obtain ⟨_, htf, htdirs⟩ := window_table hroles hdir hpde rfl hloose'
    have hoff := table_off hidle' ht
    have hslots := fun i hi => window_slots hroles hdir hpde rfl hloose' (i := i) hi
    have hpd : k.pd ∈ x.dirs k := List.mem_cons_self ..
    have hpdf : k.pd ≠ f := by
      rintro rfl
      have hrole := hroles.named.pd
      rw [hloose'] at hrole
      exact Role.noConfusion hrole
    have hbusy := hwith.mem _ hoff 1023
    rw [cloneAt_of hempty hf rfl rfl, cloneAt_of (by omega) htop rfl (congrArg frameOf hentry)]
    generalize htEq : frameOf ((withTable k kaddrClondpd s₁).mem (shown x.state) 959) = t at *
    by_cases hpresent : present ((withTable k kaddrClondpd s₁).mem t 1023) = true
    · rw [if_pos hpresent, if_pos (by rw [hbusy]; exact hpresent)]
      refine ⟨rfl, (hwith.free (hroles.poolPt_off hidle') f).mono ?_⟩
      intro g hg
      exact hroles.freed_pool hloose' (hpool g hg)
    · rw [if_neg hpresent, if_neg (by rw [hbusy]; exact hpresent)]
      have hclone := hwith.clone (hroles.dir_off hidle' hpd) htf hpdf fun heq => htdirs (heq ▸ hpd)
      refine ⟨rfl, hclone.mono ?_⟩
      rintro g ⟨hg, hne⟩
      obtain ⟨i, hi, hword⟩ := (hpool g hg).resolve_left hne
      exact ⟨i, hi, (hslots i hi).trans hword⟩

theorem after_alike {op : Spaces.Op} (hready : x.Ready op)
    (hallowed : Spaces.Allowed k L.outside x op)
    {role' : Word → Role} (h' : Roles L role' (x.after k op)) :
    Alike k (x.after k op) (Spaces.after k { x with state := s' } op) := by
  have hidle := fun f (hf : InPool k x.state f) => h.inPool_idle hf
  cases op with
  | mark addr paddr flag =>
    obtain ⟨hok, hmarked⟩ := h.markAt_alike hagree
      (Spaces.pdIndex_below hallowed.1) hready paddr flag
    have hslot : slot (markAt k addr paddr flag s').2 addr =
        slot (markAt k addr paddr flag x.state).2 addr :=
      h'.translate_agree (fun f hf => h'.inPool_idle hf) hmarked (ptSlot addr)
    refine ⟨rfl, ?_, hmarked⟩
    simp only [Spaces.after, Spaces.afterMark, hok, hslot]
  | unmap addr flag =>
    have hslot : slot s' addr = slot x.state addr := h.translate_agree hidle hagree (ptSlot addr)
    refine ⟨rfl, ?_, h.unmapAt_alike hagree (Spaces.pdIndex_below hallowed.1) hready hallowed.2⟩
    simp only [Spaces.after, Spaces.afterUnmap, hslot]
  | fault addr =>
    obtain ⟨hpos, hd, hpresent, _⟩ := hready
    exact ⟨rfl, rfl, h.faultAt_alike hagree hpos hd hpresent⟩
  | store addr w =>
    exact ⟨rfl, rfl, h.storeAt_alike hagree (Spaces.pdIndex_below hallowed.1) hallowed.2⟩
  | clone =>
    obtain ⟨hpd, hcloned⟩ := h.cloneAt_alike hagree hready
    refine ⟨?_, rfl, hcloned⟩
    simp only [Spaces.after, Spaces.afterClone, hpd]
  | switch pd => exact ⟨rfl, rfl, hagree.loadCr3 pd⟩

end Roles

/-! ### Both machines can take the step -/

/-- What a step needs beside the page tables. -/
def Spaces.Possible (k : Kernel) (x : Spaces) : Spaces.Op → Prop
  | .fault addr => translate x.state addr = none ∧ Roles.Fetchable x addr (shown x.state)
  | .switch pd => pd ∈ x.dirs k
  | _ => True

namespace Roles
variable {k : Kernel} {L : Pool k} {role : Word → Role} {x : Spaces} (h : Roles L role x)
include h

theorem possible {op : Spaces.Op} {y : Spaces} (hstep : Spaces.Step k (pageFaultFed k) x op y) :
    x.Possible k op := by
  cases hstep with
  | fault hunmapped hr =>
    obtain ⟨_, _, hrec, hfetch⟩ :=
      h.fault_fetchable hunmapped feeds_mmuAllocFed (h.fault_pos hunmapped hr) hr
    obtain rfl := hrec.shown_eq
    exact ⟨hunmapped, hfetch⟩
  | switch hpd => exact hpd
  | _ => exact True.intro

theorem unmap_total {addr : Nat} (hd : mmuPdIndex addr < 1022)
    (hpresent : present (x.state.mem (shown x.state) (mmuPdIndex addr)) = true) {flag : Word}
    (hallowed : flag &&& mmuMunmapNorelease = 0#32 →
      ∀ t i, slot x.state addr = some (t, i) → ¬ x.fixed t i) (fault : Fault) :
    unmapPage fault addr flag x.state = some (unmapAt k addr flag x.state) := by
  have ht := h.table_role h.shown_mem hd hpresent
  have hslot : translate x.state (ptSlot addr) = some (windowTable x.state addr, mmuPtIndex addr) :=
    h.window_slot hpresent
  unfold unmapPage unmapAt
  rw [readWord_of_translate hslot]
  simp only [Option.bind_eq_bind, Option.bind_some]
  rw [writeWord_of_translate hslot]
  simp only [Option.bind_some]
  by_cases hreleases : Releases flag (x.state.mem (windowTable x.state addr) (mmuPtIndex addr))
  · have hlt := (h.released hd hpresent hallowed hreleases).2
    have hpt : windowTable x.state addr ≠ k.framepoolPt := by
      intro heq
      have hrole := h.window_role hd hpresent
      rw [heq, h.named.poolPt] at hrole
      exact Role.noConfusion hrole
    have hfree := mmuFree_eq (s := x.state.set (windowTable x.state addr) (mmuPtIndex addr) 0#32)
      fault
      (Nat.lt_of_lt_of_le hlt L.length_le)
      ((set_mem_frame _ _ _ _ (h.table_ne_dir h.dirsOk.cr3 ht).symm _).trans h.active_pool)
      ((congrArg present (set_mem_frame _ _ _ _ hpt.symm _)).trans (h.pool_present hlt))
      (frameOf (x.state.mem (windowTable x.state addr) (mmuPtIndex addr)))
    rw [if_pos hreleases]
    refine Eq.trans (if_pos hreleases) ?_
    rw [hfree]
    rfl
  · rw [if_neg hreleases]
    exact if_neg hreleases

/-- `mmu_clone_pagedir` returns where the pool has the frames that it needs. -/
theorem clone_total (hready : x.Ready .clone) : mmuClonePagedir (pageFaultFed k 1) k x.state =
    some (cloneAt k x.state) := by
  have hclone : ∃ pd s, mmuClonePagedir (pageFaultFed k 1) k x.state = some (pd, s) := by
    by_cases hempty : x.state.framesIndex = 0
    · refine ⟨0#32, x.state, ?_⟩
      unfold mmuClonePagedir
      simp only [mmuAlloc_empty hempty, Option.bind_eq_bind, Option.bind_some, if_true]
    · have hpos : 0 < x.state.framesIndex := by omega
      have htable := hready hpos
      obtain ⟨hpopped, hloose, role', htabled⟩ := h.popped_tabled hpos htable
      obtain ⟨pd, s, hr, _⟩ := hpopped.clone_tabled hloose htabled
        (h.alloc_eq feeds_mmuAlloc hpos (pageFaultFed k 1))
        (hpopped.mark_total (by decide) htable feeds_mmuAllocFed 0 _ _)
      exact ⟨pd, s, hr⟩
  obtain ⟨pd, s, hr⟩ := hclone
  rw [hr, (h.clone_effect hr).2]

theorem step_after {op : Spaces.Op} (hready : x.Ready op)
    (hallowed : Spaces.Allowed k L.outside x op)
    (hpossible : x.Possible k op) : Spaces.Step k (pageFaultFed k) x op (x.after k op) := by
  cases op with
  | mark addr paddr flag =>
    have hd := Spaces.pdIndex_below hallowed.1
    exact .mark (h.mark_total hd hready feeds_mmuAllocFed 0 paddr flag)
  | unmap addr flag =>
    have hd := Spaces.pdIndex_below hallowed.1
    exact .unmap (h.unmap_total hd hready hallowed.2 (pageFaultFed k 1))
  | fault addr =>
    have hput := h.fault_put feeds_mmuAllocFed hready.1 h.shown_mem h.shown_recursive hpossible.2 0
    exact .fault hpossible.1 hput
  | store addr w =>
    obtain ⟨place, hplace⟩ := hready
    simp only [Spaces.after, storeAt, hplace]
    exact .store hplace
  | clone => exact .clone (h.clone_total hready)
  | switch pd => exact .switch hpossible

section Agree
variable {s' : State} (hagree : AgreeOff (InPool k x.state) x.state s')
include hagree

theorem ready_agree {op : Spaces.Op} (hready : x.Ready op) :
    Spaces.Ready { x with state := s' } op := by
  have hidle := fun f (hf : InPool k x.state f) => h.inPool_idle hf
  cases op with
  | mark addr paddr flag => exact (h.hasTable_agree hidle hagree addr).2 hready
  | unmap addr flag =>
    simp only [Spaces.Ready, h.shown_entry_agree hidle hagree]
    exact hready
  | fault addr =>
    obtain ⟨hpos, hd, hpresent, habsent⟩ := hready
    have hoff : ¬ InPool k x.state (windowTable x.state addr) :=
      table_off hidle (h.table_role h.shown_mem hd hpresent)
    simp only [Spaces.Ready, h.shown_entry_agree hidle hagree, h.windowTable_agree hidle hagree,
      hagree.index, hagree.mem _ hoff]
    exact ⟨hpos, hd, hpresent, habsent⟩
  | store addr w =>
    obtain ⟨place, hplace⟩ := hready
    exact ⟨place, (h.translate_agree hidle hagree addr).trans hplace⟩
  | clone =>
    intro hpos
    simp only [hagree.index] at hpos
    rcases hready hpos with hpresent | hroom
    · left
      exact (congrArg present (h.shown_entry_agree hidle hagree _)).trans hpresent
    · right
      simp only [hagree.index]
      exact hroom
  | switch pd => exact True.intro

theorem allowed_agree {outside : Word → Prop} {op : Spaces.Op}
    (hallowed : Spaces.Allowed k outside x op) :
    Spaces.Allowed k outside { x with state := s' } op := by
  have hidle := fun f (hf : InPool k x.state f) => h.inPool_idle hf
  cases op with
  | unmap addr flag =>
    obtain ⟨hbelow, hrelease⟩ := hallowed
    refine ⟨hbelow, ?_⟩
    intro hflag t i hslot
    apply hrelease hflag t i
    exact (h.translate_agree hidle hagree (ptSlot addr)).symm.trans hslot
  | store addr w =>
    obtain ⟨hbelow, hdemand⟩ := hallowed
    refine ⟨hbelow, ?_⟩
    unfold Spaces.tableOf at hdemand ⊢
    simp only [hagree.cr3, hagree.mem _ (h.dir_off hidle h.dirsOk.cr3)]
    exact hdemand
  | _ => exact hallowed

theorem possible_agree {op : Spaces.Op} (hpossible : x.Possible k op) :
    Spaces.Possible k { x with state := s' } op := by
  have hidle := fun f (hf : InPool k x.state f) => h.inPool_idle hf
  cases op with
  | fault addr =>
    obtain ⟨hunmapped, hfetch⟩ := hpossible
    have hoff : ¬ InPool k x.state (frameOf (x.state.mem (shown x.state) (mmuPdIndex addr))) :=
      table_off hidle (h.table_role h.shown_mem hfetch.below hfetch.present_pde)
    have hcr3 := hagree.mem _ (h.dir_off hidle h.dirsOk.cr3)
    have hentry := h.shown_entry_agree hidle hagree (mmuPdIndex addr)
    refine ⟨(h.translate_agree hidle hagree addr).trans hunmapped, hfetch.below, ?_, ?_, ?_, ?_⟩
    · rw [hentry]
      exact hfetch.present_pde
    · simp only [hentry, hagree.mem _ hoff]
      exact hfetch.ondemand
    · simp only [hagree.cr3, hcr3]
      exact hfetch.active
    · simp only [hagree.cr3, hcr3, hentry]
      exact hfetch.same
  | switch pd => exact hpossible
  | _ => exact True.intro

end Agree

end Roles

section Both
variable {k : Kernel} {L : Pool k} {role : Word → Role} {x x' : Spaces} (halike : Alike k x x')
  (h : Roles L role x) {op : Spaces.Op}
include halike h

theorem Alike.roles : Roles L role x' := by
  rw [halike.eq]
  exact h.agree (fun f hf => h.inPool_idle hf) halike.state

theorem Alike.allowed {outside : Word → Prop} (hallowed : Spaces.Allowed k outside x op) :
    Spaces.Allowed k outside x' op := by
  rw [halike.eq]
  exact h.allowed_agree halike.state hallowed

variable {y : Spaces} (hallowed : Spaces.Allowed k L.outside x op)
  (hstep : Spaces.Step k (pageFaultFed k) x op y)
include hallowed hstep

theorem Alike.step : ∃ y', Spaces.Step k (pageFaultFed k) x' op y' := by
  have hready' := h.ready_agree halike.state (hstep.effect hallowed h).1
  have hpossible' := h.possible_agree halike.state (h.possible hstep)
  rw [← halike.eq] at hready' hpossible'
  exact ⟨_, (halike.roles h).step_after hready' (halike.allowed h hallowed) hpossible'⟩

theorem Alike.after_step {y' : Spaces} (hstep' : Spaces.Step k (pageFaultFed k) x' op y') :
    Alike k y y' := by
  obtain ⟨role', h'⟩ := hstep.roles hallowed h
  obtain ⟨hready, rfl⟩ := hstep.effect hallowed h
  obtain ⟨_, rfl⟩ := hstep'.effect (halike.allowed h hallowed) (halike.roles h)
  rw [halike.eq]
  exact h.after_alike halike.state hready hallowed h'

end Both

end OsdevCourse.Mmu
