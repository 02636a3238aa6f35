import OsdevCourse.MmuCloneExact

/-!
# What a step does

The result of every step of the memory manager is a function of the state before it. It is
given here for runs that do not meet an empty pool. The windows show one of the directories,
which need not be the active one.
-/

namespace OsdevCourse.Mmu

set_option autoImplicit false

open PageEntry

/-- The directory that the windows show. -/
def shown (s : State) : Word := frameOf (s.mem s.cr3 1023)

/-- The page table that the windows show for an address. -/
def windowTable (s : State) (addr : Nat) : Word := frameOf (s.mem (shown s) (mmuPdIndex addr))

/-- The windows show a page table for the address, or there is a frame for one. -/
def HasTable (s : State) (addr : Nat) : Prop :=
  present (s.mem (shown s) (mmuPdIndex addr)) = true ∨ 0 < s.framesIndex

/-- The state in which `mmu_mark` has a page table. -/
def withTable (k : Kernel) (addr : Nat) (s : State) : State :=
  if present (s.mem (shown s) (mmuPdIndex addr)) = true then s else madeTable k (shown s) addr s

def markAt (k : Kernel) (addr : Nat) (paddr flag : Word) (s : State) : Bool × State :=
  marked (frameOf ((withTable k addr s).mem (shown s) (mmuPdIndex addr)))
    (mmuPtIndex addr) addr paddr
    flag (withTable k addr s)

instance (flag entry : Word) : Decidable (Releases flag entry) :=
  inferInstanceAs (Decidable (_ ∧ _ ∧ _))

def unmapAt (k : Kernel) (addr : Nat) (flag : Word) (s : State) : State :=
  let entry := s.mem (windowTable s addr) (mmuPtIndex addr)
  let s' := s.set (windowTable s addr) (mmuPtIndex addr) 0#32
  if Releases flag entry then (freed k (frameOf entry) s').invlpg addr else s'

def faultAt (k : Kernel) (addr : Nat) (s : State) : State :=
  putInto k (shown s) addr (top k s) { s with framesIndex := s.framesIndex - 1 }

def storeAt (addr : Nat) (w : Word) (s : State) : State :=
  match translate s addr with
  | some place => s.set place.1 place.2 w
  | none => s

/-- The frame for the new directory is popped before the page table of the window. -/
def cloneAt (k : Kernel) (s : State) : Word × State :=
  if s.framesIndex = 0 then (0#32, s)
  else
    let f := top k s
    let s₁ := withTable k kaddrClondpd { s with framesIndex := s.framesIndex - 1 }
    let t := frameOf (s₁.mem (shown s) 959)
    if present (s₁.mem t 1023) = true then (0#32, freed k f s₁) else (f, cloned k t f s₁)

namespace Spaces

/-- The result of a step. -/
def after (k : Kernel) (x : Spaces) : Op → Spaces
  | .mark addr paddr flag => x.afterMark addr flag (markAt k addr paddr flag x.state)
  | .unmap addr flag => x.afterUnmap addr (unmapAt k addr flag x.state)
  | .fault addr => { x with state := faultAt k addr x.state }
  | .store addr w => { x with state := storeAt addr w x.state }
  | .clone => x.afterClone (cloneAt k x.state).1 (cloneAt k x.state).2
  | .switch pd => { x with state := x.state.loadCr3 pd }

end Spaces

theorem Recursive.shown_eq {s : State} {dir : Word} (h : Recursive s dir) : shown s = dir := h.frame

namespace Roles
variable {k : Kernel} {L : Pool k} {role : Word → Role} {x : Spaces} (h : Roles L role x)
include h

theorem shown_mem : shown x.state ∈ x.dirs k := by
  obtain ⟨dir, hdir, hrec, _⟩ := h.recursive
  rw [hrec.shown_eq]
  exact hdir

theorem shown_recursive : Recursive x.state (shown x.state) := by
  obtain ⟨dir, _, hrec, _⟩ := h.recursive
  rw [hrec.shown_eq]
  exact hrec

theorem shown_last : x.state.mem (shown x.state) 1023 = shown x.state + 3#32 := by
  obtain ⟨dir, _, hrec, hlast⟩ := h.recursive
  rw [hrec.shown_eq]
  exact hlast

theorem shown_settled {addr : Nat} (hd : mmuPdIndex addr < 1022) :
    present (x.state.mem (shown x.state) (mmuPdIndex addr)) = true ∨
      x.state.mem (shown x.state) (mmuPdIndex addr) = 0#32 :=
  h.dirsOk.settled _ h.shown_mem _ hd

/-! ### `mmu_mark` -/

theorem withTable_tabled {addr : Nat} (hd : mmuPdIndex addr < 1022)
    (htable : HasTable x.state addr) :
    ∃ role', Tabled L x addr (shown x.state) role role' (withTable k addr x.state) := by
  have hdir := h.shown_mem
  have hrec := h.shown_recursive
  have hlast := h.shown_last
  unfold withTable
  by_cases hpresent : present (x.state.mem (shown x.state) (mmuPdIndex addr)) = true
  · rw [if_pos hpresent]
    exact ⟨role, hdir, hlast, hrec, hpresent, h, rfl, fun _ _ => rfl, .inl rfl⟩
  · have hpos := htable.resolve_left hpresent
    have hzero := (h.shown_settled hd).resolve_left hpresent
    obtain ⟨role', hroles, hkept⟩ := h.madeTable_roles hdir hlast hd hpos hzero
    rw [if_neg hpresent]
    refine ⟨role', hdir, hlast, h.madeTable_recursive hdir hrec hlast hd hpos, ?_, hroles,
      madeTable_cr3, ?_, .inr ⟨hzero, hpos, rfl⟩⟩
    · rw [h.madeTable_entry hdir hlast hd hpos]
      exact present_installed _ _
    · intro f hf
      apply hkept
      intro heq
      rw [heq] at hf
      exact hf _ (h.top_role hpos)

/-- Where the pool has a frame for a missing page table `mmu_mark` goes through. -/
theorem mark_total {addr : Nat} (hd : mmuPdIndex addr < 1022) (htable : HasTable x.state addr)
    {alloc : Fault → State → Option (Word × State)} (hfeeds : Feeds alloc) (depth : Nat)
    (paddr flag : Word) : mmuMark (int0E k alloc (depth + 1) 0) addr paddr flag x.state =
      some (markAt k addr paddr flag x.state) := by
  have hrec := h.shown_recursive
  unfold markAt withTable
  by_cases hpresent : present (x.state.mem (shown x.state) (mmuPdIndex addr)) = true
  · rw [if_pos hpresent]
    exact hrec.mmuMark_present _ paddr flag hpresent
  · have hpos := htable.resolve_left hpresent
    have hzero := (h.shown_settled hd).resolve_left hpresent
    have hframe : frameOf (tableEntry (top k x.state)) = top k x.state :=
      frameOf_installed _ (L.isFrame _ (h.top_mem hpos))
    rw [if_neg hpresent, h.madeTable_entry h.shown_mem h.shown_last hd hpos, hframe]
    exact h.mmuMark_made h.shown_mem hrec h.shown_last hd hpos hfeeds hzero depth paddr flag

theorem mark_effect {addr depth : Nat} (hd : mmuPdIndex addr < 1022) {paddr flag : Word}
    {r : Bool × State} (hr : mmuMark (pageFaultFed k depth) addr paddr flag x.state = some r) :
    HasTable x.state addr ∧ r = markAt k addr paddr flag x.state := by
  have hrec := h.shown_recursive
  by_cases hpresent : present (x.state.mem (shown x.state) (mmuPdIndex addr)) = true
  · rw [hrec.mmuMark_present _ paddr flag hpresent] at hr
    unfold markAt withTable
    rw [if_pos hpresent]
    exact ⟨.inl hpresent, (Option.some.inj hr).symm⟩
  · have hzero := (h.shown_settled hd).resolve_left hpresent
    have hstarved : ¬ (depth = 0 ∨ x.state.framesIndex = 0) := by
      intro hnone
      rw [hrec.mmuMark_starved hd hzero hnone] at hr
      exact absurd hr (by simp)
    obtain ⟨n, rfl⟩ : ∃ n, depth = n + 1 := ⟨depth - 1, by omega⟩
    have htable : HasTable x.state addr := .inr (by omega)
    exact ⟨htable, Option.some.inj
      (hr.symm.trans (h.mark_total hd htable feeds_mmuAllocFed n paddr flag))⟩

/-! ### `mmu_munmap` and page faults -/

theorem unmap_effect {addr depth : Nat} (hd : mmuPdIndex addr < 1022) {flag : Word}
    (hallowed : flag &&& mmuMunmapNorelease = 0#32 →
      ∀ t i, slot x.state addr = some (t, i) → ¬ x.fixed t i)
    {alloc : Fault → State → Option (Word × State)} {s' : State}
    (hr : unmapPage (int0E k alloc depth 0) addr flag x.state = some s') :
    present (x.state.mem (shown x.state) (mmuPdIndex addr)) = true ∧
      s' = unmapAt k addr flag x.state := by
  obtain ⟨⟨t, hunmapped⟩, _⟩ := h.unmapPage_effect hd hallowed hr
  have hslot := hunmapped.slot
  unfold slot at hslot
  rw [h.shown_recursive.translate_ptSlot] at hslot
  by_cases hpresent : present (x.state.mem (shown x.state) (mmuPdIndex addr)) = true
  · rw [if_pos hpresent, Option.some.injEq, Prod.mk.injEq] at hslot
    refine ⟨hpresent, ?_⟩
    have htable : windowTable x.state addr = t := hslot.1
    unfold unmapAt
    simp only [htable]
    rcases hunmapped.cases with ⟨hkept, heq⟩ | ⟨hreleases, _, _, _, heq⟩
    · rw [if_neg hkept]
      exact heq
    · rw [if_pos hreleases]
      exact heq
  · rw [if_neg hpresent] at hslot
    exact absurd hslot (by simp)

theorem fault_effect {addr depth : Nat} (hunmapped : translate x.state addr = none) {s' : State}
    (hr : pageFaultFed k depth addr x.state = some s') :
    0 < x.state.framesIndex ∧ mmuPdIndex addr < 1022 ∧
      present (x.state.mem (shown x.state) (mmuPdIndex addr)) = true ∧
      present (x.state.mem (windowTable x.state addr) (mmuPtIndex addr)) = false ∧
      s' = faultAt k addr x.state := by
  have hpos := h.fault_pos hunmapped hr
  obtain ⟨dir, _, hrec, t, _, hd, _, hpresent, rfl, habsent, heq⟩ :=
    h.fault_cases hunmapped feeds_mmuAllocFed hpos hr
  obtain rfl := hrec.shown_eq
  exact ⟨hpos, hd, hpresent, habsent, heq⟩

/-! ### `mmu_clone_pagedir` -/

/-- The frame on top of the pool is in hand, and the window gets its page table. -/
theorem popped_tabled (hpos : 0 < x.state.framesIndex)
    (htable : HasTable { x.state with framesIndex := x.state.framesIndex - 1 } kaddrClondpd) :
    let role₁ := Function.update role (top k x.state) .loose
    let x₁ : Spaces := { x with state := { x.state with framesIndex := x.state.framesIndex - 1 } }
    Roles L role₁ x₁ ∧ role₁ (top k x.state) = .loose ∧ ∃ role',
      Tabled L x₁ kaddrClondpd (shown x.state) role₁ role' (withTable k kaddrClondpd x₁.state) := by
  intro role₁ x₁
  have hpopped : Roles L role₁ x₁ := h.pop hpos
  refine ⟨hpopped, Function.update_self .., ?_⟩
  exact hpopped.withTable_tabled (by decide) htable

theorem clone_effect {depth : Nat} {pd : Word} {s' : State}
    (hr : mmuClonePagedir (pageFaultFed k depth) k x.state = some (pd, s')) :
    (0 < x.state.framesIndex →
      HasTable { x.state with framesIndex := x.state.framesIndex - 1 } kaddrClondpd) ∧
      (pd, s') = cloneAt k x.state := by
  unfold cloneAt
  by_cases hempty : x.state.framesIndex = 0
  · unfold mmuClonePagedir at hr
    simp only [mmuAlloc_empty hempty, Option.bind_eq_bind, Option.bind_some, if_true,
      Option.some.injEq] at hr
    rw [if_pos hempty]
    exact ⟨fun hpos => by omega, hr.symm⟩
  · have hpos : 0 < x.state.framesIndex := by omega
    have halloc := h.alloc_eq feeds_mmuAlloc hpos (pageFaultFed k depth)
    have hne := L.ne_zero (h.top_mem hpos)
    have hpopped := h.pop hpos
    rw [if_neg hempty]
    cases hmark : mmuMark (pageFaultFed k depth) kaddrClondpd (top k x.state) mmuPageNoalloc
        { x.state with framesIndex := x.state.framesIndex - 1 } with
    | none =>
      have hcount : pageCount 4096 = some 1 := rfl
      unfold mmuClonePagedir at hr
      rw [halloc] at hr
      simp only [Option.bind_eq_bind, Option.bind_some, if_neg hne, mmuMmap, hcount, markPages,
        hmark, Option.bind_none] at hr
      exact absurd hr (by simp)
    | some r =>
      obtain ⟨htable, heq⟩ := hpopped.mark_effect (by decide) hmark
      obtain ⟨_, hloose, role', htabled⟩ := h.popped_tabled hpos htable
      refine ⟨fun _ => htable, ?_⟩
      rw [heq] at hmark
      obtain ⟨pd', s'', hclone, _, hfree, hbusy⟩ := hpopped.clone_tabled hloose htabled halloc hmark
      rw [Option.some.inj (hr.symm.trans hclone)]
      cases hwindow : present ((withTable k kaddrClondpd
          { x.state with framesIndex := x.state.framesIndex - 1 }).mem
            (frameOf ((withTable k kaddrClondpd
              { x.state with framesIndex := x.state.framesIndex - 1 }).mem (shown x.state) 959))
            1023) with
      | false =>
        obtain ⟨rfl, rfl⟩ := hfree hwindow
        simp only [hwindow, Bool.false_eq_true, if_false]
      | true =>
        obtain ⟨rfl, rfl⟩ := hbusy hwindow
        simp only [hwindow, if_true]

end Roles

/-! ### The memory after a step -/

namespace Roles
variable {k : Kernel} {L : Pool k} {role : Word → Role} {x : Spaces}
    (h : Roles L role x) {addr : Nat}
  (hd : mmuPdIndex addr < 1022)
include h hd

theorem window_role (hpresent : present (x.state.mem (shown x.state) (mmuPdIndex addr)) = true) :
    role (windowTable x.state addr) =
      .table (owner k (shown x.state) (mmuPdIndex addr)) (mmuPdIndex addr) :=
  h.dirsOk.tables _ h.shown_mem _ hd hpresent

omit hd in
theorem window_slot (hpresent : present (x.state.mem (shown x.state) (mmuPdIndex addr)) = true) :
    slot x.state addr = some (windowTable x.state addr, mmuPtIndex addr) :=
  h.shown_recursive.translate_ptSlot_present hpresent

theorem withTable_mem (htable : HasTable x.state addr) (g : Word) (j : Nat) :
    (withTable k addr x.state).mem g j =
      if present (x.state.mem (shown x.state) (mmuPdIndex addr)) = true then x.state.mem g j
      else if g = shown x.state ∧ j = mmuPdIndex addr then tableEntry (top k x.state)
      else if g = k.pd ∧ j = 1023 then shown x.state + 3#32
      else if g = top k x.state then 0#32
      else x.state.mem g j := by
  unfold withTable
  by_cases hpresent : present (x.state.mem (shown x.state) (mmuPdIndex addr)) = true
  · rw [if_pos hpresent, if_pos hpresent]
  · rw [if_neg hpresent, if_neg hpresent]
    exact h.madeTable_mem h.shown_mem h.shown_last hd (htable.resolve_left hpresent) g j

/-- The page that is released had its frame to itself, and there is a slot for it. -/
theorem released {flag : Word}
    (hpresent : present (x.state.mem (shown x.state) (mmuPdIndex addr)) = true)
    (hallowed : flag &&& mmuMunmapNorelease = 0#32 →
      ∀ t i, slot x.state addr = some (t, i) → ¬ x.fixed t i)
    (hreleases : Releases flag (x.state.mem (windowTable x.state addr) (mmuPtIndex addr))) :
    role (frameOf (x.state.mem (windowTable x.state addr) (mmuPtIndex addr))) =
      .page (windowTable x.state addr) (mmuPtIndex addr) ∧
      x.state.framesIndex < L.frames.length := by
  obtain ⟨hbit, hflag, _⟩ := hreleases
  have hpte : present (x.state.mem (windowTable x.state addr) (mmuPtIndex addr)) = true := by
    rw [← Bool.not_eq_false]
    intro habsent
    exact hbit ((and_present_eq_zero _).2 habsent)
  have hrole := h.tables.pages _ _ (h.table_role h.shown_mem hd hpresent) (mmuPtIndex_lt addr) hpte
    (hallowed hflag _ _ (h.window_slot hpresent))
  have hout : ∀ i, role (frameOf (x.state.mem (windowTable x.state addr) (mmuPtIndex addr))) ≠
      .pool i := by
    intro i heq
    exact Role.noConfusion (hrole.symm.trans heq)
  refine ⟨hrole, h.framesIndex_lt (h.named.data _ ?_) hout⟩
  unfold windowTable
  rw [hrole]
  exact True.intro

theorem unmapAt_mem (hpresent : present (x.state.mem (shown x.state) (mmuPdIndex addr)) = true)
    (flag : Word) (g : Word) (j : Nat) : (unmapAt k addr flag x.state).mem g j =
      if Releases flag (x.state.mem (windowTable x.state addr) (mmuPtIndex addr)) ∧
        g = poolPage k x.state (x.state.framesIndex / 1024) ∧ j = x.state.framesIndex % 1024 then
        frameOf (x.state.mem (windowTable x.state addr) (mmuPtIndex addr))
      else if g = windowTable x.state addr ∧ j = mmuPtIndex addr then 0#32
      else x.state.mem g j := by
  have hpoolPt : windowTable x.state addr ≠ k.framepoolPt := by
    intro heq
    have hrole := h.window_role hd hpresent
    rw [heq, h.named.poolPt] at hrole
    exact Role.noConfusion hrole
  have hpage : poolPage k (x.state.set (windowTable x.state addr) (mmuPtIndex addr) 0#32)
      (x.state.framesIndex / 1024) = poolPage k x.state (x.state.framesIndex / 1024) := by
    unfold poolPage
    rw [set_mem_frame _ _ _ _ hpoolPt.symm]
  have hindex : (x.state.set (windowTable x.state addr) (mmuPtIndex addr) 0#32).framesIndex =
    x.state.framesIndex := rfl
  unfold unmapAt
  simp only
  split
  · rename_i hreleases
    simp only [invlpg_mem, freed, set_mem, hindex, hpage, hreleases, true_and]
  · rename_i hkept
    simp only [set_mem, hkept, false_and, if_false]

end Roles

/-- A step that is allowed has its result, and what it needed is there. -/
def Spaces.Ready (x : Spaces) : Spaces.Op → Prop
  | .mark addr _ _ => HasTable x.state addr
  | .unmap addr _ => present (x.state.mem (shown x.state) (mmuPdIndex addr)) = true
  | .fault addr => 0 < x.state.framesIndex ∧ mmuPdIndex addr < 1022 ∧
      present (x.state.mem (shown x.state) (mmuPdIndex addr)) = true ∧
      present (x.state.mem (windowTable x.state addr) (mmuPtIndex addr)) = false
  | .store addr _ => ∃ place, translate x.state addr = some place
  | .clone => 0 < x.state.framesIndex →
      HasTable { x.state with framesIndex := x.state.framesIndex - 1 } kaddrClondpd
  | .switch _ => True

theorem Spaces.Step.effect {k : Kernel} {L : Pool k} {x y : Spaces} {op : Spaces.Op}
    (hstep : Spaces.Step k (pageFaultFed k) x op y) (hallowed : Spaces.Allowed k L.outside x op)
    {role : Word → Role} (h : Roles L role x) : x.Ready op ∧ y = x.after k op := by
  cases hstep with
  | mark hr =>
    obtain ⟨htable, heq⟩ := h.mark_effect (Spaces.pdIndex_below hallowed.1) hr
    rw [heq]
    exact ⟨htable, rfl⟩
  | unmap hr =>
    obtain ⟨hpresent, heq⟩ := h.unmap_effect (Spaces.pdIndex_below hallowed.1) hallowed.2 hr
    rw [heq]
    exact ⟨hpresent, rfl⟩
  | fault hunmapped hr =>
    obtain ⟨hpos, hd, hpresent, habsent, heq⟩ := h.fault_effect hunmapped hr
    rw [heq]
    exact ⟨⟨hpos, hd, hpresent, habsent⟩, rfl⟩
  | store hplace =>
    refine ⟨⟨_, hplace⟩, ?_⟩
    simp only [Spaces.after, storeAt, hplace]
  | clone hr =>
    obtain ⟨htable, heq⟩ := h.clone_effect hr
    unfold Spaces.after
    rw [← heq]
    exact ⟨htable, rfl⟩
  | switch hpd => exact ⟨True.intro, rfl⟩

end OsdevCourse.Mmu
