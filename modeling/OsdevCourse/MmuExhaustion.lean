import OsdevCourse.MmuSpaceRuns

/-!
# Running out of frames

While the pool is not empty the page fault handler installs the frame it has just popped, so no
two pages share one, and no page shares one with a page table. On an empty pool `mmu_alloc`
returns zero, and the handler installs the frame at address zero without a look at it.
-/

namespace OsdevCourse.Mmu

set_option autoImplicit false

open PageEntry

/-- Under the directory `a` the page of the address is mapped on demand, and its frame is `f`. -/
structure DemandPage (k : Kernel) (x : Spaces) (a : Word) (addr : Nat) (f : Word) : Prop where
  dir : a ∈ x.dirs k
  below : mmuPdIndex addr < 1022
  present_pde : present (x.state.mem a (mmuPdIndex addr)) = true
  present_pte : present (x.state.mem (Spaces.tableOf x.state a addr) (mmuPtIndex addr)) = true
  demand : ¬ x.fixed (Spaces.tableOf x.state a addr) (mmuPtIndex addr)
  frame : frameOf (x.state.mem (Spaces.tableOf x.state a addr) (mmuPtIndex addr)) = f

/-- The directory `a` refers to the page table in the frame `f`. -/
structure TableFrame (k : Kernel) (x : Spaces) (a : Word) (d : Nat) (f : Word) : Prop where
  dir : a ∈ x.dirs k
  below : d < 1022
  present_pde : present (x.state.mem a d) = true
  frame : frameOf (x.state.mem a d) = f

/-- Two pages with one frame are one page: the same entry of the same page table, which only
directories that share the kernel half have in common. A frame behind a page is no page table,
no directory, and not free. -/
structure NoSharing (k : Kernel) (x : Spaces) : Prop where
  pages : ∀ a b addr addr' f, DemandPage k x a addr f → DemandPage k x b addr' f →
    mmuPdIndex addr = mmuPdIndex addr' ∧ mmuPtIndex addr = mmuPtIndex addr' ∧
      Spaces.tableOf x.state a addr = Spaces.tableOf x.state b addr' ∧
      (mmuPdIndex addr < 512 → a = b)
  tables : ∀ a b addr d f, DemandPage k x a addr f → ¬ TableFrame k x b d f
  directories : ∀ a addr f, DemandPage k x a addr f → f ∉ x.dirs k
  free : ∀ a addr f, DemandPage k x a addr f → ∀ i < x.state.framesIndex, poolWord k x.state i ≠ f

section NoSharing
variable {k : Kernel} {L : Pool k} {role : Word → Role} {x : Spaces} (h : Roles L role x)
include h

theorem Roles.page_role {a f : Word} {addr : Nat} (hpage : DemandPage k x a addr f) :
    role f = .page (Spaces.tableOf x.state a addr) (mmuPtIndex addr) ∧
      role (Spaces.tableOf x.state a addr) = .table (owner k a (mmuPdIndex addr))
          (mmuPdIndex addr) := by
  have htable := h.dirsOk.tables a hpage.dir _ hpage.below hpage.present_pde
  refine ⟨?_, htable⟩
  rw [← hpage.frame]
  exact h.tables.pages _ _ (h.table_role hpage.dir hpage.below hpage.present_pde) (mmuPtIndex_lt _)
    hpage.present_pte hpage.demand

theorem Roles.noSharing : NoSharing k x := by
  refine ⟨?_, ?_, ?_, ?_⟩
  · intro a b addr addr' f hpage hpage'
    obtain ⟨hrole, htable⟩ := h.page_role hpage
    obtain ⟨hrole', htable'⟩ := h.page_role hpage'
    obtain ⟨hsame, hindex⟩ := Role.page.inj (hrole.symm.trans hrole')
    rw [hsame] at htable
    obtain ⟨howner, hd⟩ := Role.table.inj (htable.symm.trans htable')
    refine ⟨hd, hindex, hsame, ?_⟩
    intro huser
    unfold owner at howner
    rw [if_pos huser, if_pos (by omega)] at howner
    exact howner
  · intro a b addr d f hpage htable
    have hrole := h.dirsOk.tables b htable.dir d htable.below htable.present_pde
    rw [htable.frame, (h.page_role hpage).1] at hrole
    exact Role.noConfusion hrole
  · intro a addr f hpage hdir
    have hrole := h.named.dir hdir
    rw [(h.page_role hpage).1] at hrole
    exact Role.noConfusion hrole
  · intro a addr f hpage i hi heq
    have hrole := h.slots.inPool i hi
    rw [heq, (h.page_role hpage).1] at hrole
    exact Role.noConfusion hrole

end NoSharing

/-! ### What a page fault installs -/

/-- The states in which `INT_0E` is called, and the addresses: between two steps on a page that
is not present, and within `mmu_mark` on a page table that it has just marked. -/
inductive Faulting (k : Kernel) (x : Spaces) : State → Nat → Prop where
  | page {addr : Nat} : translate x.state addr = none → Faulting k x x.state addr
  | table {dir : Word} {addr : Nat} : Recursive x.state dir → mmuPdIndex addr < 1022 →
      x.state.mem dir (mmuPdIndex addr) = 0#32 →
      Faulting k x (x.state.set dir (mmuPdIndex addr) tableMark) (ptSlot addr)

/-- The handler has installed one entry, for the frame it has popped; apart from that it has
changed the frame itself and an entry of `MMU_PD`. -/
def InstallsPopped (k : Kernel) (s : State) (addr : Nat) (s' : State) : Prop :=
  s'.framesIndex + 1 = s.framesIndex ∧ ∃ t i, slot s addr = some (t, i) ∧
    present (s'.mem t i) = true ∧ frameOf (s'.mem t i) = top k s ∧
    ∀ g j, ¬ (g = t ∧ j = i) → g ≠ top k s → ¬ (g = k.pd ∧ j = mmuPdIndex addr) →
      s'.mem g j = s.mem g j

section Faults
variable {k : Kernel} {L : Pool k} {role : Word → Role} {x : Spaces} (h : Roles L role x)
  (hpos : 0 < x.state.framesIndex) {addr depth : Nat} {s' : State}
include h hpos

theorem Roles.page_installs (hunmapped : translate x.state addr = none)
    (hr : pageFault k depth addr x.state = some s') : InstallsPopped k x.state addr s' := by
  obtain ⟨dir, hdir, _, t, ht, _, hslot, _, htable, _, heq⟩ :=
    h.fault_cases hunmapped feeds_mmuAlloc hpos hr
  have htne : t ≠ top k x.state := by
    intro hsame
    rw [hsame, h.top_role hpos] at ht
    exact ht
  have hpd := h.table_ne_dir (List.mem_cons_self ..) ht
  have hentry : s'.mem t (mmuPtIndex addr) = top k x.state |||
      (x.state.mem t (mmuPtIndex addr) &&& mmuProtMask) ||| mmuProtPresent := by
    rw [heq, putInto_mem, if_neg fun hand => hpd hand.2.1, if_neg htne, if_pos ⟨htable.symm, rfl⟩]
    simp only [htable]
  refine ⟨?_, t, mmuPtIndex addr, hslot, ?_, ?_, ?_⟩
  · rw [heq, putInto_framesIndex]
    exact Nat.succ_pred_eq_of_pos hpos
  · rw [hentry]
    exact present_installed _ _
  · rw [hentry]
    exact frameOf_installed _ (L.isFrame _ (h.top_mem hpos))
  · intro g j hg hf hpdg
    rw [heq, putInto_mem, if_neg fun hand => hpdg hand.2, if_neg hf, if_neg]
    intro hand
    exact hg ⟨hand.1.trans htable, hand.2⟩

theorem Roles.table_installs {dir : Word} (hrec : Recursive x.state dir)
    (hd : mmuPdIndex addr < 1022)
    (hr : pageFault k depth (ptSlot addr) (x.state.set dir (mmuPdIndex addr) tableMark) = some s') :
    InstallsPopped k (x.state.set dir (mmuPdIndex addr) tableMark) (ptSlot addr) s' := by
  obtain ⟨shown, hdir, hshown, hlast⟩ := h.recursive
  have hsame : shown = dir := hshown.frame.symm.trans hrec.frame
  rw [hsame] at hdir hlast
  have hrec₀ : Recursive (x.state.set dir (mmuPdIndex addr) tableMark) dir :=
    hrec.congr rfl (set_mem_word _ _ _ _ _ (by omega)) (set_mem_word _ _ _ _ _ (by omega))
  have htop : top k (x.state.set dir (mmuPdIndex addr) tableMark) = top k x.state :=
    h.top_tableMark hdir hpos
  have hmem := h.madeTable_mem hdir hlast hd hpos
  have hentry := h.madeTable_entry hdir hlast hd hpos
  cases depth with
  | zero => exact absurd hr (by simp [pageFault, int0E])
  | succ depth =>
    have hmade := h.table_fault hdir hrec hd hpos feeds_mmuAlloc depth
    rw [show pageFault k (depth + 1) = int0E k mmuAlloc (depth + 1) 0 from rfl, hmade] at hr
    rw [← Option.some.inj hr]
    refine ⟨?_, dir, mmuPdIndex addr, ?_, ?_, ?_, ?_⟩
    · rw [madeTable_framesIndex]
      exact Nat.succ_pred_eq_of_pos hpos
    · unfold slot
      rw [ptSlot_ptSlot]
      exact hrec₀.translate_pdSlot addr
    · rw [hentry]
      exact present_installed _ _
    · rw [hentry, htop]
      exact frameOf_installed _ (L.isFrame _ (h.top_mem hpos))
    · intro g j hg hf hpdg
      rw [htop] at hf
      rw [mmuPdIndex_ptSlot] at hpdg
      rw [hmem, if_neg hg, if_neg hpdg, if_neg hf, set_mem, if_neg hg]

end Faults

theorem Roles.installs_iff {k : Kernel} {L : Pool k} {role : Word → Role} {x : Spaces}
    (h : Roles L role x) {s s' : State} {addr depth : Nat} (hfault : Faulting k x s addr)
    (hr : pageFault k depth addr s = some s') :
    InstallsPopped k s addr s' ↔ 0 < s.framesIndex := by
  constructor
  · intro hinstalls
    have hindex := hinstalls.1
    omega
  · intro hpos
    cases hfault with
    | page hunmapped => exact h.page_installs hpos hunmapped hr
    | table hrec hd _ => exact h.table_installs hpos hrec hd hr

section Runs
variable {k : Kernel} {ram : Memory} {map : List Region} {depth : Nat} {s : State}

theorem fed_faults_install_popped (hdistinct : (usableFrames k map).Nodup)
    (hinit : mmuInit k (pageFault k depth) map (bootState k ram) = some s) {x : Spaces}
    (hrun : Reachable
      (Guarded (Spaces.Step k (pageFaultFed k)) (Spaces.Allowed k fun _ => True))
      (Spaces.start k s) x) :
    NoSharing k x ∧ ∀ s₀ addr depth s', Faulting k x s₀ addr →
      pageFault k depth addr s₀ = some s' →
        (InstallsPopped k s₀ addr s' ↔ 0 < s₀.framesIndex) := by
  obtain ⟨ptIndex, hfilling, hlow⟩ := mmuInit_filling hdistinct hinit
  have hpool : ∀ f ∈ usableFrames k map, PoolFrame k f := usableFrames_poolFrame
  obtain ⟨role, hroles⟩ := reachable_roles hrun
    (hfilling.start_roles hpool hdistinct hlow (fun _ => True) fun _ _ => True.intro)
  exact ⟨hroles.noSharing, fun _ _ _ _ hfault hr => hroles.installs_iff hfault hr⟩

end Runs

/-! ### The small machine -/

theorem afterMark_demand (x : Spaces) (addr : Nat) {flag : Word} (r : Bool × State)
    (hflag : flag &&& mmuPageNoalloc = 0#32) : x.afterMark addr flag r =
    { x with state := r.2 } := by
  unfold Spaces.afterMark
  congr 1
  funext t i
  exact propext (or_iff_left fun hand => hand.2.1 hflag)

theorem demand_allowed {k : Kernel} {outside : Word → Prop} {x : Spaces} {addr : Nat} {paddr : Word}
    (hbelow : Spaces.Below k addr) : Spaces.Allowed k outside x (.mark addr paddr mmuProtRw) :=
  ⟨hbelow, fun hflag => absurd (by decide) hflag⟩

/-- A page is mapped on demand. -/
def smallMark : Bool × State :=
  (mmuMark (pageFaultFed smallKernel 4) 0x400000 0#32 mmuProtRw smallStart).get (by decide +kernel)

/-- It is touched. -/
def smallFetched : State :=
  (pageFaultFed smallKernel 4 0x400004 smallMark.2).get (by decide +kernel)

def smallSpaces : Spaces := { Spaces.start smallKernel smallStart with state := smallFetched }

theorem step_smallMark :
    Spaces.Step smallKernel (pageFaultFed smallKernel) (Spaces.start smallKernel smallStart)
      (.mark 0x400000 0#32 mmuProtRw)
      { Spaces.start smallKernel smallStart with state := smallMark.2 } := by
  have hmarked : mmuMark (pageFaultFed smallKernel 4) 0x400000 0#32 mmuProtRw smallStart =
      some smallMark := (Option.some_get _).symm
  rw [← afterMark_demand (Spaces.start smallKernel smallStart) 0x400000 smallMark
    (show mmuProtRw &&& mmuPageNoalloc = 0#32 from by decide)]
  exact .mark hmarked

theorem step_smallFetched :
    Spaces.Step smallKernel (pageFaultFed smallKernel)
      { Spaces.start smallKernel smallStart with state := smallMark.2 } (.fault 0x400004)
      smallSpaces := by
  have htouched : pageFaultFed smallKernel 4 0x400004 smallMark.2 = some smallFetched :=
    (Option.some_get _).symm
  exact .fault (by decide +kernel) htouched

theorem small_allowed (outside : Word → Prop) (x : Spaces) :
    Spaces.Allowed smallKernel outside x (.mark 0x400000 0#32 mmuProtRw) ∧
      Spaces.Allowed smallKernel outside x (.fault 0x400004) :=
  ⟨demand_allowed ⟨by decide, by simp [imagePage, smallKernel]⟩, by simp [Spaces.Allowed]⟩

theorem smallSpaces_reachable (outside : Word → Prop) :
    Reachable (Guarded (Spaces.Step smallKernel (pageFaultFed smallKernel))
      (Spaces.Allowed smallKernel outside)) (Spaces.start smallKernel smallStart) smallSpaces :=
  ⟨_, .cons ⟨(small_allowed outside _).1, step_smallMark⟩
    (.single ⟨(small_allowed outside _).2, step_smallFetched⟩)⟩

theorem fed_faults_install_popped_touched :
    NoSharing smallKernel smallSpaces ∧ ∀ s₀ addr depth s',
      Faulting smallKernel smallSpaces s₀ addr →
      pageFault smallKernel depth addr s₀ = some s' →
        (InstallsPopped smallKernel s₀ addr s' ↔ 0 < s₀.framesIndex) := by
  have hinit : smallInit [smallRam 4] = some smallStart := (Option.some_get _).symm
  exact fed_faults_install_popped (by decide +kernel) hinit (smallSpaces_reachable _)

/-- The small machine with one frame of RAM. -/
def scarceStart : State := (smallInit [smallRam 1]).get (by decide +kernel)

/-- Two pages are mapped on demand; their page table takes the frame. -/
def scarceFirst : Bool × State :=
  (mmuMark (pageFault smallKernel 4) 0x400000 0#32 mmuProtRw scarceStart).get (by decide +kernel)

theorem step_scarceFirst :
    Spaces.Step smallKernel (pageFault smallKernel) (Spaces.start smallKernel scarceStart)
      (.mark 0x400000 0#32 mmuProtRw)
      { Spaces.start smallKernel scarceStart with state := scarceFirst.2 } := by
  have hmark : mmuMark (pageFault smallKernel 4) 0x400000 0#32 mmuProtRw scarceStart =
      some scarceFirst := (Option.some_get _).symm
  rw [← afterMark_demand (Spaces.start smallKernel scarceStart) 0x400000 scarceFirst
    (show mmuProtRw &&& mmuPageNoalloc = 0#32 from by decide)]
  exact .mark hmark

def scarceSecond : Bool × State :=
  (mmuMark (pageFault smallKernel 4) 0x401000 0#32 mmuProtRw scarceFirst.2).get (by decide +kernel)

/-- Both are touched. -/
def scarceTouched : State :=
  (pageFault smallKernel 4 0x400000 scarceSecond.2).get (by decide +kernel)

def scarceEnd : State :=
  (pageFault smallKernel 4 0x401000 scarceTouched).get (by decide +kernel)

def scarceSpaces : Spaces := { Spaces.start smallKernel scarceStart with state := scarceEnd }

theorem empty_pool_shares_frame :
    smallInit [smallRam 1] = some scarceStart ∧
      Reachable (Guarded (Spaces.Step smallKernel (pageFault smallKernel))
        (Spaces.Allowed smallKernel fun _ => True)) (Spaces.start smallKernel scarceStart)
        scarceSpaces ∧
      DemandPage smallKernel scarceSpaces smallKernel.pd 0x400000 0#32 ∧
      DemandPage smallKernel scarceSpaces smallKernel.pd 0x401000 0#32 ∧
      ¬ NoSharing smallKernel scarceSpaces := by
  let handler := pageFault smallKernel
  let x := Spaces.start smallKernel scarceStart
  have hflag : mmuProtRw &&& mmuPageNoalloc = 0#32 := by decide
  have hmark₂ : mmuMark (handler 4) 0x401000 0#32 mmuProtRw scarceFirst.2 = some scarceSecond :=
    (Option.some_get _).symm
  have hfault₁ : handler 4 0x400000 scarceSecond.2 = some scarceTouched := (Option.some_get _).symm
  have hfault₂ : handler 4 0x401000 scarceTouched = some scarceEnd :=
    (Option.some_get _).symm
  have hfirst : Spaces.Step smallKernel handler x (.mark 0x400000 0#32 mmuProtRw)
      { x with state := scarceFirst.2 } := step_scarceFirst
  have hsecond : Spaces.Step smallKernel handler { x with state := scarceFirst.2 }
      (.mark 0x401000 0#32 mmuProtRw) { x with state := scarceSecond.2 } := by
    rw [← afterMark_demand { x with state := scarceFirst.2 } 0x401000 scarceSecond hflag]
    exact .mark hmark₂
  have hthird : Spaces.Step smallKernel handler { x with state := scarceSecond.2 }
      (.fault 0x400000) { x with state := scarceTouched } :=
    .fault (by decide +kernel) hfault₁
  have hfourth : Spaces.Step smallKernel handler { x with state := scarceTouched }
      (.fault 0x401000) scarceSpaces :=
    .fault (by decide +kernel) hfault₂
  have htable : ∀ addr, mmuPdIndex addr = 1 →
      Spaces.tableOf scarceSpaces.state smallKernel.pd addr = 0x107000#32 := by
    intro addr hd
    unfold Spaces.tableOf
    rw [hd]
    decide +kernel
  have hpage : ∀ addr, mmuPdIndex addr = 1 → mmuPtIndex addr = 0 ∨ mmuPtIndex addr = 1 →
      DemandPage smallKernel scarceSpaces smallKernel.pd addr 0#32 := by
    intro addr hd hi
    have hpte : present (scarceSpaces.state.mem 0x107000#32 (mmuPtIndex addr)) = true ∧
        frameOf (scarceSpaces.state.mem 0x107000#32 (mmuPtIndex addr)) = 0#32 := by
      cases hi with
      | inl hzero => rw [hzero]; decide +kernel
      | inr hone => rw [hone]; decide +kernel
    refine ⟨List.mem_cons_self .., by omega, ?_, ?_, ?_, ?_⟩
    · rw [hd]
      decide +kernel
    · rw [htable addr hd]
      exact hpte.1
    · rw [htable addr hd]
      intro hfix
      exact absurd hfix.1 (by decide)
    · rw [htable addr hd]
      exact hpte.2
  have hzero := hpage 0x400000 rfl (.inl rfl)
  have hone := hpage 0x401000 rfl (.inr rfl)
  refine ⟨(Option.some_get _).symm, ⟨[.mark 0x400000 0#32 mmuProtRw, .mark 0x401000 0#32 mmuProtRw,
    .fault 0x400000, .fault 0x401000], ?_⟩, hzero, hone, ?_⟩
  · refine .cons ⟨demand_allowed ⟨by decide, by simp [imagePage, smallKernel]⟩, hfirst⟩
      (.cons ⟨demand_allowed ⟨by decide, by simp [imagePage, smallKernel]⟩, hsecond⟩
        (.cons ⟨by simp [Spaces.Allowed], hthird⟩
          (.cons ⟨by simp [Spaces.Allowed], hfourth⟩ (.nil _))))
  · intro hsharing
    have hsame := (hsharing.pages _ _ _ _ _ hzero hone).2.1
    exact absurd hsame (by decide)

end OsdevCourse.Mmu
