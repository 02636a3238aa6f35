import OsdevCourse.MmuUserPages

/-!
# Rows of user pages

`mmu_mmap` on demand in the user half of a process. While the pool has the page tables that are
missing the pages are marked. On an empty pool `mmu_mark` takes the frame at address zero for a
page table; the first page that is brought in behind it gets the same frame and is cleared, the
page table with it, and the access is repeated and halts.
-/

namespace OsdevCourse.Mmu

set_option autoImplicit false

open PageEntry

theorem below_user (k : Kernel) {addr : Nat} (huser : addr < 0x80000000) : Spaces.Below k addr := by
  unfold Spaces.Below pageLimit mmuFramepoolVma imagePage
  omega

theorem MarkedPages.page_start {addr : Nat} (haddr : addr < 2 ^ 32) {flag : Word} {s s' : State}
    (h : MarkedPages addr flag s s') : MarkedPages (4096 * (addr / 4096)) flag s s' := by
  have hd : mmuPdIndex (4096 * (addr / 4096)) = mmuPdIndex addr := by
    rw [mmuPdIndex_eq (by omega), mmuPdIndex_eq haddr, Nat.mul_div_cancel_left _ (by omega)]
  have hi : mmuPtIndex (4096 * (addr / 4096)) = mmuPtIndex addr := by
    rw [mmuPtIndex_eq, mmuPtIndex_eq, Nat.mul_div_cancel_left _ (by omega)]
  have hsame : SamePage (4096 * (addr / 4096)) addr := ⟨hd, hi⟩
  have hslot : ptSlot (4096 * (addr / 4096)) = ptSlot addr := by
    unfold ptSlot
    rw [hd, hi]
  have hiff : ∀ other, SamePage other (4096 * (addr / 4096)) ↔ SamePage other addr := by
    intro other
    unfold SamePage
    rw [hd, hi]
  refine ⟨h.cr3, ?_, ?_, ?_, ?_, h.kept, ?_⟩
  · rw [hd]
    exact h.index
  · rw [hslot]
    exact h.table
  · rw [entry_samePage hsame]
    exact h.page
  · intro other hother hother'
    rw [hiff] at hother
    rw [hslot] at hother'
    exact h.others other hother hother'
  · intro other prot hother
    rw [hiff] at hother
    exact h.marks other prot hother

/-- A process whose user half can be filled. -/
structure Loading {k : Kernel} (L : Pool k) (x : Spaces) : Prop where
  roles : ∃ role, Roles L role x
  tables : UserTables L x
  active : x.state.cr3 ∈ x.clones

namespace Loading
variable {k : Kernel} {L : Pool k} {x : Spaces} (h : Loading L x)
include h

theorem fenced : Fenced k x.fixed x.state := by
  obtain ⟨role, hroles⟩ := h.roles
  exact hroles.fenced h.tables h.active

theorem self : SelfMapped x.state := h.fenced.self

theorem mark {addr : Nat} (huser : addr < 0x80000000) {flag : Word}
    (hflag : flag &&& mmuPageNoalloc = 0#32)
    (hroom : present (x.state.mem x.state.cr3 (mmuPdIndex addr)) = false → 0 < x.state.framesIndex)
    (depth : Nat) (paddr : Word) :
    ∃ s', mmuMark (pageFault k (depth + 1)) addr paddr flag x.state = some (true, s') ∧
      Loading L { x with state := s' } ∧ MarkedPages (4096 * (addr / 4096)) flag x.state s' := by
  have hd : mmuPdIndex addr < 1022 := Nat.lt_trans (mmuPdIndex_user huser) (by omega)
  obtain ⟨role, hroles⟩ := h.roles
  have hshown := hroles.clone_shown h.active
  have htable : HasTable x.state addr := by
    unfold HasTable
    rw [hshown]
    cases hpresent : present (x.state.mem x.state.cr3 (mmuPdIndex addr)) with
    | true => exact .inl rfl
    | false => exact .inr (hroom hpresent)
  obtain ⟨_, s', hmark, _, hmarked⟩ :=
    (hroles.activeSpace hshown).mmuMark_pages hflag hroom depth paddr
  have hfed := hroles.mark_total hd htable feeds_mmuAllocFed depth paddr flag
  rw [← hroles.mark_total hd htable feeds_mmuAlloc depth paddr flag] at hfed
  have hstep : Spaces.Step k (pageFaultFed k) x (.mark addr paddr flag)
      (x.afterMark addr flag (true, s')) := .mark (hfed.trans hmark)
  rw [afterMark_demand _ _ _ hflag] at hstep
  have hallowed : Spaces.Allowed k L.outside x (.mark addr paddr flag) :=
    ⟨below_user k huser, fun hnoalloc => absurd hflag hnoalloc⟩
  refine ⟨s', hmark, ⟨hstep.roles hallowed hroles, ?_, ?_⟩, hmarked.page_start (by omega)⟩
  · obtain ⟨hready, heq⟩ := hstep.effect hallowed hroles
    rw [heq]
    exact hroles.after_userTables h.tables hready hallowed
  · have hcr3 : s'.cr3 = x.state.cr3 := hmarked.cr3
    simp only [hcr3]
    exact h.active

theorem row {flag : Word} (hflag : flag &&& mmuPageNoalloc = 0#32) (depth n : Nat) {addr : Nat}
    (hend : addr / 4096 + n ≤ 2 ^ 19)
    (hroom : n = 0 ∨ (missingTables x.state (addr / 4096) (addr / 4096 + n)).card ≤
      x.state.framesIndex) (paddr : Word) :
    ∃ s', markPages (pageFault k (depth + 1)) n addr paddr flag x.state = some (true, s') ∧
      Loading L { x with state := s' } ∧
      MarkedRow (addr / 4096) (addr / 4096 + n) flag x.state s' := by
  induction n generalizing x addr paddr with
  | zero => exact ⟨x.state, rfl, h, .refl (Nat.le_refl _) flag _⟩
  | succ n ih =>
    have hcard := hroom.resolve_left (by omega)
    have hd : mmuPdIndex addr = addr / 4096 / 1024 := by
      rw [mmuPdIndex_eq (by omega)]
    have hpos : present (x.state.mem x.state.cr3 (mmuPdIndex addr)) = false →
        0 < x.state.framesIndex := by
      intro habsent
      rw [hd] at habsent
      have hmem : addr / 4096 / 1024 ∈
          missingTables x.state (addr / 4096) (addr / 4096 + (n + 1)) :=
        mem_missingTables.2 ⟨⟨Nat.le_refl _, by omega⟩, habsent⟩
      have hcount := Finset.card_pos.2 ⟨_, hmem⟩
      omega
    have huser : addr < 0x80000000 := by omega
    obtain ⟨s₁, hmark, h₁, hpage⟩ := h.mark huser hflag hpos depth paddr
    have hmissing := hpage.missing h.self h₁.self (by omega) (by omega) hcard
    have hnext : (addr + 4096) / 4096 = addr / 4096 + 1 := by omega
    have hend' : (addr + 4096) / 4096 + n ≤ 2 ^ 19 := by omega
    obtain ⟨s', hrest, h', hrow⟩ := ih h₁ hend'
      (.inr (by rw [hnext, Nat.add_assoc, Nat.add_comm 1 n]; exact hmissing)) (paddr + 4096#32)
    rw [hnext, Nat.add_assoc, Nat.add_comm 1 n] at hrow
    refine ⟨s', ?_, h', .cons (by omega) (by omega) hpage hrow⟩
    simp only [markPages, hmark, Option.bind_eq_bind, Option.bind_some, if_true]
    exact hrest

end Loading

/-! ### The empty pool -/

/-- The pool is empty. -/
structure Drained (k : Kernel) (s : State) : Prop where
  self : SelfMapped s
  empty : s.framesIndex = 0
  active : s.cr3 ≠ 0#32
  kernel : k.pd ≠ 0#32
  tables : ∀ d < 512, present (s.mem s.cr3 d) = true → frameOf (s.mem s.cr3 d) ≠ s.cr3

/-- The frame at address zero is a page table, in which no page is present. -/
structure Starved (k : Kernel) (s : State) (d : Nat) : Prop extends Drained k s where
  low : d < 512
  present_pde : present (s.mem s.cr3 d) = true
  frame : frameOf (s.mem s.cr3 d) = 0#32
  clean : ∀ j, present (s.mem 0#32 j) = false

/-- The directory entry of a missing page table when the table is used. -/
theorem tableDemanded_mem (addr : Nat) (s : State) :
    (tableDemanded addr s).cr3 = s.cr3 ∧ (tableDemanded addr s).framesIndex = s.framesIndex ∧
      ∀ g j, ¬ (g = s.cr3 ∧ j = mmuPdIndex addr) → (tableDemanded addr s).mem g j = s.mem g j := by
  unfold tableDemanded
  split
  · exact ⟨rfl, rfl, fun g j hne => if_neg hne⟩
  · exact ⟨rfl, rfl, fun _ _ _ => rfl⟩

theorem tableDemanded_entry {addr : Nat} {s : State}
    (hpde : present (s.mem s.cr3 (mmuPdIndex addr)) = false) :
    present ((tableDemanded addr s).mem s.cr3 (mmuPdIndex addr)) = false ∧
      (tableDemanded addr s).mem s.cr3 (mmuPdIndex addr) &&& mmuPageOndemand ≠ 0#32 := by
  unfold tableDemanded
  split
  · rw [set_mem_same]
    decide
  · rename_i hmarked
    refine ⟨hpde, ?_⟩
    intro hzero
    apply hmarked
    rw [BitVec.and_or_distrib_left, hzero, BitVec.or_zero]
    exact (and_present_eq_zero _).2 hpde

/-- The state after the fault on a missing page table with an empty pool. -/
def zeroTable (k : Kernel) (addr : Nat) (s : State) : State :=
  putIn k (ptSlot addr) 0#32 { tableDemanded addr s with framesIndex := 0 }

theorem zeroTable_cr3 (k : Kernel) (addr : Nat) (s : State) : (zeroTable k addr s).cr3 = s.cr3 :=
  (putIn_regs k (ptSlot addr) 0#32 _).1.trans (tableDemanded_mem addr s).1

theorem zeroTable_framesIndex (k : Kernel) (addr : Nat) (s : State) :
    (zeroTable k addr s).framesIndex = 0 :=
  (putIn_regs k (ptSlot addr) 0#32 _).2

namespace Drained
variable {k : Kernel} {s : State} (h : Drained k s)
include h

section Missing
variable {addr : Nat} (huser : addr < 0x80000000)
include huser

theorem tableDemanded_self : SelfMapped (tableDemanded addr s) := by
  have hd := mmuPdIndex_user huser
  obtain ⟨hcr3, _, hmem⟩ := tableDemanded_mem addr s
  unfold SelfMapped
  rw [hcr3, hmem _ _ (by omega)]
  exact h.self

theorem zeroTable_mem (g : Word) (j : Nat) : (zeroTable k addr s).mem g j =
    if g = k.pd ∧ j = 1023 then (tableDemanded addr s).mem s.cr3 1023
    else if g = 0#32 then 0#32
    else if g = s.cr3 ∧ j = mmuPdIndex addr then
      0#32 ||| ((tableDemanded addr s).mem s.cr3 (mmuPdIndex addr) &&& mmuProtMask) |||
        mmuProtPresent
    else (tableDemanded addr s).mem g j := by
  have hcr3 := (tableDemanded_mem addr s).1
  have hlast : frameOf ((tableDemanded addr s).mem s.cr3 1023) = s.cr3 := by
    have hself := (h.tableDemanded_self huser).2
    rw [hcr3] at hself
    exact hself
  have hhalf : 512 ≤ 1023 := by omega
  refine (putInto_mem k (tableDemanded addr s).cr3 (ptSlot addr) 0#32
    { tableDemanded addr s with framesIndex := 0 } g j).trans ?_
  simp only [mmuPdIndex_ptSlot, mmuPtIndex_ptSlot, hcr3, hhalf, true_and, hlast]

theorem zeroTable_dir {j : Nat} (hj : j ≠ mmuPdIndex addr) :
    (zeroTable k addr s).mem s.cr3 j = s.mem s.cr3 j := by
  have hd := mmuPdIndex_user huser
  have hmem := (tableDemanded_mem addr s).2.2
  by_cases hsync : s.cr3 = k.pd ∧ j = 1023
  · rw [h.zeroTable_mem huser, if_pos hsync, hsync.2]
    exact hmem _ _ (by omega)
  · rw [h.zeroTable_mem huser, if_neg hsync, if_neg h.active, if_neg fun hand => hj hand.2]
    exact hmem _ _ fun hand => hj hand.2

theorem zeroTable_self : SelfMapped (zeroTable k addr s) := by
  have hd := mmuPdIndex_user huser
  unfold SelfMapped
  rw [zeroTable_cr3, h.zeroTable_dir huser (by omega)]
  exact h.self

theorem zeroTable_entry : present ((zeroTable k addr s).mem s.cr3 (mmuPdIndex addr)) = true ∧
    frameOf ((zeroTable k addr s).mem s.cr3 (mmuPdIndex addr)) = 0#32 := by
  have hd := mmuPdIndex_user huser
  rw [h.zeroTable_mem huser, if_neg fun hand => by omega, if_neg h.active, if_pos ⟨rfl, rfl⟩]
  exact ⟨present_installed _ _, frameOf_installed _ (by decide)⟩

theorem zeroTable_blank (j : Nat) : (zeroTable k addr s).mem 0#32 j = 0#32 := by
  rw [h.zeroTable_mem huser, if_neg fun hand => h.kernel hand.1.symm, if_pos rfl]

theorem zeroTable_fault (hpde : present (s.mem s.cr3 (mmuPdIndex addr)) = false) (depth : Nat) :
    pageFault k (depth + 1) (ptSlot addr) (tableDemanded addr s) = some (zeroTable k addr s) := by
  have hd := mmuPdIndex_user huser
  have hself := h.tableDemanded_self huser
  obtain ⟨hcr3, hindex, _⟩ := tableDemanded_mem addr s
  refine int0E_putIn hself ?_ (by decide) ?_ ?_ ?_ ?_ depth
  · rw [mmuPdIndex_ptSlot]
    exact hself.1
  · rw [hcr3]
    exact h.active.symm
  · intro _
    rw [mmuPdIndex_ptSlot, mmuPtIndex_ptSlot]
    omega
  · intro fault
    have hempty : (tableDemanded addr s).framesIndex = 0 := hindex.trans h.empty
    have hsame : ({ tableDemanded addr s with framesIndex := 0 } : State) =
        tableDemanded addr s := by
      rw [← hempty]
    rw [hsame]
    exact mmuAlloc_empty hempty
  · rw [mmuPdIndex_ptSlot, mmuPtIndex_ptSlot, hself.2, hcr3]
    exact (tableDemanded_entry hpde).2

end Missing

/-- `mmu_mark` takes the frame at address zero for a missing page table. -/
theorem mark_missing {addr : Nat} (huser : addr < 0x80000000)
    (hpde : present (s.mem s.cr3 (mmuPdIndex addr)) = false) {flag : Word}
    (hflag : flag &&& mmuPageNoalloc = 0#32) (depth : Nat) (paddr : Word) :
    ∃ s', mmuMark (pageFault k (depth + 1)) addr paddr flag s = some (true, s') ∧
      Starved k s' (mmuPdIndex addr) ∧ s'.cr3 = s.cr3 ∧
      ∀ d < 512, d ≠ mmuPdIndex addr → s'.mem s.cr3 d = s.mem s.cr3 d := by
  have hd := mmuPdIndex_user huser
  let s₁ := zeroTable k addr s
  have hcr3 : s₁.cr3 = s.cr3 := zeroTable_cr3 k addr s
  have hself₁ : SelfMapped s₁ := h.zeroTable_self huser
  obtain ⟨hpresent₁, hframe₁⟩ := h.zeroTable_entry huser
  have hzero : ∀ j, s₁.mem 0#32 j = 0#32 := h.zeroTable_blank huser
  have hunmapped : translate (tableDemanded addr s) (ptSlot addr) = none := by
    apply translate_ptSlot_absent (h.tableDemanded_self huser)
    rw [(tableDemanded_mem _ _).1]
    exact (tableDemanded_entry hpde).1
  have hactive₁ : present (s₁.mem s₁.cr3 (mmuPdIndex addr)) = true := by
    rw [hcr3]
    exact hpresent₁
  have hmark := markPte_faulted hunmapped (h.zeroTable_fault huser hpde depth)
    (translate_ptSlot_present hself₁ hactive₁) paddr flag
  rw [markPte_eq _ paddr flag hself₁ hactive₁, zeroTable_cr3, hframe₁,
    marked_demand (by rw [hzero]; decide) hflag] at hmark
  have hrest : ∀ d, d ≠ mmuPdIndex addr → (s₁.set 0#32 (mmuPtIndex addr)
      (mmuPageOndemand ||| (flag &&& mmuProtMask))).mem s.cr3 d = s.mem s.cr3 d := by
    intro d hne
    rw [set_mem_frame _ _ _ _ h.active]
    exact h.zeroTable_dir huser hne
  have hown : (s₁.set 0#32 (mmuPtIndex addr)
      (mmuPageOndemand ||| (flag &&& mmuProtMask))).mem s.cr3 (mmuPdIndex addr) =
        s₁.mem s.cr3 (mmuPdIndex addr) := set_mem_frame _ _ _ _ h.active _
  refine ⟨_, (h.self.mmuMark_eq _ addr paddr flag).trans hmark, ⟨⟨⟨?_, ?_⟩,
    zeroTable_framesIndex k addr s, ?_, h.kernel, ?_⟩, hd, ?_, ?_, ?_⟩, hcr3, fun d _ => hrest d⟩
  · rw [show (s₁.set _ _ _).cr3 = s.cr3 from hcr3, hrest _ (by omega)]
    exact h.self.1
  · rw [show (s₁.set _ _ _).cr3 = s.cr3 from hcr3, hrest _ (by omega)]
    exact h.self.2
  · rw [show (s₁.set _ _ _).cr3 = s.cr3 from hcr3]
    exact h.active
  · rw [show (s₁.set _ _ _).cr3 = s.cr3 from hcr3]
    intro d hlow hpresent
    by_cases heq : d = mmuPdIndex addr
    · rw [heq, hown, hframe₁]
      exact h.active.symm
    · rw [hrest d heq] at hpresent ⊢
      exact h.tables d hlow hpresent
  · rw [show (s₁.set _ _ _).cr3 = s.cr3 from hcr3, hown]
    exact hpresent₁
  · rw [show (s₁.set _ _ _).cr3 = s.cr3 from hcr3, hown]
    exact hframe₁
  · intro j
    rw [set_mem]
    split
    · exact not_present_ondemand _
    · rw [hzero]
      decide

theorem mark_present {addr : Nat} (huser : addr < 0x80000000)
    (hpde : present (s.mem s.cr3 (mmuPdIndex addr)) = true) {flag : Word}
    (hflag : flag &&& mmuPageNoalloc = 0#32) (depth : Nat) (paddr : Word) :
    ∃ w, mmuMark (pageFault k (depth + 1)) addr paddr flag s =
        some (true, s.set (frameOf (s.mem s.cr3 (mmuPdIndex addr))) (mmuPtIndex addr) w) ∧
      (present (s.mem (frameOf (s.mem s.cr3 (mmuPdIndex addr))) (mmuPtIndex addr)) = false →
        present w = false) ∧
      ∀ d, (s.set (frameOf (s.mem s.cr3 (mmuPdIndex addr))) (mmuPtIndex addr) w).mem s.cr3 d =
        s.mem s.cr3 d := by
  have hne := h.tables _ (mmuPdIndex_user huser) hpde
  have hmark := mmuMark_present (pageFault k (depth + 1)) paddr flag h.self hpde
  cases hpresent : present (s.mem (frameOf (s.mem s.cr3 (mmuPdIndex addr))) (mmuPtIndex addr)) with
  | false =>
    rw [marked_demand hpresent hflag] at hmark
    exact ⟨_, hmark, fun _ => not_present_ondemand _, fun d => set_mem_frame _ _ _ _ hne.symm d⟩
  | true =>
    rw [marked_reprotected hpresent hflag] at hmark
    exact ⟨_, hmark, fun hfalse => absurd hfalse (by simp),
      fun d => set_mem_frame _ _ _ _ hne.symm d⟩

end Drained

namespace Starved
variable {k : Kernel} {s : State} {d : Nat} (h : Starved k s d)
include h

/-- Further marks leave the frame at address zero a page table without a page. -/
theorem mark {addr : Nat} (huser : addr < 0x80000000) {flag : Word}
    (hflag : flag &&& mmuPageNoalloc = 0#32) (depth : Nat) (paddr : Word) :
    ∃ s', mmuMark (pageFault k (depth + 1)) addr paddr flag s = some (true, s') ∧
      Starved k s' d := by
  have hdrained := h.toDrained
  cases hpde : present (s.mem s.cr3 (mmuPdIndex addr)) with
  | false =>
    obtain ⟨s', hmark, hnew, hcr3, hkept⟩ := hdrained.mark_missing huser hpde hflag depth paddr
    have hne : d ≠ mmuPdIndex addr := by
      intro heq
      rw [← heq, h.present_pde] at hpde
      exact absurd hpde (by simp)
    refine ⟨s', hmark, hnew.toDrained, h.low, ?_, ?_, hnew.clean⟩
    · rw [hcr3, hkept d h.low hne]
      exact h.present_pde
    · rw [hcr3, hkept d h.low hne]
      exact h.frame
  | true =>
    obtain ⟨w, hmark, habsent, hdir⟩ := hdrained.mark_present huser hpde hflag depth paddr
    refine ⟨_, hmark, ⟨⟨?_, ?_⟩, h.empty, h.active, h.kernel, ?_⟩, h.low, ?_, ?_, ?_⟩
    · exact (congrArg present (hdir 1023)).trans h.self.1
    · exact (congrArg frameOf (hdir 1023)).trans h.self.2
    · intro e he hpresent
      have hold := (congrArg present (hdir e)).symm.trans hpresent
      intro heq
      exact h.tables e he hold ((congrArg frameOf (hdir e)).symm.trans heq)
    · exact (congrArg present (hdir d)).trans h.present_pde
    · exact (congrArg frameOf (hdir d)).trans h.frame
    · intro j
      rw [set_mem]
      split
      · rename_i hand
        apply habsent
        rw [← hand.1, ← hand.2]
        exact h.clean j
      · exact h.clean j

theorem row {flag : Word} (hflag : flag &&& mmuPageNoalloc = 0#32) (depth n : Nat) {addr : Nat}
    (hend : addr / 4096 + n ≤ 2 ^ 19) (paddr : Word) :
    ∃ s', markPages (pageFault k (depth + 1)) n addr paddr flag s = some (true, s') ∧
      Starved k s' d := by
  induction n generalizing s addr paddr with
  | zero => exact ⟨s, rfl, h⟩
  | succ n ih =>
    have huser : addr < 0x80000000 := by omega
    have hend' : (addr + 4096) / 4096 + n ≤ 2 ^ 19 := by omega
    obtain ⟨s₁, hmark, h₁⟩ := h.mark huser hflag depth paddr
    obtain ⟨s', hrest, h'⟩ := ih h₁ hend' (paddr + 4096#32)
    refine ⟨s', ?_, h'⟩
    simp only [markPages, hmark, Option.bind_eq_bind, Option.bind_some, if_true]
    exact hrest

/-- An access to a page of the page table at address zero halts: at once, or when it is repeated
after the page has been brought in. -/
theorem not_ready {fixed : Word → Nat → Prop} {lo hi addr : Nat} (hlo : lo ≤ addr) (hlt : addr < hi)
    (huser : addr < 0x80000000) (hd : mmuPdIndex addr = d) : ¬ RowReady k fixed lo hi s := by
  intro hready
  have hpde : present (s.mem s.cr3 (mmuPdIndex addr)) = true := by
    rw [hd]
    exact h.present_pde
  have htable : frameOf (s.mem s.cr3 (mmuPdIndex addr)) = 0#32 := by
    rw [hd]
    exact h.frame
  have hentry : entry s addr = s.mem 0#32 (mmuPtIndex addr) := by
    rw [entry_present hpde, htable]
  have hunmapped : translate s addr = none := by
    unfold translate
    simp only [hpde, htable, h.clean, if_true, Bool.false_eq_true, if_false]
  have htouchable := hready.mapped addr hlo hlt
  obtain ⟨_, hdemand⟩ := htouchable.demanded hunmapped
  rw [hentry] at hdemand
  -- The page is brought in, and its page table is cleared.
  have hsame : ({ s with framesIndex := 0 } : State) = s := by
    rw [← h.empty]
  have hfault : pageFault k 1 addr s = some (putIn k addr 0#32 { s with framesIndex := 0 }) := by
    refine int0E_putIn h.self hpde (by decide) h.active.symm ?_ ?_ ?_ 0
    · intro hself
      rw [htable] at hself
      exact absurd hself.symm h.active
    · intro fault
      rw [hsame]
      exact mmuAlloc_empty h.empty
    · rw [htable]
      exact hdemand
  have hmem := putIn_user k (n := 0) huser hpde 0#32
  obtain ⟨hcr3, _⟩ := putIn_regs k addr 0#32 { s with framesIndex := 0 }
  generalize hz : putIn k addr 0#32 { s with framesIndex := 0 } = z at hfault hmem hcr3
  have hcr3' : z.cr3 = s.cr3 := hcr3
  have hdir : ∀ j, z.mem s.cr3 j = s.mem s.cr3 j := by
    intro j
    rw [hmem, if_neg h.active, htable, if_neg fun hand => h.active hand.1]
  have hzero : ∀ j, z.mem 0#32 j = 0#32 := by
    intro j
    rw [hmem, if_pos rfl]
  have hpde' : present (z.mem z.cr3 (mmuPdIndex addr)) = true := by
    rw [hcr3', hdir]
    exact hpde
  have hunmapped' : translate z addr = none := by
    unfold translate
    rw [hcr3', hdir]
    simp only [hpde, htable, hzero, not_present_zero, if_true, Bool.false_eq_true, if_false]
  have hself' : SelfMapped z := by
    unfold SelfMapped
    rw [hcr3', hdir]
    exact h.self
  refine hready.never_halts z (.single (.fault hlo hlt hunmapped hfault)) addr hlo hlt
    hunmapped' 0 ?_
  refine int0E_halts hself' hpde' ?_ 1
  rw [hcr3', hdir, htable, hzero, BitVec.zero_and]

end Starved

/-- A mark takes no more than its page table from those that are missing. -/
theorem MarkedPages.missing_le {p hi : Nat} {flag : Word} {s s₁ : State} (hself : SelfMapped s)
    (hself₁ : SelfMapped s₁) (hhigh : hi ≤ 2 ^ 19) (hp : p < hi)
    (hpage : MarkedPages (4096 * p) flag s s₁)
    (hroom : (missingTables s₁ (p + 1) hi).card ≤ s₁.framesIndex) :
    (missingTables s p hi).card ≤ s.framesIndex := by
  have hd : mmuPdIndex (4096 * p) = p / 1024 := by
    rw [mmuPdIndex_eq (by omega), Nat.mul_div_cancel_left p (by omega)]
  have hother : ∀ d, d < 1024 → d ≠ p / 1024 → s₁.mem s₁.cr3 d = s.mem s.cr3 d := by
    intro d hlt hne
    have hindex : mmuPdIndex (d * 2 ^ 22) = d := by
      unfold mmuPdIndex
      rw [Nat.mul_div_cancel d (by omega), Nat.mod_eq_of_lt hlt]
    have hkept := hpage.others (ptSlot (d * 2 ^ 22)) ?_ ?_
    · rw [hself.entry_ptSlot, hself₁.entry_ptSlot, hindex] at hkept
      exact hkept
    · intro hsame
      have heq := hsame.1
      rw [mmuPdIndex_ptSlot, hd] at heq
      omega
    · intro hsame
      have heq := (samePage_ptSlot.1 hsame).2
      rw [mmuPtIndex_ptSlot, hindex, hd] at heq
      exact hne heq
  have hstay : ∀ d ∈ missingTables s p hi, d ≠ p / 1024 → d ∈ missingTables s₁ (p + 1) hi := by
    intro d hmem hne
    obtain ⟨⟨hl, hh⟩, habsent⟩ := mem_missingTables.1 hmem
    apply mem_missingTables.2
    rw [hother d (by omega) hne]
    exact ⟨⟨by omega, hh⟩, habsent⟩
  have hindex := hpage.index
  rw [hd] at hindex
  cases hold : present (s.mem s.cr3 (p / 1024)) with
  | true =>
    have hsub : missingTables s p hi ⊆ missingTables s₁ (p + 1) hi := by
      intro d hmem
      apply hstay d hmem
      intro heq
      have habsent := (mem_missingTables.1 hmem).2
      rw [heq, hold] at habsent
      exact absurd habsent (by simp)
    have hcard := Finset.card_le_card hsub
    rw [hold, if_pos rfl] at hindex
    omega
  | false =>
    have hsub : (missingTables s p hi).erase (p / 1024) ⊆ missingTables s₁ (p + 1) hi := by
      intro d hmem
      obtain ⟨hne, hmem⟩ := Finset.mem_erase.1 hmem
      exact hstay d hmem hne
    have hcard := Finset.card_le_card hsub
    have herase := Finset.pred_card_le_card_erase (s := missingTables s p hi) (a := p / 1024)
    rw [hold, if_neg (by simp)] at hindex
    omega

/-- A row of pages that lacks more page tables than the pool has frames. -/
theorem Loading.row_starved {k : Kernel} {L : Pool k} {x : Spaces} (h : Loading L x) {flag : Word}
    (hflag : flag &&& mmuPageNoalloc = 0#32) (depth n : Nat) {addr : Nat}
    (hend : addr / 4096 + n ≤ 2 ^ 19) (hpos : 0 < n)
    (hroom : ¬ (missingTables x.state (addr / 4096) (addr / 4096 + n)).card ≤ x.state.framesIndex)
    (paddr : Word) :
    ∃ s', markPages (pageFault k (depth + 1)) n addr paddr flag x.state = some (true, s') ∧
      ∃ i < n, Starved k s' (mmuPdIndex (addr + 4096 * i)) := by
  induction n generalizing x addr paddr with
  | zero => exact absurd hpos (by omega)
  | succ n ih =>
    have huser : addr < 0x80000000 := by omega
    have hnext : (addr + 4096) / 4096 = addr / 4096 + 1 := by omega
    have hend' : (addr + 4096) / 4096 + n ≤ 2 ^ 19 := by omega
    by_cases htable : present (x.state.mem x.state.cr3 (mmuPdIndex addr)) = false →
      0 < x.state.framesIndex
    · obtain ⟨s₁, hmark, h₁, hpage⟩ := h.mark huser hflag htable depth paddr
      have hless : ¬ (missingTables s₁ (addr / 4096 + 1) (addr / 4096 + (n + 1))).card ≤
          s₁.framesIndex :=
        fun hroom₁ => hroom (hpage.missing_le h.self h₁.self hend (by omega) hroom₁)
      have hn : 0 < n := by
        apply Nat.pos_of_ne_zero
        rintro rfl
        apply hless
        -- the table of the page is there, and the row ends behind the page
        have hnone : missingTables s₁ (addr / 4096 + 1) (addr / 4096 + (0 + 1)) = ∅ := by
          apply Finset.eq_empty_of_forall_notMem
          intro d hmem
          obtain ⟨⟨hl, hh⟩, habsent⟩ := mem_missingTables.1 hmem
          have heq : d = addr / 4096 / 1024 := by omega
          have hpresent := hpage.table
          rw [h₁.self.entry_ptSlot, mmuPdIndex_eq (by omega),
            Nat.mul_div_cancel_left _ (by omega)] at hpresent
          rw [heq, hpresent] at habsent
          exact absurd habsent (by simp)
        rw [hnone]
        exact Nat.zero_le _
      obtain ⟨s', hrest, i, hi, hstarved⟩ := ih h₁ hend' hn
        (by rw [hnext, Nat.add_assoc, Nat.add_comm 1 n]; exact hless) (paddr + 4096#32)
      refine ⟨s', ?_, i + 1, by omega, ?_⟩
      · simp only [markPages, hmark, Option.bind_eq_bind, Option.bind_some, if_true]
        exact hrest
      · rw [Nat.mul_add, Nat.add_comm (4096 * i), ← Nat.add_assoc]
        exact hstarved
    · obtain ⟨habsent, hempty⟩ := Classical.not_imp.1 htable
      obtain ⟨role, hroles⟩ := h.roles
      have hdrained : Drained k x.state := by
        refine ⟨h.self, by omega, L.ne_zero (hroles.named.clone _ h.active).2, ?_, ?_⟩
        · intro heq
          have himage := (k.inImage k.pd (by simp)).1
          rw [heq] at himage
          exact absurd himage (by decide)
        · exact h.fenced.tables_ne
      obtain ⟨s₁, hmark, h₁, _⟩ := hdrained.mark_missing huser habsent hflag depth paddr
      obtain ⟨s', hrest, h'⟩ := h₁.row hflag depth n hend' (paddr + 4096#32)
      refine ⟨s', ?_, 0, by omega, h'⟩
      simp only [markPages, hmark, Option.bind_eq_bind, Option.bind_some, if_true]
      exact hrest

end OsdevCourse.Mmu
