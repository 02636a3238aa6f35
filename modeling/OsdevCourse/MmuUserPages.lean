import OsdevCourse.MmuSelfSlots
import OsdevCourse.HeapGrowth

/-!
# The pages of a process

An access to a page of the user half that is on demand takes a frame of the pool, or from the empty
pool the frame at address zero. Neither is one of the frames that the CPU or `mmu_alloc` goes
through: while every page of a row is on demand or present, no access to the row halts.
-/

namespace OsdevCourse.Mmu

set_option autoImplicit false

open PageEntry

/-- The page can be touched. -/
def Touchable (s : State) (addr : Nat) : Prop :=
  present (entry s addr) = true ∨ entry s addr &&& mmuPageOndemand ≠ 0#32

/-- Bytes of a row are touched and stored to; faults are those on the row. -/
inductive CopyStep (k : Kernel) (fixed : Word → Nat → Prop) (lo hi : Nat) :
    State → State → Prop where
  | fault {addr depth : Nat} {s s' : State} : lo ≤ addr → addr < hi → translate s addr = none →
      pageFault k depth addr s = some s' → CopyStep k fixed lo hi s s'
  | store {addr : Nat} {place : Word × Nat} {w : Word} {s : State} : lo ≤ addr → addr < hi →
      translate s addr = some place → ¬ fixed (Spaces.tableOf s s.cr3 addr) (mmuPtIndex addr) →
      CopyStep k fixed lo hi s (s.set place.1 place.2 w)

/-- Every byte of the row is on demand or present, and whatever is brought in and stored, no access
to the row halts. -/
structure RowReady (k : Kernel) (fixed : Word → Nat → Prop) (lo hi : Nat) (s : State) : Prop where
  mapped : ∀ addr, lo ≤ addr → addr < hi → Touchable s addr
  never_halts : ∀ z, Relation.ReflTransGen (CopyStep k fixed lo hi) s z → ∀ addr, lo ≤ addr →
    addr < hi → translate z addr = none → ∀ depth, pageFault k (depth + 1) addr z ≠ none

/-! ### The page tables of the user half -/

/-- The page tables of the user half come from the pool. -/
def UserTables {k : Kernel} (L : Pool k) (x : Spaces) : Prop :=
  ∀ a ∈ x.dirs k, ∀ d < 512, present (x.state.mem a d) = true → frameOf (x.state.mem a d) ∈ L.frames

namespace Roles
variable {k : Kernel} {L : Pool k} {role : Word → Role} {x : Spaces} (h : Roles L role x)
include h

/-- An entry of the user half of a directory after `mmu_mark` has a page table. -/
theorem withTable_user {addr : Nat} (hd : mmuPdIndex addr < 1022) (htable : HasTable x.state addr)
    {a : Word} (ha : a ∈ x.dirs k) {d : Nat} (huser : d < 512)
    (hpresent : present ((withTable k addr x.state).mem a d) = true) :
    present (x.state.mem a d) = true ∧ (withTable k addr x.state).mem a d = x.state.mem a d ∨
      frameOf ((withTable k addr x.state).mem a d) ∈ L.frames := by
  rw [h.withTable_mem hd htable] at hpresent ⊢
  by_cases hold : present (x.state.mem (shown x.state) (mmuPdIndex addr)) = true
  · rw [if_pos hold] at hpresent ⊢
    exact .inl ⟨hpresent, rfl⟩
  · have hpos := htable.resolve_left hold
    rw [if_neg hold] at hpresent ⊢
    split at hpresent
    · rename_i hand
      rw [if_pos hand, show frameOf (tableEntry (top k x.state)) = top k x.state from
        frameOf_installed _ (L.isFrame _ (h.top_mem hpos))]
      exact .inr (h.top_mem hpos)
    · rename_i hother
      have hslot : ¬ (a = k.pd ∧ d = 1023) := by omega
      have htop : a ≠ top k x.state := (h.top_ne_dir hpos ha).symm
      rw [if_neg hslot, if_neg htop] at hpresent
      rw [if_neg hother, if_neg hslot, if_neg htop]
      exact .inl ⟨hpresent, rfl⟩

theorem withTable_userTables (hu : UserTables L x) {addr : Nat} (hd : mmuPdIndex addr < 1022)
    (htable : HasTable x.state addr) :
    UserTables L { x with state := withTable k addr x.state } := by
  intro a ha d huser hpresent
  rcases h.withTable_user hd htable ha huser hpresent with ⟨hold, heq⟩ | hnew
  · rw [heq]
    exact hu a ha d huser hold
  · exact hnew

end Roles

theorem UserTables.congr {k : Kernel} {L : Pool k} {x y : Spaces} (hu : UserTables L x)
    (hdirs : y.dirs k = x.dirs k)
    (hmem : ∀ a ∈ x.dirs k, ∀ d < 512, y.state.mem a d = x.state.mem a d) : UserTables L y := by
  intro a ha d huser hpresent
  rw [hdirs] at ha
  rw [hmem a ha d huser] at hpresent ⊢
  exact hu a ha d huser hpresent

namespace Roles
variable {k : Kernel} {L : Pool k} {role : Word → Role} {x : Spaces} (h : Roles L role x)
  (hu : UserTables L x)
include h hu

theorem clone_userTables (hready : x.Ready .clone) : UserTables L (x.after k .clone) := by
  simp only [Spaces.after, cloneAt]
  by_cases hempty : x.state.framesIndex = 0
  · rw [if_pos hempty]
    simp only [Spaces.afterClone, if_true]
    exact hu
  · have hpos : 0 < x.state.framesIndex := by omega
    have htable := hready hpos
    obtain ⟨hpopped, hloose, role', htabled⟩ := h.popped_tabled hpos htable
    have hrole : role' (top k x.state) = .loose :=
      (htabled.kept _ (by rw [hloose]; simp)).trans hloose
    have hne := L.ne_zero (h.top_mem hpos)
    have hu₁ : UserTables L { x with state := (withTable k kaddrClondpd
        { x.state with framesIndex := x.state.framesIndex - 1 }) } :=
      hpopped.withTable_userTables hu (by decide) htable
    rw [if_neg hempty]
    split
    · simp only [Spaces.afterClone, if_true]
      refine hu₁.congr rfl ?_
      intro a ha d _
      exact htabled.roles.freed_dir hrole ha d
    · have ht := htabled.roles.table_role htabled.mem_dirs (by decide) htabled.present_pde
      have hpd : k.pd ∈ x.dirs k := List.mem_cons_self ..
      have htf : frameOf ((withTable k kaddrClondpd
          { x.state with framesIndex := x.state.framesIndex - 1 }).mem (shown x.state) 959) ≠
            top k x.state := by
        intro heq
        have hcase := ht
        rw [show mmuPdIndex kaddrClondpd = 959 from rfl, heq, hrole] at hcase
        exact hcase
      simp only [Spaces.afterClone, if_neg hne]
      intro a ha d huser hpresent
      rw [cloned_mem htf (h.top_ne_dir hpos hpd).symm (htabled.roles.table_ne_dir hpd ht).symm,
        if_neg (by omega)] at hpresent ⊢
      by_cases hnew : a = top k x.state
      · rw [if_pos hnew, if_neg (by omega), if_neg (by omega)] at hpresent
        exact absurd hpresent (by decide)
      · rw [if_neg hnew] at hpresent ⊢
        refine hu₁ a ?_ d huser hpresent
        rcases List.mem_cons.1 ha with heq | hclone
        · exact List.mem_cons.2 (.inl heq)
        · rcases List.mem_append.1 hclone with hold | hlast
          · exact List.mem_cons_of_mem _ hold
          · exact absurd (List.mem_singleton.1 hlast) hnew

theorem after_userTables {op : Spaces.Op} (hready : x.Ready op)
    (hallowed : Spaces.Allowed k L.outside x op) : UserTables L (x.after k op) := by
  cases op with
  | mark addr paddr flag =>
    have hd := Spaces.pdIndex_below hallowed.1
    obtain ⟨role', htabled⟩ := h.withTable_tabled hd hready
    have ht := htabled.roles.table_role htabled.mem_dirs hd htabled.present_pde
    refine (h.withTable_userTables hu hd hready).congr rfl ?_
    intro a ha d _
    exact marked_mem_frame (htabled.roles.table_ne_dir ha ht).symm d
  | unmap addr flag =>
    have hd := Spaces.pdIndex_below hallowed.1
    refine hu.congr rfl ?_
    intro a ha d _
    refine (h.unmapAt_mem hd hready flag a d).trans ?_
    rw [if_neg, if_neg fun hand => h.table_ne_dir ha
      (h.table_role h.shown_mem hd hready) hand.1.symm]
    rintro ⟨hreleases, hpage, -⟩
    obtain ⟨hj, hbacked⟩ := L.slot_backed (h.released hd hready hallowed.2 hreleases).2
    have hrole := h.named.backing _ hj hbacked
    unfold poolPage at hpage
    rw [h.slots.poolTable] at hpage
    rw [← hpage, h.named.dir ha] at hrole
    exact Role.noConfusion hrole
  | fault addr =>
    obtain ⟨hpos, hd, hpresent, _⟩ := hready
    refine hu.congr rfl ?_
    intro a ha d huser
    have hne := h.table_ne_dir ha (h.table_role h.shown_mem hd hpresent)
    refine (putInto_mem k _ addr _ _ a d).trans ?_
    rw [if_neg (by omega), if_neg (h.top_ne_dir hpos ha).symm, if_neg fun hand => hne hand.1.symm]
  | store addr w =>
    obtain ⟨place, hplace⟩ := hready
    obtain ⟨hbelow, hdemand⟩ := hallowed
    have hrole := h.stored_role (Spaces.pdIndex_below hbelow) hdemand hplace
    simp only [Spaces.after, storeAt, hplace]
    refine hu.congr rfl ?_
    intro a ha d _
    apply set_mem_frame
    intro heq
    rw [← heq, h.named.dir ha] at hrole
    exact Role.noConfusion hrole
  | switch pd => exact hu
  | clone => exact h.clone_userTables hu hready

end Roles

theorem reachable_userTables {k : Kernel} {L : Pool k} {x y : Spaces}
    (hrun : Reachable
      (Guarded (Spaces.Step k (pageFaultFed k)) (Spaces.Allowed k L.outside)) x y)
    (h : (∃ role, Roles L role x) ∧ UserTables L x) :
    (∃ role, Roles L role y) ∧ UserTables L y := by
  refine hrun.invariant (fun z => (∃ role, Roles L role z) ∧ UserTables L z) ?_ h
  rintro z op z' ⟨⟨role, hroles⟩, hu⟩ ⟨hallowed, hstep⟩
  refine ⟨hstep.roles hallowed hroles, ?_⟩
  obtain ⟨hready, rfl⟩ := hstep.effect hallowed hroles
  exact hroles.after_userTables hu hready hallowed

/-! ### Faults and stores on a row -/

/-- The frames that the CPU goes through for an address of the user half. -/
def Walked (s : State) (g : Word) : Prop :=
  g = s.cr3 ∨ ∃ d < 512, present (s.mem s.cr3 d) = true ∧ g = frameOf (s.mem s.cr3 d)

/-- The frames that `mmu_alloc` goes through. -/
def InArray (k : Kernel) (s : State) (g : Word) : Prop :=
  g = k.framepoolPt ∨
    ∃ j < 1024, present (s.mem k.framepoolPt j) = true ∧ g = frameOf (s.mem k.framepoolPt j)

/-- What is behind the pages of the user half, or may come behind them, is neither a page table nor
in the pool array. The array does not matter where the pool is empty. -/
structure Fenced (k : Kernel) (fixed : Word → Nat → Prop) (s : State) : Prop where
  self : SelfMapped s
  index : s.framesIndex ≤ 2 ^ 20
  poolPresent : present (s.mem s.cr3 1022) = true
  poolEntry : frameOf (s.mem s.cr3 1022) = k.framepoolPt
  slotPage : ∀ i < s.framesIndex, present (s.mem k.framepoolPt (i / 1024)) = true
  slots : ∀ i < s.framesIndex, IsFrame (poolWord k s i) ∧ ¬ Walked s (poolWord k s i) ∧
    ¬ InArray k s (poolWord k s i)
  zero : ¬ Walked s 0#32
  apart : 0 < s.framesIndex → ∀ g, Walked s g → ¬ InArray k s g
  tables_inj : ∀ d < 512, ∀ e < 512, present (s.mem s.cr3 d) = true →
    present (s.mem s.cr3 e) = true → frameOf (s.mem s.cr3 d) = frameOf (s.mem s.cr3 e) → d = e
  tables_ne : ∀ d < 512, present (s.mem s.cr3 d) = true → frameOf (s.mem s.cr3 d) ≠ s.cr3
  pages : ∀ addr < 0x80000000, present (entry s addr) = true →
    ¬ fixed (Spaces.tableOf s s.cr3 addr) (mmuPtIndex addr) →
      ¬ Walked s (frameOf (entry s addr)) ∧
        (0 < s.framesIndex → ¬ InArray k s (frameOf (entry s addr)))

theorem mmuPdIndex_user {addr : Nat} (h : addr < 0x80000000) : mmuPdIndex addr < 512 := by
  unfold mmuPdIndex
  omega

theorem Touchable.present_pde {s : State} {addr : Nat} (h : Touchable s addr) :
    present (s.mem s.cr3 (mmuPdIndex addr)) = true := by
  rw [← Bool.not_eq_false]
  intro habsent
  unfold Touchable at h
  rw [entry_absent habsent] at h
  exact absurd h (by decide)

/-- The entry of a page that is not translated is on demand, where the page is reserved. -/
theorem Touchable.demanded {s : State} {addr : Nat} (h : Touchable s addr)
    (hunmapped : translate s addr = none) :
    present (entry s addr) = false ∧ entry s addr &&& mmuPageOndemand ≠ 0#32 := by
  have hpde := h.present_pde
  have habsent : present (entry s addr) = false := by
    rw [← Bool.not_eq_true]
    intro hpresent
    rw [entry_present hpde] at hpresent
    rw [translate_eq_some hpde hpresent] at hunmapped
    exact absurd hunmapped (by simp)
  refine ⟨habsent, ?_⟩
  unfold Touchable at h
  rw [habsent] at h
  exact h.resolve_left (by simp)

theorem walked_table {s : State} {addr : Nat} (huser : addr < 0x80000000)
    (hpde : present (s.mem s.cr3 (mmuPdIndex addr)) = true) :
    Walked s (frameOf (s.mem s.cr3 (mmuPdIndex addr))) :=
  .inr ⟨_, mmuPdIndex_user huser, hpde, rfl⟩

theorem putIn_user (k : Kernel) {s : State} {addr n : Nat} (huser : addr < 0x80000000)
    (hpde : present (s.mem s.cr3 (mmuPdIndex addr)) = true) (f g : Word) (j : Nat) :
    (putIn k addr f { s with framesIndex := n }).mem g j =
      if g = f then 0#32
      else if g = frameOf (s.mem s.cr3 (mmuPdIndex addr)) ∧ j = mmuPtIndex addr then
        f ||| (entry s addr &&& mmuProtMask) ||| mmuProtPresent
      else s.mem g j := by
  have hd := mmuPdIndex_user huser
  refine (putInto_mem k s.cr3 addr f { s with framesIndex := n } g j).trans ?_
  rw [if_neg (by omega), entry_present hpde]

theorem putIn_regs (k : Kernel) (addr : Nat) (f : Word) (s : State) :
    (putIn k addr f s).cr3 = s.cr3 ∧ (putIn k addr f s).framesIndex = s.framesIndex := by
  unfold putIn
  split <;> exact ⟨rfl, rfl⟩

namespace Fenced
variable {k : Kernel} {fixed : Word → Nat → Prop} {s : State} (h : Fenced k fixed s)
include h

theorem kept {s' : State} (hcr3 : s'.cr3 = s.cr3) (hindex : s'.framesIndex ≤ s.framesIndex)
    (hdir : ∀ j, s'.mem s.cr3 j = s.mem s.cr3 j)
    (harray : 0 < s'.framesIndex → ∀ g, InArray k s g → ∀ j, s'.mem g j = s.mem g j)
    (hpages : ∀ addr < 0x80000000, present (entry s' addr) = true →
      ¬ fixed (Spaces.tableOf s s.cr3 addr) (mmuPtIndex addr) →
        ¬ Walked s (frameOf (entry s' addr)) ∧
          (0 < s'.framesIndex → ¬ InArray k s (frameOf (entry s' addr)))) : Fenced k fixed s' := by
  have hwalked : ∀ g, Walked s' g ↔ Walked s g := by
    intro g
    unfold Walked
    simp only [hcr3, hdir]
  have hpt : 0 < s'.framesIndex → ∀ j, s'.mem k.framepoolPt j = s.mem k.framepoolPt j :=
    fun hpos => harray hpos _ (.inl rfl)
  have hin : 0 < s'.framesIndex → ∀ g, InArray k s' g ↔ InArray k s g := by
    intro hpos g
    unfold InArray
    simp only [hpt hpos]
  have hword : ∀ i < s'.framesIndex, poolWord k s' i = poolWord k s i := by
    intro i hi
    have hle := h.index
    have hpos : 0 < s'.framesIndex := by omega
    unfold poolWord poolPage
    rw [hpt hpos]
    apply harray hpos
    exact .inr ⟨i / 1024, by omega, h.slotPage i (by omega), rfl⟩
  refine ⟨⟨?_, ?_⟩, ?_, ?_, ?_, ?_, ?_, ?_, ?_, ?_, ?_, ?_⟩
  · rw [hcr3, hdir]
    exact h.self.1
  · rw [hcr3, hdir]
    exact h.self.2
  · exact Nat.le_trans hindex h.index
  · rw [hcr3, hdir]
    exact h.poolPresent
  · rw [hcr3, hdir]
    exact h.poolEntry
  · intro i hi
    rw [hpt (by omega)]
    exact h.slotPage i (by omega)
  · intro i hi
    rw [hword i hi, hwalked, hin (by omega)]
    exact h.slots i (by omega)
  · rw [hwalked]
    exact h.zero
  · intro hpos g hg
    rw [hin hpos]
    exact h.apart (by omega) g ((hwalked g).1 hg)
  · intro d hd e he hpresent hpresent' heq
    rw [hcr3, hdir] at hpresent hpresent' heq
    rw [hdir] at heq
    exact h.tables_inj d hd e he hpresent hpresent' heq
  · intro d hd hpresent
    rw [hcr3, hdir] at hpresent ⊢
    exact h.tables_ne d hd hpresent
  · intro addr huser hpresent hfree
    unfold Spaces.tableOf at hfree
    rw [hcr3, hdir] at hfree
    obtain ⟨hout, hout'⟩ := hpages addr huser hpresent hfree
    rw [hwalked]
    refine ⟨hout, ?_⟩
    intro hpos
    rw [hin hpos]
    exact hout' hpos

/-- The handler gets a frame or, from the empty pool, the frame at address zero. -/
theorem alloc_eq : ∃ f, (∀ fault, mmuAlloc fault s =
    some (f, { s with framesIndex := s.framesIndex - 1 })) ∧
    IsFrame f ∧ ¬ Walked s f ∧ (0 < s.framesIndex - 1 → ¬ InArray k s f) := by
  rcases Nat.eq_zero_or_pos s.framesIndex with hempty | hpos
  · refine ⟨0#32, ?_, by decide, h.zero, fun hpos => by omega⟩
    have hsame : ({ s with framesIndex := s.framesIndex - 1 } : State) = s := by
      cases s
      simp only [State.mk.injEq, and_true, true_and] at hempty ⊢
      omega
    intro fault
    rw [hsame]
    exact mmuAlloc_empty hempty
  · obtain ⟨hframe, hwalked, hin⟩ := h.slots (s.framesIndex - 1) (by omega)
    refine ⟨poolWord k s (s.framesIndex - 1), ?_, hframe, hwalked, fun _ => hin⟩
    intro fault
    exact mmuAlloc_of hpos h.index h.poolPresent h.poolEntry (h.slotPage _ (by omega))

theorem fault_eq {addr : Nat} (huser : addr < 0x80000000) (htouchable : Touchable s addr)
    (hunmapped : translate s addr = none) : ∃ f, (∀ depth, pageFault k (depth + 1) addr s =
      some (putIn k addr f { s with framesIndex := s.framesIndex - 1 })) ∧
    IsFrame f ∧ ¬ Walked s f ∧ (0 < s.framesIndex - 1 → ¬ InArray k s f) := by
  obtain ⟨f, halloc, hframe, hwalked, hin⟩ := h.alloc_eq
  have hpde := htouchable.present_pde
  refine ⟨f, ?_, hframe, hwalked, hin⟩
  intro depth
  obtain ⟨_, hdemand⟩ := htouchable.demanded hunmapped
  rw [entry_present hpde] at hdemand
  refine int0E_putIn h.self hpde hframe ?_ ?_ halloc hdemand depth
  · intro heq
    exact hwalked (.inl heq)
  · intro hself
    exact absurd hself (h.tables_ne _ (mmuPdIndex_user huser) hpde)

theorem putIn_entry {addr n : Nat} (huser : addr < 0x80000000)
    (hpde : present (s.mem s.cr3 (mmuPdIndex addr)) = true) {f : Word} (hf : ¬ Walked s f)
    {other : Nat} (hother : other < 0x80000000) :
    entry (putIn k addr f { s with framesIndex := n }) other =
      if SamePage other addr then f ||| (entry s addr &&& mmuProtMask) ||| mmuProtPresent
      else entry s other := by
  have hd := mmuPdIndex_user huser
  have hmem := putIn_user k (n := n) huser hpde f
  have hcr3 : (putIn k addr f { s with framesIndex := n }).cr3 = s.cr3 := (putIn_regs ..).1
  have hdir : ∀ j, (putIn k addr f { s with framesIndex := n }).mem s.cr3 j = s.mem s.cr3 j := by
    intro j
    rw [hmem, if_neg fun heq => hf (.inl heq.symm),
      if_neg fun hand => h.tables_ne _ hd hpde hand.1.symm]
  cases hpresent : present (s.mem s.cr3 (mmuPdIndex other)) with
  | false =>
    have hnot : ¬ SamePage other addr := by
      intro hsame
      rw [hsame.1, hpde] at hpresent
      exact absurd hpresent (by simp)
    rw [if_neg hnot, entry_absent (by rw [hcr3, hdir]; exact hpresent), entry_absent hpresent]
  | true =>
    have htable : frameOf (s.mem s.cr3 (mmuPdIndex other)) ≠ f := by
      intro heq
      rw [← heq] at hf
      exact hf (walked_table hother hpresent)
    rw [entry_present (by rw [hcr3, hdir]; exact hpresent), hcr3, hdir, hmem, if_neg htable,
      ← entry_present hpresent]
    have hiff : frameOf (s.mem s.cr3 (mmuPdIndex other)) = frameOf (s.mem s.cr3 (mmuPdIndex addr)) ∧
        mmuPtIndex other = mmuPtIndex addr ↔ SamePage other addr := by
      unfold SamePage
      apply and_congr_left
      intro _
      constructor
      · exact h.tables_inj _ (mmuPdIndex_user hother) _ hd hpresent hpde
      · intro heq
        rw [heq]
    simp only [hiff]

theorem fault {addr depth : Nat} (huser : addr < 0x80000000) (htouchable : Touchable s addr)
    (hunmapped : translate s addr = none) {s' : State} (hr : pageFault k depth addr s = some s') :
    Fenced k fixed s' ∧ ∀ other < 0x80000000, Touchable s other → Touchable s' other := by
  have hd := mmuPdIndex_user huser
  have hpde := htouchable.present_pde
  obtain ⟨f, heq, hframe, hf, hin⟩ := h.fault_eq huser htouchable hunmapped
  cases depth with
  | zero => exact absurd hr (by simp [pageFault, int0E])
  | succ depth =>
    rw [heq, Option.some.injEq] at hr
    have hmem := putIn_user k (n := s.framesIndex - 1) huser hpde f
    obtain ⟨hcr3, hindex⟩ := putIn_regs k addr f { s with framesIndex := s.framesIndex - 1 }
    have hentry := fun other (hother : other < 0x80000000) =>
      h.putIn_entry (n := s.framesIndex - 1) huser hpde hf hother
    rw [hr] at hmem hcr3 hindex hentry
    refine ⟨h.kept hcr3 (by rw [hindex]; exact Nat.sub_le ..) ?_ ?_ ?_, ?_⟩
    · intro j
      rw [hmem, if_neg fun heq => hf (.inl heq.symm),
        if_neg fun hand => h.tables_ne _ hd hpde hand.1.symm]
    · intro hpos g hg j
      rw [hindex] at hpos
      have hgf : g ≠ f := fun heq => hin hpos (heq ▸ hg)
      rw [hmem, if_neg hgf, if_neg]
      intro hand
      rw [hand.1] at hg
      exact h.apart (Nat.lt_of_lt_of_le hpos (Nat.sub_le ..)) _ (walked_table huser hpde) hg
    · intro other hother hpresent hfree
      rw [hentry other hother] at hpresent ⊢
      rw [hindex]
      split
      · rw [frameOf_installed _ hframe]
        exact ⟨hf, hin⟩
      · rename_i hnot
        rw [if_neg hnot] at hpresent
        obtain ⟨hout, hout'⟩ := h.pages other hother hpresent hfree
        exact ⟨hout, fun hpos => hout' (Nat.lt_of_lt_of_le hpos (Nat.sub_le ..))⟩
    · intro other hother hold
      unfold Touchable
      rw [hentry other hother]
      split
      · exact .inl (present_installed _ _)
      · exact hold

theorem store {addr : Nat} (huser : addr < 0x80000000) {place : Word × Nat}
    (hplace : translate s addr = some place)
    (hfree : ¬ fixed (Spaces.tableOf s s.cr3 addr) (mmuPtIndex addr)) (w : Word) :
    Fenced k fixed (s.set place.1 place.2 w) ∧
      ∀ other < 0x80000000, Touchable s other → Touchable (s.set place.1 place.2 w) other := by
  have hbehind : present (entry s addr) = true ∧ place.1 = frameOf (entry s addr) := by
    unfold translate at hplace
    simp only at hplace
    split at hplace
    · rename_i hpde
      rw [entry_present hpde]
      split at hplace
      · rename_i hpte
        rw [← Option.some.inj hplace]
        exact ⟨hpte, rfl⟩
      · exact absurd hplace (by simp)
    · exact absurd hplace (by simp)
  obtain ⟨hout, hout'⟩ := h.pages addr huser hbehind.1 hfree
  rw [← hbehind.2] at hout hout'
  have hmem : ∀ g, g ≠ place.1 → ∀ j, (s.set place.1 place.2 w).mem g j = s.mem g j :=
    fun g hg j => set_mem_frame _ _ _ _ hg j
  have hdir : ∀ j, (s.set place.1 place.2 w).mem s.cr3 j = s.mem s.cr3 j := by
    apply hmem
    intro heq
    exact hout (.inl heq.symm)
  have hentry : ∀ other < 0x80000000, entry (s.set place.1 place.2 w) other = entry s other := by
    intro other hother
    have hcr3 : (s.set place.1 place.2 w).cr3 = s.cr3 := rfl
    unfold entry
    rw [hcr3, hdir]
    split
    · rename_i hpde
      apply hmem
      intro heq
      rw [← heq] at hout
      exact hout (walked_table hother hpde)
    · rfl
  refine ⟨h.kept rfl (Nat.le_refl _) hdir ?_ ?_, ?_⟩
  · intro hpos g hg
    apply hmem
    intro heq
    rw [heq] at hg
    exact hout' hpos hg
  · intro other hother hpresent hfree'
    rw [hentry other hother] at hpresent ⊢
    exact h.pages other hother hpresent hfree'
  · intro other hother hold
    unfold Touchable
    rw [hentry other hother]
    exact hold

theorem rowReady {lo hi : Nat} (hhi : hi ≤ 0x80000000)
    (hrow : ∀ addr, lo ≤ addr → addr < hi → Touchable s addr) : RowReady k fixed lo hi s := by
  refine ⟨hrow, ?_⟩
  intro z hrun
  have hz : Fenced k fixed z ∧ ∀ addr, lo ≤ addr → addr < hi → Touchable z addr := by
    induction hrun with
    | refl => exact ⟨h, hrow⟩
    | tail _ hstep ih =>
      obtain ⟨hfenced, hrow⟩ := ih
      cases hstep with
      | fault hlo hlt hunmapped hr =>
        obtain ⟨hnext, hkept⟩ := hfenced.fault (by omega) (hrow _ hlo hlt) hunmapped hr
        exact ⟨hnext, fun other hlo hlt => hkept other (by omega) (hrow other hlo hlt)⟩
      | store hlo hlt hplace hfree =>
        obtain ⟨hnext, hkept⟩ := hfenced.store (by omega) hplace hfree _
        exact ⟨hnext, fun other hlo hlt => hkept other (by omega) (hrow other hlo hlt)⟩
  intro addr hlo hlt hunmapped depth
  obtain ⟨f, heq, _⟩ := hz.1.fault_eq (by omega) (hz.2 addr hlo hlt) hunmapped
  rw [heq]
  simp

end Fenced

/-! ### The pages of a process -/

namespace Roles
variable {k : Kernel} {L : Pool k} {role : Word → Role} {x : Spaces} (h : Roles L role x)
include h

theorem walked_role {g : Word} (hg : Walked x.state g) :
    role g = .directory ∨ ∃ a d, role g = .table a d := by
  rcases hg with rfl | ⟨d, hd, hpresent, rfl⟩
  · exact .inl (h.named.dir h.dirsOk.cr3)
  · exact .inr ⟨_, _, h.dirsOk.tables _ h.dirsOk.cr3 d (by omega) hpresent⟩

theorem inArray_role {g : Word} (hg : InArray k x.state g) :
    role g = .poolTable ∨ ∃ j, role g = .backing j := by
  rcases hg with rfl | ⟨j, hj, hpresent, rfl⟩
  · exact .inl h.named.poolPt
  · rw [h.slots.poolTable] at hpresent ⊢
    exact .inr ⟨j, h.named.backing j hj hpresent⟩

theorem data_apart {g : Word} (hdata : (role g).IsData) :
    ¬ Walked x.state g ∧ ¬ InArray k x.state g := by
  constructor
  · intro hg
    rcases h.walked_role hg with heq | ⟨a, d, heq⟩ <;> rw [heq] at hdata <;> exact hdata
  · intro hg
    rcases h.inArray_role hg with heq | ⟨j, heq⟩ <;> rw [heq] at hdata <;> exact hdata

theorem clone_shown (hactive : x.state.cr3 ∈ x.clones) : shown x.state = x.state.cr3 := by
  unfold shown
  rw [h.dirsOk.cloneSelf _ hactive]
  exact frameOf_static (h.named.isFrame_dir h.dirsOk.cr3)

/-- The pages of a process that have been brought in have their frames to themselves. -/
theorem fenced (hu : UserTables L x) (hactive : x.state.cr3 ∈ x.clones) :
    Fenced k x.fixed x.state := by
  have hspace := h.activeSpace (h.clone_shown hactive)
  refine ⟨hspace.self, hspace.index, hspace.poolPresent, hspace.poolEntry, hspace.slotPage, ?_, ?_,
    ?_, ?_, ?_, ?_⟩
  · intro i hi
    have hrole := h.slots.inPool i hi
    refine ⟨L.isFrame _ (h.slot_mem hi), h.data_apart ?_⟩
    rw [hrole]
    exact True.intro
  · rintro (heq | ⟨d, hd, hpresent, heq⟩)
    · exact L.ne_zero (h.named.clone _ hactive).2 heq.symm
    · exact L.ne_zero (hu _ h.dirsOk.cr3 d hd hpresent) heq.symm
  · intro _ g hwalked hin
    rcases h.walked_role hwalked with hrole | ⟨a, d, hrole⟩ <;>
      rcases h.inArray_role hin with hrole' | ⟨j, hrole'⟩ <;>
      exact Role.noConfusion (hrole.symm.trans hrole')
  · intro d hd e he hpresent hpresent' heq
    exact hspace.tables_inj (by omega) (by omega) hpresent hpresent' heq
  · intro d hd hpresent
    exact hspace.table_ne_active (by omega) hpresent
  · intro addr huser hpresent hfree
    have hd := mmuPdIndex_user huser
    have hpde := Touchable.present_pde (.inl hpresent)
    rw [entry_present hpde] at hpresent ⊢
    have ht := h.table_role h.dirsOk.cr3 (by omega) hpde
    have hrole := h.tables.pages _ _ ht (mmuPtIndex_lt addr) hpresent hfree
    have hdata : (role (frameOf (x.state.mem (frameOf (x.state.mem x.state.cr3 (mmuPdIndex addr)))
        (mmuPtIndex addr)))).IsData := by
      rw [hrole]
      exact True.intro
    obtain ⟨hout, hout'⟩ := h.data_apart hdata
    exact ⟨hout, fun _ => hout'⟩

end Roles

end OsdevCourse.Mmu
