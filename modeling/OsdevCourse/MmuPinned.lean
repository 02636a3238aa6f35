import OsdevCourse.MmuForeign
import OsdevCourse.MmuRefusal

/-!
# Pages of the kernel that stay

A page of the kernel half that every directory maps, through one page table, is mapped so in every
run until it is released: faults, other pages, new directories and switches leave it where it is.
A row of such pages is made by a fixed mapping before the first directory is cloned.
-/

namespace OsdevCourse.Mmu

set_option autoImplicit false

open PageEntry

/-- A page of the kernel half that is not in a window and not the one `mmu_clone_pagedir` uses. -/
structure KernelPage (addr : Nat) : Prop where
  kernel : 512 ≤ mmuPdIndex addr
  below : mmuPdIndex addr < 1022
  apart : ¬ SamePage addr kaddrClondpd

/-- Every directory has the page at the frame, in one page table. -/
structure Pinned (k : Kernel) (x : Spaces) (addr : Nat) (f : Word) : Prop where
  present_pde : ∀ a ∈ x.dirs k, present (x.state.mem a (mmuPdIndex addr)) = true
  table : ∀ a ∈ x.dirs k, Spaces.tableOf x.state a addr = Spaces.tableOf x.state k.pd addr
  present_pte : present (x.state.mem (Spaces.tableOf x.state k.pd addr) (mmuPtIndex addr)) = true
  frame : frameOf (x.state.mem (Spaces.tableOf x.state k.pd addr) (mmuPtIndex addr)) = f

/-- The step does not release one of the pages. -/
def Spaces.Keeps (pages : Nat → Prop) : Spaces.Op → Prop
  | .unmap a _ => ∀ addr, pages addr → ¬ SamePage addr a
  | _ => True

/-- The steps that are allowed and keep the pages. -/
def Spaces.KeepStep (k : Kernel) (outside : Word → Prop) (pages : Nat → Prop) :
    Spaces → Spaces.Op → Spaces → Prop :=
  Guarded (Spaces.Step k (pageFaultFed k)) fun x op => Spaces.Allowed k outside x op ∧
    Spaces.Keeps pages op

section Pinned
variable {k : Kernel} {L : Pool k} {role : Word → Role} {x : Spaces} {addr : Nat} {f : Word}

theorem Pinned.translate (hp : Pinned k x addr f) (hcr3 : x.state.cr3 ∈ x.dirs k) :
    Mmu.translate x.state addr = some (f, addr % 4096 / 4) := by
  have htable : frameOf (x.state.mem x.state.cr3 (mmuPdIndex addr)) =
      Spaces.tableOf x.state k.pd addr := hp.table _ hcr3
  have hpte := hp.present_pte
  rw [← htable] at hpte
  rw [translate_eq_some (hp.present_pde _ hcr3) hpte, htable, hp.frame]

theorem Pinned.samePage {other : Nat} (hp : Pinned k x addr f) (hsame : SamePage other addr) :
    Pinned k x other f := by
  obtain ⟨hd, hi⟩ := hsame
  have htable : ∀ a, Spaces.tableOf x.state a other = Spaces.tableOf x.state a addr := by
    intro a
    unfold Spaces.tableOf
    rw [hd]
  refine ⟨?_, ?_, ?_, ?_⟩
  · rw [hd]
    exact hp.present_pde
  · intro a ha
    rw [htable, htable]
    exact hp.table a ha
  · rw [htable, hi]
    exact hp.present_pte
  · rw [htable, hi]
    exact hp.frame

theorem Roles.pinned_role (h : Roles L role x) (hpage : KernelPage addr) (hp : Pinned k x addr f) :
    role (Spaces.tableOf x.state k.pd addr) = .table k.pd (mmuPdIndex addr) := by
  have hmem : k.pd ∈ x.dirs k := List.mem_cons_self ..
  have hrole := h.dirsOk.tables _ hmem _ hpage.below (hp.present_pde _ hmem)
  unfold owner at hrole
  rw [if_neg (Nat.not_lt.2 hpage.kernel)] at hrole
  exact hrole

theorem Roles.after_pinned_dirs (h : Roles L role x) {op : Spaces.Op} (hready : x.Ready op)
    (hallowed : Spaces.Allowed k L.outside x op) (hpage : KernelPage addr) (hp : Pinned k x addr f)
    {a : Word} (ha : a ∈ (x.after k op).dirs k) :
    present ((x.after k op).state.mem a (mmuPdIndex addr)) = true ∧
      frameOf ((x.after k op).state.mem a (mmuPdIndex addr)) =
          Spaces.tableOf x.state k.pd addr := by
  have hold : ∀ a ∈ x.dirs k, present ((x.after k op).state.mem a (mmuPdIndex addr)) = true ∧
      frameOf ((x.after k op).state.mem a (mmuPdIndex addr)) =
          Spaces.tableOf x.state k.pd addr := by
    intro a ha
    rcases h.after_dir hready hallowed ha hpage.below with hsame | ⟨_, habsent, _⟩ | ⟨_, hshared⟩
    · rw [hsame]
      exact ⟨hp.present_pde a ha, hp.table a ha⟩
    · rw [hp.present_pde a ha] at habsent
      exact absurd habsent (by simp)
    · rw [hshared]
      exact ⟨hp.present_pde _ h.shown_mem, hp.table _ h.shown_mem⟩
  rcases h.after_dirs hready ha with hmem | hnew
  · exact hold a hmem
  · rw [hnew _ hpage.below, if_pos hpage.kernel]
    exact hold k.pd (List.mem_cons_self ..)

theorem Roles.after_pinned_page (h : Roles L role x) {op : Spaces.Op} (hready : x.Ready op)
    (hallowed : Spaces.Allowed k L.outside x op) {pages : Nat → Prop}
    (hkeeps : Spaces.Keeps pages op)
    (hin : pages addr) (hpage : KernelPage addr) (hp : Pinned k x addr f) :
    present ((x.after k op).state.mem (Spaces.tableOf x.state k.pd addr) (mmuPtIndex addr)) = true ∧
      frameOf ((x.after k op).state.mem (Spaces.tableOf x.state k.pd addr) (mmuPtIndex addr)) =
          f := by
  have hrole := h.pinned_role hpage hp
  have hpresent := hp.present_pte
  have hframe := hp.frame
  -- two entries of page tables are one only where their pages are
  have hsame : ∀ {a}, mmuPdIndex a < 1022 →
      present (x.state.mem (shown x.state) (mmuPdIndex a)) = true →
      Spaces.tableOf x.state k.pd addr = windowTable x.state a → mmuPtIndex addr = mmuPtIndex a →
      SamePage addr a := by
    intro a hd hpde htable hindex
    have hother := h.window_role hd hpde
    rw [← htable, hrole] at hother
    exact ⟨(Role.table.inj hother).2, hindex⟩
  generalize ht : Spaces.tableOf x.state k.pd addr = t at hrole hpresent hframe hsame ⊢
  generalize hi : mmuPtIndex addr = i at hpresent hframe hsame ⊢
  rcases h.after_writes hready hallowed t i with hwrites | hkept
  · cases hwrites with
    | data hdata =>
      rw [hrole] at hdata
      exact hdata.elim
    | slot hb hbacked => exact Role.noConfusion (hrole.symm.trans (h.named.backing _ hb hbacked))
    | self => exact Role.noConfusion (hrole.symm.trans h.named.pd)
    | table _ _ _ _ => exact Role.noConfusion (hrole.symm.trans (h.named.dir h.shown_mem))
    | shared _ _ => exact Role.noConfusion (hrole.symm.trans h.named.pd)
    | marked _ _ hmarked =>
      obtain ⟨hnew, hsameFrame⟩ := hmarked hpresent
      exact ⟨hnew, hsameFrame.trans hframe⟩
    | filled _ _ habsent =>
      rw [hpresent] at habsent
      exact absurd habsent (by simp)
    | cleared hop hpde =>
      exfalso
      rcases hop with ⟨flag, rfl⟩ | ⟨_, rfl⟩
      · exact hkeeps addr hin (hsame (Spaces.pdIndex_below hallowed.1) hpde rfl rfl)
      · exact hpage.apart (hsame (by decide) hpde rfl rfl)
  · rw [hkept]
    exact ⟨hpresent, hframe⟩

theorem Roles.after_pinned (h : Roles L role x) {op : Spaces.Op} (hready : x.Ready op)
    (hallowed : Spaces.Allowed k L.outside x op) {pages : Nat → Prop}
    (hkeeps : Spaces.Keeps pages op)
    (hin : pages addr) (hpage : KernelPage addr) (hp : Pinned k x addr f) :
    Pinned k (x.after k op) addr f := by
  have hdirs := fun a (ha : a ∈ (x.after k op).dirs k) =>
    h.after_pinned_dirs hready hallowed hpage hp ha
  have hkernel := (hdirs k.pd (List.mem_cons_self ..)).2
  have hentry := h.after_pinned_page hready hallowed hkeeps hin hpage hp
  refine ⟨fun a ha => (hdirs a ha).1, fun a ha => (hdirs a ha).2.trans hkernel.symm, ?_, ?_⟩
  · unfold Spaces.tableOf at hkernel hentry ⊢
    rw [hkernel]
    exact hentry.1
  · unfold Spaces.tableOf at hkernel hentry ⊢
    rw [hkernel]
    exact hentry.2

end Pinned

/-- The memory manager between two calls, with the pages that are to stay. -/
structure Holding {k : Kernel} (L : Pool k) (pages : Nat → Prop) (frame : Nat → Word) (x : Spaces) :
    Prop extends Settled L x where
  pinned : ∀ addr, pages addr → KernelPage addr ∧ Pinned k x addr (frame addr)

theorem Spaces.KeepStep.holding {k : Kernel} {L : Pool k} {pages : Nat → Prop} {frame : Nat → Word}
    {x y : Spaces} {op : Spaces.Op} (hstep : Spaces.KeepStep k L.outside pages x op y)
    (h : Holding L pages frame x) : Holding L pages frame y := by
  obtain ⟨⟨hallowed, hkeeps⟩, hstep⟩ := hstep
  obtain ⟨role, hroles⟩ := h.roles
  have hsettled := (hstep.settled hallowed h.toSettled).1
  obtain ⟨hready, rfl⟩ := hstep.effect hallowed hroles
  refine ⟨hsettled, ?_⟩
  intro addr hin
  obtain ⟨hpage, hp⟩ := h.pinned addr hin
  exact ⟨hpage, hroles.after_pinned hready hallowed hkeeps hin hpage hp⟩

/-- In every run the pages stay, and the frames that are nobody's keep what they hold. -/
theorem reachable_holding {k : Kernel} {L : Pool k} {pages : Nat → Prop} {frame : Nat → Word}
    {x y : Spaces} (hrun : Reachable (Spaces.KeepStep k L.outside pages) x y)
    (h : Holding L pages frame x) :
    Holding L pages frame y ∧ ∀ f, Foreign L f → ∀ j, y.state.mem f j = x.state.mem f j := by
  refine hrun.invariant
    (fun z => Holding L pages frame z ∧ ∀ f, Foreign L f → ∀ j, z.state.mem f j = x.state.mem f j)
    ?_ ⟨h, fun _ _ _ => rfl⟩
  rintro z op z' ⟨hholding, hkept⟩ hstep
  refine ⟨hstep.holding hholding, ?_⟩
  intro f hf j
  obtain ⟨⟨hallowed, _⟩, hstep⟩ := hstep
  exact ((hstep.settled hallowed hholding.toSettled).2 f hf j).trans (hkept f hf j)

/-! ### A row of pages before the first clone -/

section Row
variable {k : Kernel} {L : Pool k} {role : Word → Role} {x : Spaces} {flag : Word}

theorem Roles.alone (h : Roles L role x) (hclones : x.clones = []) :
    x.state.cr3 = k.pd ∧ shown x.state = x.state.cr3 := by
  have hdirs : ∀ a ∈ x.dirs k, a = k.pd := by
    intro a ha
    unfold Spaces.dirs at ha
    rw [hclones] at ha
    exact List.mem_singleton.1 ha
  have hcr3 := hdirs _ h.dirsOk.cr3
  exact ⟨hcr3, (hdirs _ h.shown_mem).trans hcr3.symm⟩

theorem Roles.pinned_of_entry (h : Roles L role x) (hclones : x.clones = []) {addr : Nat} {w : Word}
    (hentry : entry x.state addr = w) (hpresent : present w = true) :
    Pinned k x addr (frameOf w) := by
  have hcr3 := (h.alone hclones).1
  have hpde := table_of_entry (hentry ▸ hpresent)
  rw [entry_present hpde] at hentry
  rw [hcr3] at hpde hentry
  have hdirs : ∀ a ∈ x.dirs k, a = k.pd := by
    intro a ha
    unfold Spaces.dirs at ha
    rw [hclones] at ha
    exact List.mem_singleton.1 ha
  refine ⟨?_, ?_, ?_, congrArg frameOf hentry⟩
  · intro a ha
    rw [hdirs a ha]
    exact hpde
  · intro a ha
    rw [hdirs a ha]
  · exact (congrArg present hentry).trans hpresent

theorem Roles.mark_fixed (h : Roles L role x) (hclones : x.clones = []) {addr : Nat} {paddr : Word}
    (hflag : flag &&& mmuPageNoalloc ≠ 0#32) (hbelow : Spaces.Below k addr)
    (hframe : IsFrame paddr) (hout : L.outside paddr)
    (habsent : present (entry x.state addr) = false)
    (hroom : present (x.state.mem x.state.cr3 (mmuPdIndex addr)) = false → 0 < x.state.framesIndex)
    (depth : Nat) (pages : Nat → Prop) :
    ∃ y, mmuMark (pageFault k (depth + 1)) addr paddr flag x.state = some (true, y.state) ∧
      Spaces.KeepStep k L.outside pages x (.mark addr paddr flag) y ∧ y.clones = [] ∧
      (∃ role', Roles L role' y) ∧ FixedPage addr (markEntry paddr flag) x.state y.state := by
  have hd := Spaces.pdIndex_below hbelow
  have hshown := (h.alone hclones).2
  have htable : HasTable x.state addr := by
    unfold HasTable
    rw [hshown]
    cases hpresent : present (x.state.mem x.state.cr3 (mmuPdIndex addr)) with
    | true => exact .inl rfl
    | false => exact .inr (hroom hpresent)
  obtain ⟨_, s', hmark, _, hpage⟩ :=
    (h.activeSpace hshown).mmuMark_fixed hflag habsent hd hroom depth paddr
  have hfed := h.mark_total hd htable feeds_mmuAllocFed depth paddr flag
  rw [← h.mark_total hd htable feeds_mmuAlloc depth paddr flag] at hfed
  have hallowed : Spaces.Allowed k L.outside x (.mark addr paddr flag) :=
    ⟨hbelow, fun _ => ⟨hframe, hout⟩⟩
  have hstep : Spaces.Step k (pageFaultFed k) x (.mark addr paddr flag)
      (x.afterMark addr flag (true, s')) := .mark (hfed.trans hmark)
  exact ⟨_, hmark, ⟨⟨hallowed, True.intro⟩, hstep⟩, hclones, hstep.roles hallowed h, hpage⟩

theorem Roles.markPages_fixed (h : Roles L role x) (hclones : x.clones = []) {addr n : Nat}
    {paddr : Word} (hflag : flag &&& mmuPageNoalloc ≠ 0#32)
    (hbelow : ∀ i < n, Spaces.Below k (addr + 4096 * i))
    (hframes : ∀ i < n, IsFrame (paddr + BitVec.ofNat 32 (4096 * i)) ∧
      L.outside (paddr + BitVec.ofNat 32 (4096 * i)))
    (hfree : ∀ i < n, ¬ Refused x.state addr i)
    (hfit : (tablesLacked x.state addr n).card ≤ x.state.framesIndex) (depth : Nat)
    (pages : Nat → Prop) :
    ∃ y, markPages (pageFault k (depth + 1)) n addr paddr flag x.state = some (true, y.state) ∧
      Reachable (Spaces.KeepStep k L.outside pages) x y ∧ y.clones = [] ∧
      (∃ role', Roles L role' y) ∧ FixedRange addr n paddr flag x.state y.state := by
  induction n with
  | zero => exact ⟨x, rfl, ⟨[], .nil x⟩, hclones, ⟨role, h⟩, .refl addr paddr flag x.state⟩
  | succ n ih =>
    have hmono : (tablesLacked x.state addr n).card ≤ (tablesLacked x.state addr (n + 1)).card :=
      card_tablesLacked_mono (Nat.le_succ n)
    obtain ⟨y, hrun, ⟨ops, hsteps⟩, hclones', ⟨role', hroles⟩, hrange⟩ :=
      ih (fun i hi => hbelow i (by omega)) (fun i hi => hframes i (by omega))
        (fun i hi => hfree i (by omega)) (Nat.le_trans hmono hfit)
    have hpage := hbelow n (Nat.lt_succ_self n)
    have hend : addr / 4096 + n < 2 ^ 20 := by
      have hlimit := hpage.1
      unfold pageLimit mmuFramepoolVma at hlimit
      omega
    obtain ⟨hframe, hout⟩ := hframes n (Nat.lt_succ_self n)
    have hself := (hroles.activeSpace (hroles.alone hclones').2).self
    obtain ⟨z, hmark, hstep, hcloned, ⟨role'', hnext⟩, hfixed⟩ :=
      hroles.mark_fixed hclones' hflag hpage hframe hout
        (hrange.absent hend (hfree n (Nat.lt_succ_self n))) (hrange.taken.room hfit) depth pages
    have hself' := (hnext.activeSpace (hnext.alone hcloned).2).self
    exact ⟨z, (markPages_snoc hrun).trans hmark, ⟨_, hsteps.snoc hstep⟩, hcloned, ⟨role'', hnext⟩,
      hrange.succ hself hflag hend hself' hfixed⟩

end Row

end OsdevCourse.Mmu
