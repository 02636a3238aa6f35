import OsdevCourse.MmuTlbMark
import OsdevCourse.MmuTlbUnmap
import OsdevCourse.Reachability

/-!
# The TLB never outlives the page tables

Runs of `mmu_mmap`, `mmu_munmap` and page faults from `mmu_init` on, in one directory. `mmu_init`
loads CR3 before it marks the first page of the pool array, and from there on each call that
keeps up with its invalidations leaves every slot of the TLB current.
-/

namespace OsdevCourse.Mmu

set_option autoImplicit false

open PageEntry

/-! ### From `mmu_init` on -/

theorem Filling.sound {k : Kernel} {pushed : List Word} {ptIndex : Nat} {s : State}
    (h : Filling k pushed ptIndex s) (hframes : ∀ f ∈ pushed, PoolFrame k f)
    (hnodup : pushed.Nodup) : Sound k s := by
  have hd : ∀ d < 1022, present (pde k s d) = true → d = 960 := by
    intro d hlow hpresent
    have hcases := h.pde_present hpresent
    omega
  have htable : table k s 960 = k.pt := by
    unfold table pde
    rw [h.directory]
    exact frameOf_static k.isFrame_pt
  have himage : ∀ f, f ∈ [k.pd, k.pt, k.framepoolPt, k.framepoolFirstpage] → f ≠ 0#32 := by
    intro f hf hzero
    have habove := (k.inImage f hf).1
    rw [hzero] at habove
    exact absurd habove (by decide)
  have hpushed : ∀ f ∈ pushed, f ≠ 0#32 := by
    intro f hf hzero
    have habove := (hframes f hf).aboveImage
    rw [hzero] at habove
    unfold Kernel.kend at habove
    exact absurd habove (by simp)
  have hbacked : ∀ j, present (s.mem k.framepoolPt j) = true → j ≤ ptIndex :=
    fun j hpresent => h.slot_present.1 hpresent
  refine ⟨h.cr3, h.directory 1023, h.directory 1022, ?_, ?_, ?_, ?_, ?_, ?_, ?_, ?_, ?_, ?_, ?_⟩
  · intro d hlow
    unfold pde
    rw [h.directory]
    unfold initPde
    rw [if_neg (by omega), if_neg (by omega)]
    split
    · exact .inl (present_static k.isFrame_pt)
    · exact .inr rfl
  · intro d hlow hpresent
    rw [hd d hlow hpresent, htable]
    intro hreserved
    rcases hreserved with hpd | hpool | hpage
    · exact k.pd_ne_pt hpd.symm
    · exact k.pt_ne_framepoolPt hpool
    · obtain ⟨j, _, hj, heq⟩ := hpage
      exact h.poolPage_ne hframes (hbacked j hj) (by simp [heq])
  · intro d hlow hpresent
    rw [hd d hlow hpresent, htable]
    exact himage _ (by simp)
  · intro d hlow e helow hpresent hpresent' _
    rw [hd d hlow hpresent, hd e helow hpresent']
  · intro f hreserved
    rcases hreserved with hpd | hpool | hpage
    · exact himage f (by simp [hpd])
    · exact himage f (by simp [hpool])
    · obtain ⟨j, _, hj, heq⟩ := hpage
      rw [← heq]
      cases Nat.eq_zero_or_pos j with
      | inl hzero =>
        rw [hzero, h.poolPage_zero]
        exact himage _ (by simp)
      | inr hpos => exact hpushed _ (h.poolPage_mem hpos (hbacked j hj))
  · intro j _
    cases Nat.lt_or_ge ptIndex j with
    | inl hlt => exact .inr (h.empty j hlt)
    | inr hle => exact .inl (h.page_present hle)
  · intro j _ hj
    have hne := h.poolPage_ne hframes (hbacked j hj)
    simp only [List.mem_cons, List.not_mem_nil, or_false, not_or] at hne
    exact ⟨hne.1, hne.2.2⟩
  · intro i _ j _ hi hj heq
    exact h.poolPage_inj hframes hnodup (hbacked i hi) (hbacked j hj) heq
  · intro i hi _
    have hhigh := h.high
    exact h.page_present (by omega)
  · intro i hi
    have hmem := h.poolWord_mem hi
    have hne := Filling.ne_static hframes hmem
    simp only [Kernel.statics, List.mem_cons, List.not_mem_nil, or_false, not_or] at hne
    refine ⟨(hframes _ hmem).isFrame, hpushed _ hmem, ?_, ?_⟩
    · intro hreserved
      rcases hreserved with hpd | hpool | hpage
      · exact hne.1 hpd
      · exact hne.2.2.1 hpool
      · obtain ⟨j, _, hj, heq⟩ := hpage
        exact h.poolWord_ne_poolPage hframes hnodup hi (hbacked j hj) heq.symm
    · intro d hlow hpresent
      rw [hd d hlow hpresent, htable]
      exact fun heq => hne.2.1 heq.symm
  · intro i hi j hj heq
    exact h.poolWord_inj hnodup hi hj heq

/-- The page tables below the pool array show the same in all such memories. -/
theorem BootHalf.walk_eq {k : Kernel} {mem mem' : Memory} (h : BootHalf k mem)
    (h' : BootHalf k mem') {p : Nat} (hp : p < pageLimit) :
    walk mem' k.pd p = walk mem k.pd p := by
  have hlow := pageLimit_div hp
  have hpde : mem' k.pd (p / 1024) = mem k.pd (p / 1024) :=
    (h'.directory _ hlow).trans (h.directory _ hlow).symm
  apply walk_congr hpde
  intro hpresent
  have hframe : frameOf (mem k.pd (p / 1024)) = k.pt := by
    rw [h.directory _ hlow] at hpresent ⊢
    unfold initPde at hpresent ⊢
    rw [if_neg (by omega), if_neg (by omega)] at hpresent ⊢
    split at hpresent
    · rename_i himage
      rw [if_pos himage]
      exact frameOf_static k.isFrame_pt
    · exact absurd hpresent (by decide)
  rw [hframe, h'.bootTable, h.bootTable]

theorem quiet_tlb {k : Kernel} {s s' : State} (h : Quiet k s s') (hcr3 : s.cr3 = k.pd)
    (hboot : BootHalf k s.mem) {c₀ : Cpu} (htlb : TlbCurrent c₀ below s) :
    TlbCurrent c₀ below s' ∧ s'.cr3 = k.pd ∧ BootHalf k s'.mem := by
  induction h with
  | refl => exact ⟨htlb, hcr3, hboot⟩
  | index n _ ih =>
    obtain ⟨hcurrent, hpd, hhalf⟩ := ih
    exact ⟨hcurrent.index n, hpd, hhalf⟩
  | stored _ htrace hsame hhalf' ih =>
    obtain ⟨hcurrent, hpd, hhalf⟩ := ih
    refine ⟨hcurrent.stored htrace hsame (fun _ hp => hp) ?_, hsame.trans hpd, hhalf'⟩
    intro p hp e hwalk
    rw [hpd] at hwalk ⊢
    exact (hhalf.walk_eq hhalf' hp).trans hwalk
  | invlpg addr _ ih =>
    obtain ⟨hcurrent, hpd, hhalf⟩ := ih
    exact ⟨hcurrent.invlpg fun _ hp => .inl hp, hpd, hhalf⟩

theorem cached_start {c₀ c : Cpu} (h : Cached c₀ [] c) : c.mem = c₀.mem ∧ c.cr3 = c₀.cr3 := by
  generalize htrace : ([] : List Event) = es at h
  induction h with
  | start => exact ⟨rfl, rfl⟩
  | fill _ _ ih => exact ih htrace
  | event => exact absurd htrace (by simp)

theorem exists_cached (c₀ : Cpu) (es : List Event) : ∃ c, Cached c₀ es c := by
  induction es with
  | nil => exact ⟨c₀, .start⟩
  | cons ev es ih =>
    obtain ⟨c, hc⟩ := ih
    exact ⟨c.after ev, hc.event ev⟩

/-- The CPU that `boot.s` leaves, with anything in its TLB. -/
def bootCpu (k : Kernel) (ram : Memory) (tlb : Nat → Option Word) : Cpu :=
  ⟨(bootState k ram).mem, k.pd, tlb⟩

theorem loopStart_tlb (k : Kernel) (ram : Memory) (tlb : Nat → Option Word) :
    TlbCurrent (bootCpu k ram tlb) below (loopStart k (bootState k ram)) := by
  have hboot : TlbCurrent (bootCpu k ram tlb) (fun _ => False) (bootState k ram) := by
    intro c hc
    obtain ⟨hmem, hcr3⟩ := cached_start hc
    exact ⟨hmem, hcr3, fun _ hnone => hnone.elim⟩
  have hstore : ∀ {s : State} (f : Word) (i : Nat) (w : Word),
      TlbCurrent (bootCpu k ram tlb) (fun _ => False) s →
      TlbCurrent (bootCpu k ram tlb) (fun _ => False) (s.set f i w) :=
    fun f i w h => h.stored rfl rfl (fun _ hnone => hnone) fun _ hnone => hnone.elim
  have hstored := hstore k.framepoolPt 0 (k.framepoolFirstpage + 3#32)
    (hstore k.pd (mmuPdIndex mmuFramepoolVma) (k.framepoolPt + 3#32)
      (hstore k.pd (mmuPdIndex mmuPdVma) (k.pd + 3#32) hboot))
  exact (hstored.loadCr3 k.pd).index 0

theorem mmuInit_current {k : Kernel} {ram : Memory} {map : List Region} {depth : Nat} {s : State}
    (hdistinct : (usableFrames k map).Nodup)
    (hinit : mmuInit k (pageFault k depth) map (bootState k ram) = some s)
    (tlb : Nat → Option Word) : Sound k s ∧ TlbCurrent (bootCpu k ram tlb) below s := by
  obtain ⟨ptIndex, hfilling, _, hquiet⟩ := mmuInit_quiet hdistinct hinit
  have hstart := loopStart_filling k ram
  exact ⟨hfilling.sound usableFrames_poolFrame hdistinct,
    (quiet_tlb hquiet hstart.cr3 hstart.bootHalf (loopStart_tlb k ram tlb)).1⟩

/-! ### Runs -/

inductive Call where
  | mmap (mem : Nat) (paddr : Word) (size : Nat) (flag : Word)
  | munmap (mem size : Nat) (flag : Word)
  | fault (addr : Nat)

/-- A call, or a page fault that is handled, whatever the pool holds. -/
inductive CallStep (k : Kernel) : State → Call → State → Prop where
  | mmap {s s' : State} {depth mem : Nat} {paddr : Word} {size : Nat} {flag : Word} {ok : Bool} :
      mmuMmap (pageFault k depth) mem paddr size flag s = some (ok, s') →
      CallStep k s (.mmap mem paddr size flag) s'
  | munmap {s s' : State} {depth mem size : Nat} {flag : Word} {ok : Bool} :
      mmuMunmap (pageFault k depth) mem size flag s = some (ok, s') →
      CallStep k s (.munmap mem size flag) s'
  | fault {s s' : State} {depth addr : Nat} :
      translate s addr = none → pageFault k depth addr s = some s' →
      CallStep k s (.fault addr) s'

/-- The pages of the range a call is for. -/
def Affected : Call → Nat → Prop
  | .mmap mem _ size _, p => mem / 4096 ≤ p ∧ p < mem / 4096 + pages size
  | .munmap mem size _, p => mem / 4096 ≤ p ∧ p < mem / 4096 + pages size
  | .fault addr, p => p = addr / 4096

/-- The range lies below the pool array, and the call invalidates all it has to. -/
def KeepsUp (k : Kernel) (s : State) : Call → Prop
  | .mmap mem _ size flag => mem / 4096 + pages size ≤ pageLimit ∧
      Markable k s (mem / 4096) (reached k s flag (mem / 4096) (pages size)) flag
  | .munmap mem size flag => mem / 4096 + pages size ≤ pageLimit ∧
      Unmappable k s (mem / 4096) (pages size) flag
  | .fault addr => addr < 2 ^ 32

section Runs
variable {k : Kernel} {c₀ : Cpu}

theorem CallStep.current {s s' : State} {call : Call} (hcall : CallStep k s call s')
    (hkeeps : KeepsUp k s call) (h : Sound k s ∧ TlbCurrent c₀ below s) :
    Sound k s' ∧ TlbCurrent c₀ below s' := by
  obtain ⟨hsound, htlb⟩ := h
  cases hcall with
  | mmap hr =>
    obtain ⟨hbelow, hmarkable⟩ := hkeeps
    unfold mmuMmap at hr
    rw [pageCount_pages hbelow] at hr
    exact hsound.markPages_current _ hbelow hmarkable hr htlb
  | munmap hr =>
    obtain ⟨hbelow, hunmappable⟩ := hkeeps
    unfold mmuMunmap at hr
    simp only [Option.bind_eq_bind, Option.bind_eq_some_iff, Option.some.injEq,
      Prod.mk.injEq] at hr
    obtain ⟨n, hn, s₁, hr, _, hs₁⟩ := hr
    rw [pageCount_eq hn] at hr
    rw [← hs₁]
    exact hsound.unmapPages_current _ hbelow hunmappable hr htlb
  | fault hfault hr => exact hsound.fault_current hkeeps hfault hr htlb

theorem CallStep.affected_below {s s' : State} {call : Call} (hcall : CallStep k s call s')
    (hkeeps : KeepsUp k s call) (h : Sound k s) {p : Nat} (hp : Affected call p) : below p := by
  cases hcall with
  | mmap hr => exact Nat.lt_of_lt_of_le hp.2 hkeeps.1
  | munmap hr => exact Nat.lt_of_lt_of_le hp.2 hkeeps.1
  | fault hfault hr =>
    have hlt := h.fault_below hkeeps hfault hr
    unfold Affected at hp
    rw [hp]
    exact hlt

theorem run_current {s s' : State} {calls : List Call}
    (hrun : Run (Guarded (CallStep k) (KeepsUp k)) s calls s')
    (h : Sound k s ∧ TlbCurrent c₀ below s) : Sound k s' ∧ TlbCurrent c₀ below s' :=
  hrun.invariant (fun s => Sound k s ∧ TlbCurrent c₀ below s)
    (fun _ _ _ hinv hstep => hstep.2.current hstep.1 hinv) h

end Runs

theorem tlb_in_step {k : Kernel} {ram : Memory} {map : List Region} {depth : Nat} {s : State}
    (hdistinct : (usableFrames k map).Nodup)
    (hinit : mmuInit k (pageFault k depth) map (bootState k ram) = some s)
    {calls : List Call} {s₁ s₂ : State} {call : Call}
    (hrun : Run (Guarded (CallStep k) (KeepsUp k)) s calls s₁)
    (hcall : CallStep k s₁ call s₂) (hkeeps : KeepsUp k s₁ call) (tlb : Nat → Option Word) :
    ∀ c, Cached (bootCpu k ram tlb) s₂.trace c → ∀ p, Affected call p → ∀ e, c.tlb p = some e →
      walk s₂.mem s₂.cr3 p = some e := by
  have hbefore := run_current hrun (mmuInit_current hdistinct hinit tlb)
  have hafter := hcall.current hkeeps hbefore
  intro c hc p hp e he
  have hcurrent := hafter.2 c hc
  have hwalk := hcurrent.inStep p (hcall.affected_below hkeeps hbefore.1 hp) e he
  rw [hcurrent.mem, hcurrent.cr3] at hwalk
  exact hwalk

/-- `mmu_mmap` of two pages on demand, and the first of them touched. -/
def tlbMapped : Bool × State :=
  (mmuMmap (pageFault smallKernel 4) 0x400000 0#32 8192 mmuProtRw smallStart).get
    (by decide +kernel)

def tlbTouched : State := (pageFault smallKernel 4 0x400004 tlbMapped.2).get (by decide +kernel)

theorem tlb_in_step_touched : pageFault smallKernel 4 0x400004 tlbMapped.2 = some tlbTouched ∧
    ∀ c, Cached (bootCpu smallKernel (fun _ _ => 0#32) fun _ => none) tlbTouched.trace c →
      ∀ e, c.tlb 1024 = some e → walk tlbTouched.mem tlbTouched.cr3 1024 = some e := by
  have hinit : smallInit [smallRam 4] = some smallStart := (Option.some_get _).symm
  have hmapped : mmuMmap (pageFault smallKernel 4) 0x400000 0#32 8192 mmuProtRw smallStart =
      some tlbMapped := (Option.some_get _).symm
  have htouched : pageFault smallKernel 4 0x400004 tlbMapped.2 = some tlbTouched :=
    (Option.some_get _).symm
  have hunmapped : ∀ i < 2, mapped smallKernel smallStart (1024 + i) = false := by decide +kernel
  have htables : newTables smallKernel smallStart 1024 2 = {1} := by decide +kernel
  have hblank : Blank smallStart (poolWord smallKernel smallStart 3) := by
    unfold Blank
    decide +kernel
  have hmarkable : Markable smallKernel smallStart 1024 2 mmuProtRw := by
    refine ⟨?_, ?_, ?_⟩
    · intro _ i hi hmapped
      exact Bool.noConfusion ((hunmapped i hi).symm.trans hmapped)
    · rw [htables]
      decide +kernel
    · intro i hi
      rw [htables, Finset.card_singleton] at hi
      have hzero : i = 0 := by omega
      rw [hzero]
      exact hblank
  have hfirst : KeepsUp smallKernel smallStart (.mmap 0x400000 0#32 8192 mmuProtRw) :=
    ⟨by decide, hmarkable⟩
  refine ⟨htouched, ?_⟩
  intro c hc e he
  exact tlb_in_step (by decide +kernel) hinit (.cons ⟨hfirst, .mmap (hmapped.trans rfl)⟩ (.nil _))
    (.fault (by decide +kernel) htouched) (show 0x400004 < 2 ^ 32 by omega) _ c hc 1024 rfl e he

/-- `mmu_mmap` of one page of a device, and the page unmapped again without release. -/
def tlbFixed : Bool × State :=
  (mmuMmap (pageFault smallKernel 4) 0x400000 0xFD000000#32 4096 mmuPageNoalloc smallStart).get
    (by decide +kernel)

def tlbUnmapped : Bool × State :=
  (mmuMunmap (pageFault smallKernel 4) 0x400000 4096 mmuMunmapNorelease tlbFixed.2).get
    (by decide +kernel)

theorem tlb_outlives_page : smallInit [smallRam 4] = some smallStart ∧
    Run (CallStep smallKernel) smallStart [.mmap 0x400000 0xFD000000#32 4096 mmuPageNoalloc,
      .munmap 0x400000 4096 mmuMunmapNorelease] tlbUnmapped.2 ∧
    Affected (.munmap 0x400000 4096 mmuMunmapNorelease) 1024 ∧
    walk tlbUnmapped.2.mem tlbUnmapped.2.cr3 1024 = none ∧
    ∃ c, Cached (bootCpu smallKernel (fun _ _ => 0#32) fun _ => none) tlbUnmapped.2.trace c ∧
      c.tlb 1024 = some 0xFD000001#32 := by
  have hinit : smallInit [smallRam 4] = some smallStart := (Option.some_get _).symm
  have hmapped : mmuMmap (pageFault smallKernel 4) 0x400000 0xFD000000#32 4096 mmuPageNoalloc
      smallStart = some tlbFixed := (Option.some_get _).symm
  have hunmapped : mmuMunmap (pageFault smallKernel 4) 0x400000 4096 mmuMunmapNorelease
      tlbFixed.2 = some tlbUnmapped := (Option.some_get _).symm
  have hnew : mapped smallKernel smallStart 1024 = false := by decide +kernel
  have htables : newTables smallKernel smallStart 1024 1 = {1} := by decide +kernel
  have hblank : Blank smallStart (poolWord smallKernel smallStart 3) := by
    unfold Blank
    decide +kernel
  have hreached : reached smallKernel smallStart mmuPageNoalloc 1024 1 = 1 := by
    unfold reached reached
    rw [hnew]
    simp
  have hkeeps : KeepsUp smallKernel smallStart
      (.mmap 0x400000 0xFD000000#32 4096 mmuPageNoalloc) := by
    refine ⟨by decide, ?_⟩
    rw [show 0x400000 / 4096 = 1024 from rfl, show pages 4096 = 1 from rfl, hreached]
    refine ⟨fun hflag => absurd hflag (by decide), ?_, ?_⟩
    · rw [htables]
      decide +kernel
    · intro i hi
      rw [htables, Finset.card_singleton] at hi
      have hzero : i = 0 := by omega
      rw [hzero]
      exact hblank
  have hfirst : CallStep smallKernel smallStart (.mmap 0x400000 0xFD000000#32 4096 mmuPageNoalloc)
      tlbFixed.2 := .mmap (hmapped.trans rfl)
  have hsecond : CallStep smallKernel tlbFixed.2 (.munmap 0x400000 4096 mmuMunmapNorelease)
      tlbUnmapped.2 := .munmap (hunmapped.trans rfl)
  have hcurrent := hfirst.current hkeeps
    (mmuInit_current (by decide +kernel) hinit fun _ => none)
  refine ⟨hinit, .cons hfirst (.cons hsecond (.nil _)), ⟨by decide, by decide⟩,
    by decide +kernel, ?_⟩
  -- The CPU uses the page while it is mapped; nothing invalidates it afterwards.
  obtain ⟨c, hc⟩ := exists_cached (bootCpu smallKernel (fun _ _ => 0#32) fun _ => none)
    tlbFixed.2.trace
  have hsees := hcurrent.2 c hc
  have hwalk : walk c.mem c.cr3 1024 = some 0xFD000001#32 := by
    rw [hsees.mem, hsees.cr3]
    decide +kernel
  have htrace : tlbUnmapped.2.trace = .stored tlbUnmapped.2.mem :: tlbFixed.2.trace := by
    obtain ⟨place, hplace⟩ := Option.isSome_iff_exists.1
      (show (translate tlbFixed.2 (ptSlot 0x400000)).isSome = true from by decide +kernel)
    unfold mmuMunmap at hunmapped
    rw [show pageCount 4096 = some 1 from rfl] at hunmapped
    simp only [Option.bind_eq_bind, Option.bind_some, unmapPages, unmapPage] at hunmapped
    rw [readWord_of_translate hplace, Option.bind_some, writeWord_of_translate hplace,
      Option.bind_some, if_neg] at hunmapped
    · rw [← Option.some.inj hunmapped]
      rfl
    · intro hand
      exact absurd hand.2.1 (by decide)
  rw [htrace]
  refine ⟨_, (hc.fill hwalk).event _, ?_⟩
  have hcached : (c.fill 1024 0xFD000001#32).tlb 1024 = some 0xFD000001#32 := by
    simp [Cpu.fill]
  exact hcached

end OsdevCourse.Mmu
