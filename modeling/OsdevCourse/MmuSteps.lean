import OsdevCourse.MmuCalls

/-!
# Every call keeps the invariant

`mmu_mark`, the body of `mmu_munmap` and `mmu_clone_pagedir`, each run under the invariant
with a page fault handler whose faults are fed from the pool.
-/

namespace OsdevCourse.Mmu

set_option autoImplicit false

open PageEntry

/-- What a page is used as after `mmu_mark` with the flags. -/
def useOf (flag : Word) : Use := if flag &&& mmuPageNoalloc = 0#32 then .demand else .fixed

/-- The use of one page changes. -/
def setUse (uses : Nat → Use) (p : Nat) (u : Use) : Nat → Use :=
  fun q => if q = p then u else uses q

theorem setUse_same (uses : Nat → Use) (p : Nat) (u : Use) : setUse uses p u p = u := if_pos rfl

theorem setUse_other (uses : Nat → Use) {p q : Nat} (u : Use) (h : q ≠ p) :
    setUse uses p u q = uses q := if_neg h

/-! ### The page table that `mmu_mark` finds or makes -/

namespace Inv
variable {k : Kernel} {L : Pool k} {m : Machine} (h : Inv L m) {addr : Nat}
  (haddr : addr < 2 ^ 32) (hp : addr / 4096 < pageLimit)
include h haddr hp

section New
variable (hclones : m.clones = []) (hzero : m.state.mem m.state.cr3 (mmuPdIndex addr) = 0#32)
  (paddr flag : Word)
include hzero

theorem mmuMark_starved {depth : Nat} (hnone : depth = 0 ∨ m.state.framesIndex = 0) :
    mmuMark (pageFaultFed k depth) addr paddr flag m.state = none := by
  have hlt : mmuPdIndex addr < 1022 := by
    rw [mmuPdIndex_eq haddr]
    exact pageLimit_div hp
  obtain ⟨hself₀, _, hpresent, _⟩ := faulting_state h.selfMapped hlt rfl
  apply mmuMark_unhandled h.selfMapped hlt hzero
  unfold pageFaultFed
  cases hnone with
  | inl hdepth =>
    rw [hdepth]
    rfl
  | inr hempty => exact int0E_starved hself₀ hpresent hempty depth

include hclones

/-- Where the pool is fed `mmu_mark` goes on with a page table that has no entry. -/
theorem mmuMark_new (hhand : m.hand = none) (hpos : 0 < m.state.framesIndex) (depth : Nat) :
    Inv L { m with state := newTable k addr m.state } ∧
      present (pde k (newTable k addr m.state) (addr / 4096 / 1024)) = true ∧
      pde k m.state (addr / 4096 / 1024) = 0#32 ∧
      mmuMark (pageFaultFed k (depth + 1)) addr paddr flag m.state =
        some (marked (table k (newTable k addr m.state) (addr / 4096 / 1024)) (addr / 4096 % 1024)
          addr paddr flag (newTable k addr m.state)) := by
  have hd := mmuPdIndex_eq haddr
  have hlt : mmuPdIndex addr < 1022 := by
    rw [hd]
    exact pageLimit_div hp
  have hcr3 := h.cr3_eq_pd hclones
  obtain ⟨_, _, _, hondemand⟩ := faulting_state h.selfMapped hlt rfl
  obtain ⟨hfaultable, _⟩ := h.faultable_table hclones hlt hpos
    (mmuPageOndemand ||| mmuProtRw ||| mmuProtUser)
  have hfault : pageFaultFed k (depth + 1) (ptSlot addr) (m.state.set m.state.cr3
      (mmuPdIndex addr) (mmuPageOndemand ||| mmuProtRw ||| mmuProtUser)) =
      some (newTable k addr m.state) := by
    refine int0E_eq hfaultable ?_ hondemand depth
    intro fault
    unfold mmuAllocFed
    rw [if_pos hfaultable.index_pos]
    exact mmuAlloc_eq hfaultable.index_pos hfaultable.index_le hfaultable.pool hfaultable.page
  have hentry : pde k m.state (mmuPdIndex addr) = 0#32 := by
    rw [← hzero, hcr3]
    rfl
  have habsent : present (pde k m.state (mmuPdIndex addr)) = false := by
    rw [hentry]
    exact not_present_zero
  have hinv := h.newTable_inv hclones hlt hhand hpos habsent
  have hpresent : present (pde k (newTable k addr m.state) (mmuPdIndex addr)) = true := by
    unfold pde
    rw [h.newTable_mem hclones hlt hpos, if_pos ⟨rfl, rfl⟩]
    exact present_installed _ _
  have hactive : (newTable k addr m.state).mem (newTable k addr m.state).cr3 (mmuPdIndex addr) =
      pde k (newTable k addr m.state) (mmuPdIndex addr) := by
    rw [newTable_cr3, hcr3]
    rfl
  have hmark : mmuMark (pageFaultFed k (depth + 1)) addr paddr flag m.state = _ :=
    mmuMark_faulted h.selfMapped hlt hzero hfault hinv.selfMapped (by rw [hactive]; exact hpresent)
  refine ⟨hinv, ?_, ?_, ?_⟩
  · rw [← hd]
    exact hpresent
  · rw [← hd]
    exact hentry
  · rw [hmark, hactive, mmuPtIndex_eq, ← hd]
    rfl

end New

theorem mmuMark_table (hpresent : present (m.state.mem m.state.cr3 (mmuPdIndex addr)) = true)
    (fault : Fault) (paddr flag : Word) :
    present (pde k m.state (addr / 4096 / 1024)) = true ∧
      mmuMark fault addr paddr flag m.state =
        some (marked (table k m.state (addr / 4096 / 1024)) (addr / 4096 % 1024) addr paddr flag
          m.state) := by
  have hd := mmuPdIndex_eq haddr
  have hlt : mmuPdIndex addr < 1023 := by
    rw [hd]
    have := pageLimit_div hp
    omega
  have hpde := h.active_present hlt hpresent
  rw [mmuMark_present fault paddr flag h.selfMapped hpresent, mmuPtIndex_eq]
  rw [hpde, hd] at hpresent ⊢
  exact ⟨hpresent, rfl⟩

/-- The result of `mmu_mark` is that of its last part, in a state with a page table. -/
theorem mmuMark_cases (hhand : m.hand = none) {depth : Nat} {paddr flag : Word}
    (htable : m.clones = [] ∨ present (m.state.mem m.state.cr3 (mmuPdIndex addr)) = true)
    {r : Bool × State} (hr : mmuMark (pageFaultFed k depth) addr paddr flag m.state = some r) :
    ∃ s, Inv L { m with state := s } ∧ s.cr3 = m.state.cr3 ∧
      present (pde k s (addr / 4096 / 1024)) = true ∧
      r = marked (table k s (addr / 4096 / 1024)) (addr / 4096 % 1024) addr paddr flag s ∧
      (s = m.state ∨ s = newTable k addr m.state ∧ 0 < m.state.framesIndex ∧ m.clones = [] ∧
        pde k m.state (addr / 4096 / 1024) = 0#32) := by
  have hlt : mmuPdIndex addr < 1022 := by
    rw [mmuPdIndex_eq haddr]
    exact pageLimit_div hp
  cases h.active_settled hlt with
  | inl hpresent =>
    obtain ⟨hpde, hmark⟩ := h.mmuMark_table haddr hp hpresent (pageFaultFed k depth) paddr flag
    rw [hmark] at hr
    exact ⟨m.state, h, rfl, hpde, (Option.some.inj hr).symm, .inl rfl⟩
  | inr hzero =>
    have hclones : m.clones = [] := by
      cases htable with
      | inl hnil => exact hnil
      | inr hpresent =>
        rw [hzero, not_present_zero] at hpresent
        exact Bool.noConfusion hpresent
    have hstarved : depth = 0 ∨ m.state.framesIndex = 0 →
        mmuMark (pageFaultFed k depth) addr paddr flag m.state = none :=
      h.mmuMark_starved haddr hp hzero paddr flag
    have hpos : 0 < m.state.framesIndex := by
      cases Nat.eq_zero_or_pos m.state.framesIndex with
      | inr hpos => exact hpos
      | inl hempty =>
        rw [hstarved (.inr hempty)] at hr
        exact absurd hr (by simp)
    cases depth with
    | zero =>
      rw [hstarved (.inl rfl)] at hr
      exact absurd hr (by simp)
    | succ depth =>
      obtain ⟨hinv, hpde, hentry, hmark⟩ :=
        h.mmuMark_new haddr hp hclones hzero paddr flag hhand hpos depth
      rw [hmark] at hr
      exact ⟨newTable k addr m.state, hinv, newTable_cr3 _ _ _, hpde, (Option.some.inj hr).symm,
        .inr ⟨rfl, hpos, hclones, hentry⟩⟩

end Inv

/-! ### One page is marked or unmapped -/

/-- A page in use one way is not remapped the other way, and a page that is not allocated on
demand gets a frame of those allowed. -/
structure MarkAllowed (outside : Word → Prop) (uses : Nat → Use) (p : Nat) (paddr flag : Word) :
    Prop where
  demand : flag &&& mmuPageNoalloc = 0#32 → uses p ≠ .fixed
  fixed : flag &&& mmuPageNoalloc ≠ 0#32 → uses p ≠ .demand ∧ IsFrame paddr ∧ outside paddr

/-- A page is unmapped with the release mode it was mapped for. -/
structure UnmapAllowed (uses : Nat → Use) (p : Nat) (flag : Word) : Prop where
  release : flag &&& mmuMunmapNorelease = 0#32 → uses p ≠ .fixed
  norelease : flag &&& mmuMunmapNorelease ≠ 0#32 → uses p ≠ .demand

namespace Inv
variable {k : Kernel} {L : Pool k} {m : Machine} (h : Inv L m) {p : Nat} (hp : p < pageLimit)
include h hp

omit h hp in
theorem mapped_eq (hpresent : present (pde k m.state (p / 1024)) = true) :
    mapped k m.state p = present (pte k m.state p) := by
  unfold mapped
  rw [hpresent, Bool.true_and]

theorem marked_inv (hpresent : present (pde k m.state (p / 1024)) = true) {paddr flag : Word}
    (hallowed : MarkAllowed L.outside m.uses p paddr flag) (addr : Nat) {r : Bool × State}
    (hr : r = marked (table k m.state (p / 1024)) (p % 1024) addr paddr flag m.state) :
    Inv L { m with
      state := r.2, uses := if r.1 = true then setUse m.uses p (useOf flag) else m.uses } := by
  have hmapped := mapped_eq hpresent
  have hother : ∀ u q, q ≠ p → setUse m.uses p u q = m.uses q :=
    fun u q hq => setUse_other _ u hq
  have hset : ∀ w, ∀ g j, (m.state.set (table k m.state (p / 1024)) (p % 1024) w).mem g j =
      if g = table k m.state (p / 1024) ∧ j = p % 1024 then w else m.state.mem g j :=
    fun w g j => rfl
  have hentry : m.state.mem (table k m.state (p / 1024)) (p % 1024) = pte k m.state p := rfl
  cases habsent : present (pte k m.state p) with
  | false =>
    rw [habsent] at hmapped
    cases Classical.em (flag &&& mmuPageNoalloc = 0#32) with
    | inl hflag =>
      have hw := not_present_ondemand flag
      rw [marked_demand habsent hflag] at hr
      simp only [hr, if_true, show useOf flag = .demand from if_pos hflag]
      refine h.rewrite_pte hp hpresent (hset _) rfl rfl (hother _) ?_ ?_ ?_ ?_ ?_
      · intro f _
        simp [hw, hmapped]
      · intro _ hpresent'
        exact Bool.noConfusion (hw.symm.trans hpresent')
      · intro _ hpresent'
        exact Bool.noConfusion (hw.symm.trans hpresent')
      · intro hpresent'
        exact Bool.noConfusion (hw.symm.trans hpresent')
      · intro _
        exact setUse_same _ _ _
    | inr hflag =>
      obtain ⟨_, hframe, houtside⟩ := hallowed.fixed hflag
      have hwframe := frameOf_installed flag hframe
      rw [marked_fixed habsent hflag] at hr
      simp only [hr, if_true, show useOf flag = .fixed from if_neg hflag]
      have hstored : Inv L { m with
          state := m.state.set (table k m.state (p / 1024)) (p % 1024)
            (paddr ||| (flag &&& mmuProtMask) ||| mmuProtPresent),
          uses := setUse m.uses p .fixed } := by
        refine h.rewrite_pte hp hpresent (hset _) rfl rfl (hother _) ?_ ?_ ?_ ?_ ?_
        · intro f _
          simp [setUse_same, hmapped]
        · intro huse
          rw [setUse_same] at huse
          exact absurd huse (by simp)
        · intro _ _
          rw [hwframe]
          exact houtside
        · intro _
          rw [setUse_same]
          simp
        · intro hbit
          exact absurd (installed_not_ondemand flag hframe) hbit
      exact hstored.congr_state rfl rfl rfl
  | true =>
    rw [habsent] at hmapped
    cases Classical.em (flag &&& mmuPageNoalloc = 0#32) with
    | inr hflag =>
      rw [marked_refused habsent hflag] at hr
      simp only [hr, Bool.false_eq_true, if_false]
      exact h
    | inl hflag =>
      have hdemand : m.uses p = .demand := by
        cases hcase : m.uses p with
        | demand => rfl
        | fixed => exact absurd hcase (hallowed.demand hflag)
        | free => exact absurd hcase (h.inUse p hp hmapped)
      rw [marked_reprotected habsent hflag] at hr
      simp only [hr, if_true, show useOf flag = .demand from if_pos hflag]
      refine h.rewrite_pte hp hpresent (hset _) rfl rfl (hother _) ?_ ?_ ?_ ?_ ?_
      · intro f _
        rw [hentry, present_reprotected, frameOf_reprotected, hmapped, habsent,
          setUse_same, hdemand]
      · intro _ _
        rw [hentry, frameOf_reprotected]
        exact h.demand p hp hdemand hmapped
      · intro hne
        rw [setUse_same] at hne
        exact absurd rfl hne
      · intro _
        rw [setUse_same]
        simp
      · intro _
        exact setUse_same _ _ _

theorem unmapPage_inv (hhand : m.hand = none) {addr : Nat} (haddr : addr < 2 ^ 32)
    (hpage : addr / 4096 = p) {flag : Word} (hallowed : UnmapAllowed m.uses p flag) {depth : Nat}
    {s' : State} (hr : unmapPage (pageFaultFed k depth) addr flag m.state = some s') :
    Inv L { m with state := s', uses := setUse m.uses p .free } := by
  have hd := mmuPdIndex_eq haddr
  have hi := mmuPtIndex_eq addr
  rw [hpage] at hd hi
  have hlt : mmuPdIndex addr < 1022 := by
    rw [hd]
    exact pageLimit_div hp
  have hactive : present (m.state.mem m.state.cr3 (mmuPdIndex addr)) = true := by
    cases h.active_settled hlt with
    | inl hset => exact hset
    | inr hzero =>
      unfold unmapPage pageFaultFed at hr
      rw [readWord_table_halts h.selfMapped hzero] at hr
      exact absurd hr (by simp)
  have hpde := h.active_present (by omega) hactive
  have hpresent : present (pde k m.state (p / 1024)) = true := by
    rw [← hd, ← hpde]
    exact hactive
  have hslot := translate_ptSlot_present h.selfMapped hactive
  rw [hpde, hd, hi] at hslot
  have hmapped := mapped_eq hpresent
  have hset : ∀ g j, (m.state.set (table k m.state (p / 1024)) (p % 1024) 0#32).mem g j =
      if g = table k m.state (p / 1024) ∧ j = p % 1024 then 0#32 else m.state.mem g j :=
    fun g j => rfl
  have hother : ∀ q, q ≠ p → setUse m.uses p .free q = m.uses q :=
    fun q hq => setUse_other _ _ hq
  unfold unmapPage at hr
  rw [readWord_of_translate hslot] at hr
  simp only [Option.bind_eq_bind, Option.bind_some] at hr
  rw [writeWord_of_translate hslot] at hr
  simp only [Option.bind_some] at hr
  have hentry : m.state.mem (frameOf (pde k m.state (p / 1024))) (p % 1024) = pte k m.state p := rfl
  rw [hentry] at hr
  cases Classical.em (pte k m.state p &&& mmuProtPresent ≠ 0#32 ∧
      flag &&& mmuMunmapNorelease = 0#32 ∧ frameOf (pte k m.state p) ≠ 0#32) with
  | inl hrelease =>
    rw [if_pos hrelease] at hr
    obtain ⟨hbit, hflag, _⟩ := hrelease
    have hpage : present (pte k m.state p) = true := by
      cases hcase : present (pte k m.state p) with
      | true => rfl
      | false => exact absurd ((and_present_eq_zero _).2 hcase) hbit
    rw [hpage] at hmapped
    have huse : m.uses p = .demand := by
      cases hcase : m.uses p with
      | demand => rfl
      | fixed => exact absurd hcase (hallowed.release hflag)
      | free => exact absurd hcase (h.inUse p hp hmapped)
    have hframe := h.demand p hp huse hmapped
    have htaken := h.take hp hpresent hset rfl rfl hhand hother huse hmapped hframe rfl
    have hfree := htaken.framesIndex_lt_of_held hframe (p := .hand) rfl (by simp)
    have hstored := mmuFree_eq (pageFaultFed k depth) (Nat.lt_of_lt_of_le hfree L.length_le)
      htaken.active_pool (htaken.pool_present hfree) (frameOf (pte k m.state p))
    simp only at hstored
    have hkept : m = { m with hand := none } := by rw [← hhand]
    rw [table] at hstored
    rw [hstored] at hr
    simp only [Option.bind_some, Option.some.injEq] at hr
    rw [← hr, hkept]
    exact htaken.push rfl (fun g j => rfl) rfl rfl
  | inr hkeep =>
    rw [if_neg hkeep] at hr
    rw [← Option.some.inj hr]
    refine h.rewrite_pte hp hpresent hset rfl rfl hother ?_ ?_ ?_ ?_ ?_
    · intro f hf
      rw [not_present_zero]
      constructor
      · intro hand
        exact Bool.noConfusion hand.2.1
      · intro hand
        -- The entry would have been released.
        exfalso
        apply hkeep
        obtain ⟨huse, hpage, hframe⟩ := hand
        rw [hmapped] at hpage
        refine ⟨?_, ?_, ?_⟩
        · intro hzero
          exact Bool.noConfusion (((and_present_eq_zero _).1 hzero).symm.trans hpage)
        · cases Classical.em (flag &&& mmuMunmapNorelease = 0#32) with
          | inl hflag => exact hflag
          | inr hflag => exact absurd huse (hallowed.norelease hflag)
        · rw [hframe]
          exact L.ne_zero hf
    · intro _ hzero
      exact Bool.noConfusion (not_present_zero.symm.trans hzero)
    · intro _ hzero
      exact Bool.noConfusion (not_present_zero.symm.trans hzero)
    · intro hzero
      exact Bool.noConfusion (not_present_zero.symm.trans hzero)
    · intro hbit
      exact absurd BitVec.zero_and hbit

end Inv

/-! ### A directory is cloned -/

theorem Machine.eq_idle (m : Machine) (hhand : m.hand = none) (haside : m.aside = none) :
    m = { m with hand := none, aside := none } := by
  obtain ⟨state, uses, clones, hand, aside⟩ := m
  simp only at hhand haside
  rw [hhand, haside]

/-- The history after `mmu_clone_pagedir` has returned `pd`. -/
def Machine.afterClone (m : Machine) (pd : Word) (s : State) : Machine :=
  { m with
    state := s
    uses := if pd = 0#32 then m.uses else setUse m.uses (kaddrClondpd / 4096) .free
    clones := if pd = 0#32 then m.clones else m.clones ++ [pd] }

namespace Inv
variable {k : Kernel} {L : Pool k} {m : Machine} (h : Inv L m)
include h

theorem cloned_inv (hhand : m.hand = none) {f : Word} (haside : m.aside = some f)
    (hpresent : present (pde k m.state 959) = true)
    (hfree : present (pte k m.state (kaddrClondpd / 4096)) = false) :
    Inv L { m with
      state := cloned k (table k m.state 959) f m.state,
      uses := setUse m.uses (kaddrClondpd / 4096) .free,
      clones := m.clones ++ [f],
      aside := none } := by
  have hf := h.inAside f haside
  have hpage : kaddrClondpd / 4096 < pageLimit := by decide
  have htf : table k m.state 959 ≠ f :=
    h.table_ne_held (by omega) hpresent hf (p := .aside) haside (by simp)
  have htpd := h.table_ne_pd (by omega) hpresent
  have hmem := cloned_mem (s := m.state) htf (L.ne_pd hf).symm htpd.symm
  have hpicked := h.pickUp hhand haside
  have hother : ∀ q, q ≠ kaddrClondpd / 4096 →
      setUse m.uses (kaddrClondpd / 4096) .free q = m.uses q :=
    fun q hq => setUse_other _ _ hq
  have hmapped : mapped k m.state (kaddrClondpd / 4096) = false := by
    unfold mapped
    rw [hfree, Bool.and_false]
  -- The entry of the window is cleared again, and the frame in hand is written.
  have hcleared : Inv L { m with
      state := m.state.set (table k m.state 959) 1023 0#32,
      uses := setUse m.uses (kaddrClondpd / 4096) .free,
      hand := some f, aside := none } := by
    have hset : ∀ g j, (m.state.set (table k m.state 959) 1023 0#32).mem g j =
        if g = table k m.state 959 ∧ j = 1023 then 0#32 else m.state.mem g j := fun g j => rfl
    refine hpicked.rewrite_pte hpage hpresent hset rfl rfl hother ?_ ?_ ?_ ?_ ?_
    · intro g _
      simp only [hmapped, not_present_zero, Bool.false_eq_true, false_and, and_false]
    · intro _ hzero
      exact Bool.noConfusion (not_present_zero.symm.trans hzero)
    · intro _ hzero
      exact Bool.noConfusion (not_present_zero.symm.trans hzero)
    · intro hzero
      exact Bool.noConfusion (not_present_zero.symm.trans hzero)
    · intro hbit
      exact absurd BitVec.zero_and hbit
  have hwritten : Inv L { m with
      state := cloned k (table k m.state 959) f m.state,
      uses := setUse m.uses (kaddrClondpd / 4096) .free,
      hand := some f, aside := none } := by
    refine hcleared.scribble rfl ?_ rfl rfl
    intro g hg j
    rw [hmem, set_mem, if_neg hg]
  have hkept : m = { m with hand := none } := by rw [← hhand]
  rw [hkept]
  have hdirectory : ∀ d, (cloned k (table k m.state 959) f m.state).mem f d =
      if d = 1023 then f + 3#32 else if 512 ≤ d ∧ d < 1024 then m.state.mem k.pd d else 0#32 := by
    intro d
    rw [hmem, if_neg fun hand => htf hand.1.symm, if_pos rfl]
  have hpd : ∀ d, pde k (cloned k (table k m.state 959) f m.state) d = pde k m.state d := by
    intro d
    unfold pde
    rw [hmem, if_neg fun hand => htpd hand.1.symm, if_neg (L.ne_pd hf).symm]
  refine hwritten.newDirectory rfl ?_ ?_ ?_ ?_
  · intro d hd
    rw [hdirectory, if_neg (by omega), if_neg (by omega)]
  · intro d hlow hhigh
    rw [hdirectory, hpd, if_neg (by omega), if_pos (by omega)]
    rfl
  · rw [hdirectory, if_pos rfl]
  · rw [hpd]
    exact hpresent

theorem returned_inv (hhand : m.hand = none) {f : Word} (haside : m.aside = some f)
    {fault : Fault} {s' : State} (hr : mmuFree fault f m.state = some s') :
    Inv L { m with state := s', aside := none } := by
  have hf := h.inAside f haside
  have hpicked := h.pickUp hhand haside
  have hfree := h.framesIndex_lt_of_held hf (p := .aside) haside (by simp)
  have hstored := mmuFree_eq fault (Nat.lt_of_lt_of_le hfree L.length_le) h.active_pool
    (h.pool_present hfree) f
  have hkept : m = { m with hand := none } := by rw [← hhand]
  rw [hstored] at hr
  rw [← Option.some.inj hr, hkept]
  exact hpicked.push rfl (fun g j => rfl) rfl rfl

theorem clone_inv (hhand : m.hand = none) (haside : m.aside = none) {depth : Nat}
    {r : Word × State} (hr : mmuClonePagedir (pageFaultFed k depth) k m.state = some r) :
    Inv L (m.afterClone r.1 r.2) := by
  unfold mmuClonePagedir at hr
  cases Nat.eq_zero_or_pos m.state.framesIndex with
  | inl hempty =>
    simp only [mmuAlloc_empty hempty, Option.bind_eq_bind, Option.bind_some, if_true,
      Option.some.injEq] at hr
    rw [← hr]
    unfold Machine.afterClone
    simp only [if_true]
    exact h
  | inr hpos =>
    let f := poolWord k m.state (m.state.framesIndex - 1)
    let s := { m.state with framesIndex := m.state.framesIndex - 1 }
    have hf : f ∈ L.frames := h.top_mem hpos
    have hne : f ≠ 0#32 := L.ne_zero hf
    have halloc : mmuAlloc (pageFaultFed k depth) m.state = some (f, s) :=
      mmuAlloc_eq hpos h.framesIndex_le_pow h.active_pool
        (h.pool_present (Nat.lt_of_lt_of_le (by omega) h.framesIndex_le))
    have hkept := m.eq_idle hhand haside
    have haside₀ := (h.pop hhand hpos).setAside rfl haside
    have hcount : pageCount 4096 = some 1 := rfl
    rw [halloc] at hr
    simp only [Option.bind_eq_bind, Option.bind_some, if_neg hne, mmuMmap, hcount,
      markPages] at hr
    -- The table of the window, and the entry that `mmu_mark` finds in it.
    cases hmark : mmuMark (pageFaultFed k depth) kaddrClondpd f mmuPageNoalloc s with
    | none =>
      rw [hmark] at hr
      exact absurd hr (by simp)
    | some x =>
      rw [hmark] at hr
      simp only [Option.bind_some] at hr
      have htable : m.clones = [] ∨
          present (s.mem s.cr3 (mmuPdIndex kaddrClondpd)) = true := by
        cases Classical.em (m.clones = []) with
        | inl hnil => exact .inl hnil
        | inr hsome =>
          right
          have hactive := h.active_kernel (d := mmuPdIndex kaddrClondpd) (by decide) (by decide)
          exact (congrArg present hactive).trans (h.clondpd hsome)
      obtain ⟨s₁, hinv, hcr3, hpresent, hx, _⟩ := haside₀.mmuMark_cases (by decide) (by decide) rfl
        htable hmark
      have hpde : s₁.mem s₁.cr3 959 = pde k s₁ 959 := hinv.active_kernel (by omega) (by omega)
      cases hentry : present (pte k s₁ (kaddrClondpd / 4096)) with
      | true =>
        -- The page of the window is in use: the frame goes back to the pool.
        rw [marked_refused hentry (by decide)] at hx
        subst hx
        simp only [Bool.false_eq_true, if_false, Option.bind_some] at hr
        cases hfree : mmuFree (pageFaultFed k depth) f s₁ with
        | none =>
          rw [hfree] at hr
          exact absurd hr (by simp)
        | some s₂ =>
          rw [hfree] at hr
          rw [← Option.some.inj hr]
          have hreturned := hinv.returned_inv rfl rfl hfree
          unfold Machine.afterClone
          simp only [if_true]
          rw [hkept]
          exact hreturned
      | false =>
        rw [marked_fixed hentry (by decide)] at hx
        subst hx
        have htf := hinv.table_ne_held (d := 959) (by omega) hpresent hf (p := .aside) rfl (by simp)
        have hpresent₁ : present (s₁.mem s₁.cr3 959) = true := by
          rw [hpde]
          exact hpresent
        have htcr3 := hinv.table_ne_cr3 (d := 959) (by omega) hpresent
        have hfcr3 := hinv.cr3_ne_free hf (p := .aside) rfl (by simp)
        have hclone := hinv.selfMapped.recursive.fillWindow_eq (k := k) (pageFaultFed k depth)
          (L.isFrame f hf) hpresent₁ rfl rfl (by rw [hpde]; exact htcr3) (by rw [hpde]; exact htcr3)
          hfcr3 hfcr3 (by rw [hpde]; exact htf)
        rw [hpde] at hclone
        unfold fillWindow at hclone
        simp only [Option.bind_eq_bind] at hclone
        simp only [if_true, Option.bind_some] at hr
        have hdone := hr.symm.trans hclone
        rw [Option.some.inj hdone]
        have hcloned := hinv.cloned_inv rfl rfl hpresent hentry
        unfold Machine.afterClone
        simp only [if_neg hne]
        rw [hkept]
        exact hcloned

end Inv

end OsdevCourse.Mmu
