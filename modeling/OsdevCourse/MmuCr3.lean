import OsdevCourse.MmuSpaceRuns

/-!
# Only a switch loads CR3

The calls of the memory manager store into frames and count the pool. They return in the
directory in which they were called, whatever page faults they raise.
-/

namespace OsdevCourse.Mmu

set_option autoImplicit false

open PageEntry

/-- The handler returns in the directory of the fault. -/
def KeepsCr3 (fault : Fault) : Prop := ∀ addr s s', fault addr s = some s' → s'.cr3 = s.cr3

section Calls
variable {fault : Fault} (hfault : KeepsCr3 fault) {s s' : State} {addr : Nat}
include hfault

theorem access_cr3 {r : (Word × Nat) × State} (hr : access fault addr s = some r) :
    r.2.cr3 = s.cr3 := by
  unfold access at hr
  split at hr
  · rw [← Option.some.inj hr]
  · simp only [Option.bind_eq_bind, Option.bind_eq_some_iff, Option.some.injEq] at hr
    obtain ⟨s₁, hhandled, place, _, hr⟩ := hr
    rw [← hr]
    exact hfault _ _ _ hhandled

theorem readWord_cr3 {r : Word × State} (hr : readWord fault addr s = some r) :
    r.2.cr3 = s.cr3 := by
  simp only [readWord, Option.bind_eq_bind, Option.bind_eq_some_iff, Option.some.injEq] at hr
  obtain ⟨r₁, haccess, hr⟩ := hr
  rw [← hr]
  exact access_cr3 hfault haccess

theorem writeWord_cr3 {w : Word} (hr : writeWord fault addr w s = some s') : s'.cr3 = s.cr3 := by
  simp only [writeWord, Option.bind_eq_bind, Option.bind_eq_some_iff, Option.some.injEq] at hr
  obtain ⟨r₁, haccess, hr⟩ := hr
  rw [← hr]
  exact access_cr3 hfault haccess

theorem markPte_cr3 {paddr flag : Word} {r : Bool × State}
    (hr : markPte fault addr paddr flag s = some r) : r.2.cr3 = s.cr3 := by
  simp only [markPte, Option.bind_eq_bind, Option.bind_eq_some_iff] at hr
  obtain ⟨⟨pte, s₁⟩, hread, hr⟩ := hr
  have hfirst := readWord_cr3 hfault hread
  simp only at hr
  split at hr
  · obtain ⟨s₂, hwrite, hr⟩ := Option.bind_eq_some_iff.1 hr
    have hsecond := writeWord_cr3 hfault hwrite
    split at hr <;>
    · rw [← Option.some.inj hr]
      exact hsecond.trans hfirst
  · split at hr
    · simp only [Option.bind_eq_some_iff, Option.some.injEq] at hr
      obtain ⟨⟨pte', s₂⟩, hread', s₃, hwrite, hr⟩ := hr
      rw [← hr]
      exact (writeWord_cr3 hfault hwrite).trans ((readWord_cr3 hfault hread').trans hfirst)
    · rw [← Option.some.inj hr]
      exact hfirst

theorem mmuMark_cr3 {paddr flag : Word} {r : Bool × State}
    (hr : mmuMark fault addr paddr flag s = some r) : r.2.cr3 = s.cr3 := by
  simp only [mmuMark, Option.bind_eq_bind] at hr
  obtain ⟨⟨pde, s₁⟩, hread, hr⟩ := Option.bind_eq_some_iff.1 hr
  have hfirst := readWord_cr3 hfault hread
  simp only at hr
  split at hr
  · obtain ⟨s₂, hwrite, hr⟩ := Option.bind_eq_some_iff.1 hr
    exact (markPte_cr3 hfault hr).trans ((writeWord_cr3 hfault hwrite).trans hfirst)
  · exact (markPte_cr3 hfault hr).trans hfirst

theorem mmuAlloc_cr3 {r : Word × State} (hr : mmuAlloc fault s = some r) : r.2.cr3 = s.cr3 := by
  unfold mmuAlloc at hr
  split at hr
  · have hread := readWord_cr3 hfault hr
    exact hread
  · rw [← Option.some.inj hr]

theorem mmuFree_cr3 {f : Word} (hr : mmuFree fault f s = some s') : s'.cr3 = s.cr3 := by
  simp only [mmuFree, Option.bind_eq_bind, Option.bind_eq_some_iff, Option.some.injEq] at hr
  obtain ⟨s₁, hwrite, hr⟩ := hr
  have hcr3 := writeWord_cr3 hfault hwrite
  rw [← hr]
  exact hcr3

theorem markPages_cr3 (n : Nat) {paddr flag : Word} {r : Bool × State}
    (hr : markPages fault n addr paddr flag s = some r) : r.2.cr3 = s.cr3 := by
  induction n generalizing s addr paddr with
  | zero =>
    rw [← Option.some.inj hr]
  | succ n ih =>
    simp only [markPages, Option.bind_eq_bind, Option.bind_eq_some_iff] at hr
    obtain ⟨⟨ok, s₁⟩, hmark, hr⟩ := hr
    have hfirst := mmuMark_cr3 hfault hmark
    simp only at hr
    split at hr
    · exact (ih hr).trans hfirst
    · rw [← Option.some.inj hr]
      exact hfirst

theorem mmuMmap_cr3 {mem size : Nat} {paddr flag : Word} {r : Bool × State}
    (hr : mmuMmap fault mem paddr size flag s = some r) : r.2.cr3 = s.cr3 := by
  unfold mmuMmap at hr
  split at hr
  · exact markPages_cr3 hfault _ hr
  · simp only [Option.bind_eq_bind, Option.bind_eq_some_iff] at hr
    obtain ⟨⟨ok, s₁⟩, hmark, hr⟩ := hr
    have hfirst := markPages_cr3 hfault _ hmark
    simp only at hr
    split at hr
    · exact absurd hr (by simp)
    · rw [← Option.some.inj hr]
      exact hfirst

theorem unmapPage_cr3 {flag : Word} (hr : unmapPage fault addr flag s = some s') :
    s'.cr3 = s.cr3 := by
  simp only [unmapPage, Option.bind_eq_bind, Option.bind_eq_some_iff] at hr
  obtain ⟨⟨entry, s₁⟩, hread, s₂, hwrite, hr⟩ := hr
  have hsecond := (writeWord_cr3 hfault hwrite).trans (readWord_cr3 hfault hread)
  simp only at hr
  split at hr
  · obtain ⟨s₃, hfree, hr⟩ := Option.bind_eq_some_iff.1 hr
    rw [← Option.some.inj hr]
    exact (mmuFree_cr3 hfault hfree).trans hsecond
  · rw [← Option.some.inj hr]
    exact hsecond

theorem unmapPages_cr3 (n : Nat) {flag : Word} (hr : unmapPages fault n addr flag s = some s') :
    s'.cr3 = s.cr3 := by
  induction n generalizing s addr with
  | zero => rw [← Option.some.inj hr]
  | succ n ih =>
    simp only [unmapPages, Option.bind_eq_bind, Option.bind_eq_some_iff] at hr
    obtain ⟨s₁, hunmap, hr⟩ := hr
    exact (ih hr).trans (unmapPage_cr3 hfault hunmap)

theorem mmuMunmap_cr3 {mem size : Nat} {flag : Word} {r : Bool × State}
    (hr : mmuMunmap fault mem size flag s = some r) : r.2.cr3 = s.cr3 := by
  simp only [mmuMunmap, Option.bind_eq_bind, Option.bind_eq_some_iff, Option.some.injEq] at hr
  obtain ⟨n, _, s₁, hunmap, hr⟩ := hr
  rw [← hr]
  exact unmapPages_cr3 hfault n hunmap

theorem mmuClonePagedir_cr3 {k : Kernel} {r : Word × State}
    (hr : mmuClonePagedir fault k s = some r) : r.2.cr3 = s.cr3 := by
  simp only [mmuClonePagedir, Option.bind_eq_bind, Option.bind_eq_some_iff] at hr
  obtain ⟨⟨pd, s₁⟩, halloc, hr⟩ := hr
  have hfirst := mmuAlloc_cr3 hfault halloc
  simp only at hr
  split at hr
  · rw [← Option.some.inj hr]
    exact hfirst
  · obtain ⟨⟨ok, s₂⟩, hmap, hr⟩ := Option.bind_eq_some_iff.1 hr
    have hsecond := (mmuMmap_cr3 hfault hmap).trans hfirst
    simp only at hr
    split at hr
    · simp only [Option.bind_eq_some_iff, Option.some.injEq] at hr
      obtain ⟨⟨place, s₃⟩, hzero, ⟨place', s₄⟩, hcopy, s₅, hself, ⟨ok', s₆⟩, hunmap, hr⟩ := hr
      rw [← hr]
      have hthird := (access_cr3 hfault hzero).trans hsecond
      have hfourth : s₄.cr3 = s.cr3 := (access_cr3 hfault hcopy).trans hthird
      have hfifth : s₅.cr3 = s.cr3 := (writeWord_cr3 hfault hself).trans hfourth
      exact (mmuMunmap_cr3 hfault hunmap).trans hfifth
    · obtain ⟨s₃, hfree, hr⟩ := Option.bind_eq_some_iff.1 hr
      rw [← Option.some.inj hr]
      exact (mmuFree_cr3 hfault hfree).trans hsecond

end Calls

/-- A call of `mmu_alloc` that returns in the directory of its caller. -/
def AllocKeepsCr3 (alloc : Fault → State → Option (Word × State)) : Prop :=
  ∀ fault s r, KeepsCr3 fault → alloc fault s = some r → r.2.cr3 = s.cr3

theorem allocKeepsCr3_fed : AllocKeepsCr3 mmuAllocFed := by
  intro fault s r hfault hr
  unfold mmuAllocFed at hr
  split at hr
  · exact mmuAlloc_cr3 hfault hr
  · exact absurd hr (by simp)

/-- The induction is on the depth: the accesses of `INT_0E` fault one level deeper. -/
theorem int0E_cr3 (k : Kernel) {alloc : Fault → State → Option (Word × State)}
    (halloc : AllocKeepsCr3 alloc) (depth code : Nat) : KeepsCr3 (int0E k alloc depth code) := by
  induction depth generalizing code with
  | zero =>
    intro addr s s' hr
    exact absurd hr (by simp [int0E])
  | succ depth ih =>
    intro addr s s' hr
    have hfault := ih 0
    unfold int0E at hr
    simp only [Option.bind_eq_bind] at hr
    split at hr
    · obtain ⟨⟨pte, s₁⟩, hread, hr⟩ := Option.bind_eq_some_iff.1 hr
      have hfirst := readWord_cr3 hfault hread
      simp only at hr
      split at hr
      · exact absurd hr (by simp)
      · simp only [Option.bind_eq_some_iff] at hr
        obtain ⟨⟨page, s₂⟩, hpage, ⟨pte', s₃⟩, hread', s₄, hwrite, ⟨place, s₅⟩, hzero, hr⟩ := hr
        have hsecond := (halloc _ _ _ hfault hpage).trans hfirst
        have hthird := (readWord_cr3 hfault hread').trans hsecond
        have hfourth := (writeWord_cr3 hfault hwrite).trans hthird
        have hfifth : s₅.cr3 = s.cr3 := (access_cr3 hfault hzero).trans hfourth
        simp only at hr
        split at hr
        · obtain ⟨⟨pde, s₆⟩, hpde, hr⟩ := Option.bind_eq_some_iff.1 hr
          rw [← Option.some.inj hr]
          exact (readWord_cr3 hfault hpde).trans hfifth
        · rw [← Option.some.inj hr]
          exact hfifth
    · exact absurd hr (by simp)

theorem pageFaultFed_cr3 (k : Kernel) (depth : Nat) : KeepsCr3 (pageFaultFed k depth) :=
  int0E_cr3 k allocKeepsCr3_fed depth 0

/-- A step of the memory manager that is no switch. -/
theorem Spaces.Step.cr3_kept {k : Kernel} {handler : Nat → Fault}
    (hhandler : ∀ depth, KeepsCr3 (handler depth)) {x y : Spaces} {op : Spaces.Op}
    (hstep : Spaces.Step k handler x op y) (hop : ∀ pd, op ≠ .switch pd) :
    y.state.cr3 = x.state.cr3 := by
  cases hstep with
  | mark hr => exact mmuMark_cr3 (hhandler _) hr
  | unmap hr => exact unmapPage_cr3 (hhandler _) hr
  | fault _ hr => exact hhandler _ _ _ _ hr
  | store _ => rfl
  | clone hr => exact mmuClonePagedir_cr3 (hhandler _) hr
  | switch _ => exact absurd rfl (hop _)

end OsdevCourse.Mmu
