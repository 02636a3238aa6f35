import OsdevCourse.MmuFrames

/-!
# One kernel half for all directories

A directory copies the kernel half of `MMU_PD` when it is cloned. All directories stay alike
there as long as `mmu_mmap` finds the page tables of its ranges: a table that `mmu_mark`
makes is known to the active directory alone, and the fault that brings it in copies the
entry of the recursive window to `MMU_PD`, not the entry of the table.
-/

namespace OsdevCourse.Mmu

set_option autoImplicit false

open PageEntry

def directories (k : Kernel) (m : Machine) : List Word := k.pd :: m.clones

/-- All directories refer to the same page tables in the kernel half, and an address there
leads to the same place under any of them. -/
def OneKernelHalf (k : Kernel) (m : Machine) : Prop :=
  ∀ a ∈ directories k m, ∀ b ∈ directories k m, ∀ addr : Nat,
    512 ≤ mmuPdIndex addr → mmuPdIndex addr < 1023 →
      m.state.mem a (mmuPdIndex addr) = m.state.mem b (mmuPdIndex addr) ∧
        translate { m.state with cr3 := a } addr = translate { m.state with cr3 := b } addr

theorem translate_congr {s : State} {a b : Word} {addr : Nat}
    (h : s.mem a (mmuPdIndex addr) = s.mem b (mmuPdIndex addr)) :
    translate { s with cr3 := a } addr = translate { s with cr3 := b } addr := by
  unfold translate
  simp only [h]

theorem Inv.oneKernelHalf {k : Kernel} {L : Pool k} {m : Machine} (h : Inv L m) :
    OneKernelHalf k m := by
  have hpd : ∀ a ∈ directories k m, ∀ d, 512 ≤ d → d < 1023 →
      m.state.mem a d = pde k m.state d := by
    intro a ha d hlow hhigh
    cases List.mem_cons.1 ha with
    | inl heq => rw [heq]; rfl
    | inr hclone => exact h.cloneKernel a hclone d hlow hhigh
  intro a ha b hb addr hlow hhigh
  have hentry := (hpd a ha _ hlow hhigh).trans (hpd b hb _ hlow hhigh).symm
  exact ⟨hentry, translate_congr hentry⟩

section Runs
variable {k : Kernel} {ram : Memory} {map : List Region} {depth : Nat} {s : State}

theorem kernel_half_shared (hdistinct : (usableFrames k map).Nodup)
    (hinit : mmuInit k (pageFault k depth) map (bootState k ram) = some s) {m : Machine}
    (hrun : Reachable (Guarded (Step k) (Allowed k fun _ => True)) (afterInit k s) m) :
    OneKernelHalf k m := by
  obtain ⟨ptIndex, hfilling, hlow⟩ := mmuInit_filling hdistinct hinit
  have hpool : ∀ f ∈ usableFrames k map, PoolFrame k f := usableFrames_poolFrame
  have hready := reachable_ready hrun (hfilling.ready hpool hdistinct hlow _ fun _ _ => True.intro)
  exact hready.inv.oneKernelHalf

end Runs

theorem smallStart_clones :
    (mmuClonePagedir (pageFaultFed smallKernel 4) smallKernel smallStart).isSome = true := by
  decide +kernel

/-- The state and directory after `mmu_clone_pagedir` in the small machine. -/
def smallClone : Word × State :=
  (mmuClonePagedir (pageFaultFed smallKernel 4) smallKernel smallStart).get smallStart_clones

def smallProcess : Machine :=
  (afterInit smallKernel smallStart).afterClone smallClone.1 smallClone.2

theorem step_smallProcess :
    Step smallKernel (afterInit smallKernel smallStart) .clone smallProcess :=
  .clone ((Option.some_get _).symm :
    mmuClonePagedir (pageFaultFed smallKernel 4) smallKernel smallStart = some smallClone)

theorem smallProcess_clones : smallProcess.clones = [smallClone.1] := by decide +kernel

/-- The clone is loaded. -/
def smallSwitched : Machine := { smallProcess with state := smallClone.2.loadCr3 smallClone.1 }

/-- `mmu_mmap` of a page next to the window of `mmu_clone_pagedir`, under the clone. -/
def smallShared : Bool × State :=
  (mmuMmap (pageFaultFed smallKernel 4) 0xEFC00000 0#32 4096 mmuProtRw smallSwitched.state).get
    (by decide +kernel)

def smallMarked : Machine :=
  { smallSwitched with
    state := smallShared.2
    uses := mmapUses (pageFaultFed smallKernel 4) (pages 4096) 0xEFC00000 0#32 mmuProtRw
      smallSwitched.state smallSwitched.uses }

/-- The page is touched. -/
def smallFaulted : Machine :=
  { smallMarked with
    state := (pageFaultFed smallKernel 4 0xEFC00000 smallMarked.state).get (by decide +kernel) }

theorem kernel_half_shared_small :
    smallFaulted.clones = [smallClone.1] ∧ OneKernelHalf smallKernel smallFaulted := by
  have hinit : smallInit [smallRam 4] = some smallStart := (Option.some_get _).symm
  have hswitch : Step smallKernel smallProcess (.switch smallClone.1) smallSwitched :=
    .switch (.inr (by rw [smallProcess_clones]; exact List.mem_singleton.2 rfl))
  have hmap : Step smallKernel smallSwitched (.mmap 0xEFC00000 0#32 4096 mmuProtRw) smallMarked :=
    .mmap ((Option.some_get _).symm : mmuMmap (pageFaultFed smallKernel 4) 0xEFC00000 0#32 4096
      mmuProtRw smallSwitched.state = some smallShared)
  have hfault : Step smallKernel smallMarked (.fault 0xEFC00000) smallFaulted :=
    .fault (by decide +kernel) (Option.some_get _).symm
  have hpages : ∀ i < pages 4096, i = 0 := by
    intro i hi
    unfold pages at hi
    omega
  have hallowed : Allowed smallKernel (fun _ => True) smallSwitched
      (.mmap 0xEFC00000 0#32 4096 mmuProtRw) := by
    refine ⟨⟨by decide, ?_⟩, ?_, .inr ?_⟩
    · intro i hi
      rw [hpages i hi]
      simp [imagePage]
    · intro i hi
      rw [hpages i hi]
      exact ⟨fun _ => by decide +kernel, fun hflag => absurd (by decide) hflag⟩
    · intro i hi
      rw [hpages i hi]
      decide +kernel
  refine ⟨smallProcess_clones, kernel_half_shared (by decide +kernel) hinit
    ⟨[.clone, .switch _, .mmap _ _ _ _, .fault _], .cons ⟨True.intro, step_smallProcess⟩
      (.cons ⟨True.intro, hswitch⟩ (.cons ⟨hallowed, hmap⟩
        (.cons ⟨by simp [Allowed], hfault⟩ (.nil _))))⟩⟩

/-- `mmu_mmap` of a page whose table does not exist, under `MMU_PD` after the clone. -/
def smallSplit : Bool × State :=
  (mmuMmap (pageFaultFed smallKernel 4) 0xD0000000 0#32 4096 mmuProtRw smallClone.2).get
    (by decide +kernel)

theorem kernel_half_split :
    ∃ m : Machine, smallInit [smallRam 4] = some smallStart ∧
      Reachable (Step smallKernel) (afterInit smallKernel smallStart) m ∧
      ¬ OneKernelHalf smallKernel m := by
  have hmapped : mmuMmap (pageFaultFed smallKernel 4) 0xD0000000 0#32 4096 mmuProtRw smallClone.2 =
      some smallSplit := (Option.some_get _).symm
  refine ⟨_, (Option.some_get _).symm, ⟨[.clone, .mmap _ _ _ _],
    .cons step_smallProcess (.cons (.mmap hmapped) (.nil _))⟩, ?_⟩
  intro h
  have hclone : smallClone.1 ∈ smallProcess.clones := by
    rw [smallProcess_clones]
    exact List.mem_singleton.2 rfl
  have hentry := (h smallKernel.pd (List.mem_cons_self ..) smallClone.1
    (List.mem_cons_of_mem _ hclone) 0xD0000000
    (by decide) (by decide)).1
  exact absurd hentry (by decide +kernel)

end OsdevCourse.Mmu
