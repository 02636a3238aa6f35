import OsdevCourse.MmuBootFrames

/-!
# Frames and boot modules

`mmu_init` leaves out the frames of the kernel image, so `mmu_alloc` never returns one of
them. It does not look at the modules of the boot information, which `kmain` maps and mounts
after it: a module is safe where the memory map lists none of its frames as usable.
-/

namespace OsdevCourse.Mmu

set_option autoImplicit false

/-- A `struct MULTIBOOT_BOOTINFO_MODULES`. -/
structure BootModule where
  start : Nat
  stop : Nat
  name : String

/-- The modules that `kmain` gives to `probe_initrd`. -/
def initrds (mods : List BootModule) : List BootModule :=
  mods.filter fun mod => mod.name == "initrd"

/-- The frame and the bytes from `lo` to below `hi` share a byte. -/
def Overlaps (f : Word) (lo hi : Nat) : Prop :=
  ∃ a, lo ≤ a ∧ a < hi ∧ f.toNat ≤ a ∧ a < f.toNat + 4096

/-- A frame `mmu_alloc` has returned before: a page brought in on demand under some directory, a
page table other than the boot table, or the directory of a process. -/
def HandedOut (k : Kernel) (x : Spaces) (f : Word) : Prop :=
  (∃ a addr, DemandPage k x a addr f) ∨ (∃ a d, TableFrame k x a d f ∧ f ≠ k.pt) ∨ f ∈ x.clones

section Frames
variable {k : Kernel} {L : Pool k} {x : Spaces} (h : Settled L x) {f : Word}
include h

theorem Settled.handedOut_mem (hf : HandedOut k x f) : f ∈ L.frames := by
  obtain ⟨role, hroles⟩ := h.roles
  rcases hf with ⟨a, addr, hpage⟩ | ⟨a, d, htable, hne⟩ | hclone
  · have hrole := (hroles.page_role hpage).1
    exact hroles.named.data f (by rw [hrole]; exact True.intro)
  · rcases h.tables a htable.dir d htable.below htable.present_pde with hboot | hmem
    · rw [htable.frame] at hboot
      exact absurd hboot hne
    · rw [htable.frame] at hmem
      exact hmem
  · exact (hroles.named.clone f hclone).2

/-- What `mmu_alloc` returns, unless the pool is empty, is the frame on top of the pool. -/
theorem Settled.alloc_mem {fault : Fault} {s' : State}
    (halloc : mmuAlloc fault x.state = some (f, s')) (hf : f ≠ 0#32) : f ∈ L.frames := by
  obtain ⟨role, hroles⟩ := h.roles
  cases Nat.eq_zero_or_pos x.state.framesIndex with
  | inl hempty =>
    rw [mmuAlloc_empty hempty, Option.some.injEq, Prod.mk.injEq] at halloc
    exact absurd halloc.1.symm hf
  | inr hpos =>
    rw [hroles.alloc_eq feeds_mmuAlloc hpos, Option.some.injEq, Prod.mk.injEq] at halloc
    rw [← halloc.1]
    exact hroles.top_mem hpos

end Frames

theorem PoolFrame.not_overlaps {k : Kernel} {f : Word} (h : PoolFrame k f) :
    ¬ Overlaps f 0x100000 k.kernelEnd := by
  intro hshared
  obtain ⟨a, _, hend, hlow, _⟩ := hshared
  have habove := h.aboveImage
  unfold Kernel.kend at habove
  omega

section Runs
variable {k : Kernel} {ram : Memory} {map : List Region} {depth : Nat} {s : State}

theorem boot_data_kept {mods : List BootModule} (hdistinct : (usableFrames k map).Nodup)
    (hinit : mmuInit k (pageFault k depth) map (bootState k ram) = some s)
    (hclear : ∀ mod ∈ initrds mods, ∀ f ∈ usableFrames k map, ¬ Overlaps f mod.start mod.stop)
    {x : Spaces}
    (hrun : Reachable
      (Guarded (Spaces.Step k (pageFaultFed k)) (Spaces.Allowed k fun _ => True))
      (Spaces.start k s) x)
    {f : Word}
    (hf : HandedOut k x f ∨
      ∃ depth s', mmuAlloc (pageFault k depth) x.state = some (f, s') ∧ f ≠ 0#32) :
    ¬ Overlaps f 0x100000 k.kernelEnd ∧
      ∀ mod ∈ initrds mods, ¬ Overlaps f mod.start mod.stop := by
  obtain ⟨ptIndex, hfilling, hlow⟩ := mmuInit_filling hdistinct hinit
  have hpool : ∀ g ∈ usableFrames k map, PoolFrame k g := usableFrames_poolFrame
  let L := hfilling.left hpool hdistinct hlow fun _ => True
  have hsettled : Settled L x := (reachable_settled hrun
    (hfilling.start_settled hdistinct hlow _ fun _ _ => True.intro)).1
  have hmem : f ∈ L.frames := by
    cases hf with
    | inl hout => exact hsettled.handedOut_mem hout
    | inr halloc =>
      obtain ⟨_, _, halloc, hne⟩ := halloc
      exact hsettled.alloc_mem halloc hne
  have hput : f ∈ usableFrames k map := L.put_of_mem hmem
  exact ⟨(hpool f hput).not_overlaps, fun mod hmod => hclear mod hmod f hput⟩

end Runs

/-- A module beyond the RAM of the small machine. -/
def apartModule : BootModule := ⟨0x10B000, 0x10C000, "initrd"⟩

/-- The directory of a process is active. -/
def activeClone : Spaces :=
  { (Spaces.start smallKernel smallStart).afterClone smallClone.1 smallClone.2 with
    state := smallClone.2.loadCr3 smallClone.1 }

/-- A page is mapped where it has no page table, and touched. -/
def activeMark : Bool × State :=
  (mmuMark (pageFaultFed smallKernel 4) 0x400000 0#32 mmuProtRw activeClone.state).get
    (by decide +kernel)

def activeFetched : State :=
  (pageFaultFed smallKernel 4 0x400004 activeMark.2).get (by decide +kernel)

def activePage : Spaces := { activeClone with state := activeFetched }

theorem activePage_reachable :
    Reachable (Guarded (Spaces.Step smallKernel (pageFaultFed smallKernel))
      (Spaces.Allowed smallKernel fun _ => True)) (Spaces.start smallKernel smallStart) activePage ∧
    smallClone.1 ∈ activePage.clones := by
  have hclone : mmuClonePagedir (pageFaultFed smallKernel 4) smallKernel smallStart =
      some smallClone :=
    (Option.some_get _).symm
  have hne : smallClone.1 ≠ 0#32 := by decide +kernel
  have hmem : smallClone.1 ∈
      ((Spaces.start smallKernel smallStart).afterClone smallClone.1 smallClone.2).clones := by
    unfold Spaces.afterClone
    rw [if_neg hne]
    exact List.mem_append_right _ (List.mem_singleton.2 rfl)
  have hmarked : mmuMark (pageFaultFed smallKernel 4) 0x400000 0#32 mmuProtRw activeClone.state =
      some activeMark := (Option.some_get _).symm
  have hmark : Spaces.Step smallKernel (pageFaultFed smallKernel) activeClone
      (.mark 0x400000 0#32 mmuProtRw) { activeClone with state := activeMark.2 } := by
    rw [← afterMark_demand activeClone 0x400000 activeMark
      (show mmuProtRw &&& mmuPageNoalloc = 0#32 from by decide)]
    exact .mark hmarked
  have hfault : Spaces.Step smallKernel (pageFaultFed smallKernel)
      { activeClone with state := activeMark.2 } (.fault 0x400004) activePage :=
    .fault (by decide +kernel) (Option.some_get _).symm
  have hallowed := small_allowed fun _ => True
  exact ⟨⟨[.clone, .switch smallClone.1, .mark 0x400000 0#32 mmuProtRw, .fault 0x400004],
    .cons ⟨True.intro, .clone hclone⟩ (.cons ⟨True.intro, .switch (List.mem_cons_of_mem _ hmem)⟩
      (.cons ⟨(hallowed _).1, hmark⟩ (.single ⟨(hallowed _).2, hfault⟩)))⟩, hmem⟩

/-- The process has the last frame of the RAM for its page. -/
theorem boot_data_kept_small : HandedOut smallKernel activePage 0x107000#32 ∧
    ¬ Overlaps 0x107000#32 0x100000 smallKernel.kernelEnd ∧
      ∀ mod ∈ initrds [apartModule], ¬ Overlaps 0x107000#32 mod.start mod.stop := by
  have hinit : smallInit [smallRam 4] = some smallStart := (Option.some_get _).symm
  obtain ⟨hrun, hmem⟩ := activePage_reachable
  have hout : HandedOut smallKernel activePage 0x107000#32 := by
    refine .inl ⟨smallClone.1, 0x400004, List.mem_cons_of_mem _ hmem, by decide, by decide +kernel,
      by decide +kernel, fun hfix => ?_, by decide +kernel⟩
    exact absurd hfix.1 (by decide +kernel)
  have hframes : usableFrames smallKernel [smallRam 4] =
      [0x107000#32, 0x108000#32, 0x109000#32, 0x10A000#32] := by decide +kernel
  have hclear : ∀ mod ∈ initrds [apartModule], ∀ f ∈ usableFrames smallKernel [smallRam 4],
      ¬ Overlaps f mod.start mod.stop := by
    intro mod hmod f hf hshared
    obtain ⟨a, hlow, _, _, hhigh⟩ := hshared
    have heq : mod = apartModule := List.mem_singleton.1 (List.mem_filter.1 hmod).1
    have hbelow : f.toNat + 4096 ≤ 0x10B000 := by
      rw [hframes] at hf
      simp only [List.mem_cons, List.not_mem_nil, or_false] at hf
      rcases hf with heq | heq | heq | heq <;> simp [heq]
    rw [heq] at hlow
    simp only [apartModule] at hlow
    omega
  exact ⟨hout, boot_data_kept (by decide +kernel) hinit hclear hrun (.inl hout)⟩

/-- A module in the RAM of the small machine. -/
def loadedModule : BootModule := ⟨0x107000, 0x10B000, "initrd"⟩

/-- The first frame that `mmu_alloc` returns is the module's last one. -/
theorem module_given_out : smallInit [smallRam 4] = some smallStart ∧
    loadedModule ∈ initrds [loadedModule] ∧
    ∃ s', mmuAlloc (pageFault smallKernel 4) smallStart = some (0x10A000#32, s') ∧
      Overlaps 0x10A000#32 loadedModule.start loadedModule.stop := by
  have hframe : (mmuAlloc (pageFault smallKernel 4) smallStart).map (fun r => r.1) =
      some 0x10A000#32 := by decide +kernel
  obtain ⟨r, hr, hword⟩ := Option.map_eq_some_iff.1 hframe
  refine ⟨(Option.some_get _).symm, ?_, r.2, ?_, 0x10A000, ?_⟩
  · simp [initrds, loadedModule]
  · rw [hr, ← hword]
  · simp [loadedModule]

end OsdevCourse.Mmu
