import OsdevCourse.MmuStepEffects

/-!
# The recursive slots

Entry 1023 of a directory shows its own page tables. `INT_0E` copies the entry of the faulting
address from the active directory to `MMU_PD`, and the address of a page table belongs to entry
1023: a page table that is made under a clone takes the slot of `MMU_PD` to the clone.
-/

namespace OsdevCourse.Mmu

set_option autoImplicit false

open PageEntry

/-- Entry 1023 of every directory refers to the directory itself. -/
def SelfSlots (k : Kernel) (x : Spaces) : Prop :=
  ∀ a ∈ x.dirs k, present (x.state.mem a 1023) = true ∧ frameOf (x.state.mem a 1023) = a

/-- No page table is made under a clone. -/
def TablesUnderPd (k : Kernel) (x : Spaces) : Spaces.Op → Prop
  | .mark addr _ _ => x.state.cr3 = k.pd ∨ present
    (x.state.mem x.state.cr3 (mmuPdIndex addr)) = true
  | _ => True

/-- What a step leaves in the slot of `MMU_PD`. -/
def slotAfter (k : Kernel) (x : Spaces) : Spaces.Op → Word
  | .mark addr _ _ =>
    if present (x.state.mem (shown x.state) (mmuPdIndex addr)) = true then x.state.mem k.pd 1023
    else shown x.state + 3#32
  | .clone =>
    if x.state.framesIndex = 0 ∨ present (x.state.mem (shown x.state) 959) = true then
      x.state.mem k.pd 1023
    else shown x.state + 3#32
  | _ => x.state.mem k.pd 1023

namespace Roles
variable {k : Kernel} {L : Pool k} {role : Word → Role} {x : Spaces} (h : Roles L role x)
include h

/-- The slots of the clones never change. -/
theorem selfSlots_iff : SelfSlots k x ↔ x.state.mem k.pd 1023 = k.pd + 3#32 := by
  constructor
  · intro hself
    obtain ⟨dir, hdir, heq⟩ := h.dirsOk.kernelSelf
    have hframe := (hself k.pd (List.mem_cons_self ..)).2
    rw [heq, frameOf_static (h.named.isFrame_dir hdir)] at hframe
    rw [heq, hframe]
  · intro hpd a ha
    have hslot : x.state.mem a 1023 = a + 3#32 := by
      rcases List.mem_cons.1 ha with rfl | hclone
      · exact hpd
      · exact h.dirsOk.cloneSelf a hclone
    rw [hslot]
    exact ⟨present_static (h.named.isFrame_dir ha), frameOf_static (h.named.isFrame_dir ha)⟩

theorem shown_active (hself : SelfSlots k x) : shown x.state = x.state.cr3 :=
  (hself _ h.dirsOk.cr3).2

theorem withTable_slot {addr : Nat} (hd : mmuPdIndex addr < 1022) (htable : HasTable x.state addr) :
    (withTable k addr x.state).mem k.pd 1023 =
      if present (x.state.mem (shown x.state) (mmuPdIndex addr)) = true then x.state.mem k.pd 1023
      else shown x.state + 3#32 := by
  rw [h.withTable_mem hd htable,
    if_neg (show ¬ (k.pd = shown x.state ∧ 1023 = mmuPdIndex addr) by omega),
    if_pos (show k.pd = k.pd ∧ 1023 = 1023 from ⟨rfl, rfl⟩)]

theorem slot_after {op : Spaces.Op} (hready : x.Ready op)
    (hallowed : Spaces.Allowed k L.outside x op) :
    (x.after k op).state.mem k.pd 1023 = slotAfter k x op := by
  have hpd : k.pd ∈ x.dirs k := List.mem_cons_self ..
  cases op with
  | mark addr paddr flag =>
    have hd := Spaces.pdIndex_below hallowed.1
    obtain ⟨role', htabled⟩ := h.withTable_tabled hd hready
    have ht := htabled.roles.table_role htabled.mem_dirs hd htabled.present_pde
    have hne := htabled.roles.table_ne_dir hpd ht
    exact (marked_mem_frame hne.symm _).trans (h.withTable_slot hd hready)
  | unmap addr flag =>
    have hd := Spaces.pdIndex_below hallowed.1
    have ht := h.table_role h.shown_mem hd hready
    have hne := h.table_ne_dir hpd ht
    have hkept : ¬ (Releases flag (x.state.mem (windowTable x.state addr) (mmuPtIndex addr)) ∧
        k.pd = poolPage k x.state (x.state.framesIndex / 1024) ∧
        1023 = x.state.framesIndex % 1024) := by
      rintro ⟨hreleases, hpage, -⟩
      have hrole := h.poolPage_role (h.released hd hready hallowed.2 hreleases).2
      rw [← hpage, h.named.pd] at hrole
      exact Role.noConfusion hrole
    refine (h.unmapAt_mem hd hready flag k.pd 1023).trans ?_
    rw [if_neg hkept]
    exact if_neg fun hand => hne hand.1.symm
  | fault addr =>
    obtain ⟨hpos, hd, hpresent, _⟩ := hready
    have hne := h.table_ne_dir hpd (h.table_role h.shown_mem hd hpresent)
    refine (putInto_mem k _ addr _ _ k.pd 1023).trans ?_
    rw [if_neg (by omega), if_neg (h.top_ne_dir hpos hpd).symm, if_neg fun hand => hne hand.1.symm]
    rfl
  | store addr w =>
    obtain ⟨place, hplace⟩ := hready
    obtain ⟨hbelow, hdemand⟩ := hallowed
    have hrole := h.stored_role (Spaces.pdIndex_below hbelow) hdemand hplace
    simp only [Spaces.after, storeAt, hplace]
    apply set_mem_frame
    intro heq
    rw [← heq, h.named.pd] at hrole
    exact Role.noConfusion hrole
  | switch pd => rfl
  | clone =>
    by_cases hempty : x.state.framesIndex = 0
    · simp only [Spaces.after, cloneAt, Spaces.afterClone, slotAfter, hempty, true_or, if_true]
    · have hpos : 0 < x.state.framesIndex := by omega
      have htable := hready hpos
      obtain ⟨hpopped, hloose, role', htabled⟩ := h.popped_tabled hpos htable
      have hslot := hpopped.withTable_slot (by decide) htable
      have hrole : role' (top k x.state) = .loose :=
        (htabled.kept _ (by rw [hloose]; simp)).trans hloose
      simp only [slotAfter, hempty, false_or]
      refine Eq.trans ?_ hslot
      simp only [Spaces.after, cloneAt, if_neg hempty, Spaces.afterClone]
      split
      · exact htabled.roles.freed_dir hrole hpd _
      · have ht := htabled.roles.table_role htabled.mem_dirs (by decide) htabled.present_pde
        have hne := htabled.roles.table_ne_dir hpd ht
        have hfne := h.top_ne_dir hpos hpd
        have htf : frameOf ((withTable k kaddrClondpd
            { x.state with framesIndex := x.state.framesIndex - 1 }).mem (shown x.state) 959) ≠
              top k x.state := by
          intro heq
          have hcase := ht
          rw [show mmuPdIndex kaddrClondpd = 959 from rfl, heq, hrole] at hcase
          exact hcase
        rw [cloned_mem htf hfne.symm hne.symm, if_neg fun hand => hne hand.1.symm, if_neg hfne.symm]

end Roles

/-- A step keeps the slots exactly when it makes no page table under a clone. -/
theorem Spaces.Step.selfSlots_iff {k : Kernel} {L : Pool k} {x y : Spaces} {op : Spaces.Op}
    (hstep : Spaces.Step k (pageFaultFed k) x op y) (hallowed : Spaces.Allowed k L.outside x op)
    {role : Word → Role} (h : Roles L role x) (hself : SelfSlots k x) :
    SelfSlots k y ↔ TablesUnderPd k x op := by
  obtain ⟨role', h'⟩ := hstep.roles hallowed h
  obtain ⟨hready, rfl⟩ := hstep.effect hallowed h
  have hslot := h.selfSlots_iff.1 hself
  have hshown := h.shown_active hself
  have hpd : k.pd + 3#32 = k.pd + 3#32 := rfl
  rw [h'.selfSlots_iff, h.slot_after hready hallowed]
  cases op with
  | mark addr paddr flag =>
    simp only [slotAfter, TablesUnderPd, hshown, hslot]
    split
    · rename_i hpresent
      exact iff_of_true hpd (.inr hpresent)
    · rename_i habsent
      rw [or_iff_left habsent]
      constructor
      · exact (BitVec.add_left_inj _).1
      · intro heq
        rw [heq]
  | clone =>
    simp only [slotAfter, hshown, hslot]
    refine iff_of_true ?_ True.intro
    split
    · exact hpd
    · rename_i hmissing
      -- all directories have the table of the window, once there is a clone
      rcases List.mem_cons.1 h.dirsOk.cr3 with heq | hclone
      · rw [heq]
      · obtain ⟨hpresent, hall⟩ := h.dirsOk.clondpd (List.ne_nil_of_mem hclone)
        rw [← hall _ hclone] at hpresent
        exact absurd (.inr hpresent) hmissing
  | unmap addr flag => exact iff_of_true hslot True.intro
  | fault addr => exact iff_of_true hslot True.intro
  | store addr w => exact iff_of_true hslot True.intro
  | switch pd => exact iff_of_true hslot True.intro

section Runs
variable {k : Kernel} {ram : Memory} {map : List Region} {depth : Nat} {s : State}

/-- The slots stay what they are in every run that makes its page tables under `MMU_PD`, and a step
that makes one under a clone breaks them. -/
theorem self_slots_kept_iff (hdistinct : (usableFrames k map).Nodup)
    (hinit : mmuInit k (pageFault k depth) map (bootState k ram) = some s) {x : Spaces}
    (hrun : Reachable (Guarded (Spaces.Step k (pageFaultFed k)) fun x op =>
      Spaces.Allowed k (fun _ => True) x op ∧ TablesUnderPd k x op) (Spaces.start k s) x) :
    SelfSlots k x ∧ ∀ op y, Spaces.Allowed k (fun _ => True) x op →
      Spaces.Step k (pageFaultFed k) x op y → (SelfSlots k y ↔ TablesUnderPd k x op) := by
  obtain ⟨ptIndex, hfilling, hlow⟩ := mmuInit_filling hdistinct hinit
  obtain ⟨role, hroles⟩ := hfilling.start_roles usableFrames_poolFrame hdistinct hlow
    (fun _ => True)
    fun _ _ => True.intro
  have hslot : (Spaces.start k s).state.mem k.pd 1023 = k.pd + 3#32 := hfilling.directory 1023
  obtain ⟨⟨role', hroles'⟩, hself⟩ := hrun.invariant
    (fun z =>
      (∃ role, Roles (hfilling.left usableFrames_poolFrame hdistinct hlow fun _ => True) role z) ∧
      SelfSlots k z)
    (by
      rintro z op z' ⟨⟨role, h⟩, hself⟩ ⟨⟨hallowed, hunder⟩, hstep⟩
      exact ⟨hstep.roles hallowed h, (hstep.selfSlots_iff hallowed h hself).2 hunder⟩)
    ⟨⟨role, hroles⟩, hroles.selfSlots_iff.2 hslot⟩
  exact ⟨hself, fun op y hallowed hstep => hstep.selfSlots_iff hallowed hroles' hself⟩

end Runs

/-! ### The small machine -/

/-- A page is mapped and touched under `MMU_PD`, and the directory is cloned. -/
def touchedClone : Word × State :=
  (mmuClonePagedir (pageFaultFed smallKernel 4) smallKernel smallSpaces.state).get
    (by decide +kernel)

def touchedSpaces : Spaces := smallSpaces.afterClone touchedClone.1 touchedClone.2

theorem self_slots_kept_iff_small : touchedSpaces.clones = [0x108000#32] ∧
    SelfSlots smallKernel touchedSpaces ∧
    ∀ op y, Spaces.Allowed smallKernel (fun _ => True) touchedSpaces op →
      Spaces.Step smallKernel (pageFaultFed smallKernel) touchedSpaces op y →
        (SelfSlots smallKernel y ↔ TablesUnderPd smallKernel touchedSpaces op) := by
  have hinit : smallInit [smallRam 4] = some smallStart := (Option.some_get _).symm
  have hclone : mmuClonePagedir (pageFaultFed smallKernel 4) smallKernel smallSpaces.state =
      some touchedClone := (Option.some_get _).symm
  have hallowed := small_allowed fun _ => True
  have hpd : (Spaces.start smallKernel smallStart).state.cr3 = smallKernel.pd := by decide +kernel
  refine ⟨by decide +kernel, self_slots_kept_iff (by decide +kernel) hinit
    ⟨[.mark 0x400000 0#32 mmuProtRw, .fault 0x400004, .clone],
      .cons ⟨⟨(hallowed _).1, .inl hpd⟩, step_smallMark⟩
        (.cons ⟨⟨(hallowed _).2, True.intro⟩, step_smallFetched⟩
          (.single ⟨⟨True.intro, True.intro⟩, .clone hclone⟩))⟩⟩

/-- A process maps a page where it has no page table. -/
def forkedClone : Word × State :=
  (mmuClonePagedir (pageFault smallKernel 4) smallKernel smallStart).get (by decide +kernel)

def forkedSpaces : Spaces :=
  (Spaces.start smallKernel smallStart).afterClone forkedClone.1
    (forkedClone.2)

def forkedMark : Bool × State :=
  (mmuMark (pageFault smallKernel 4) 0x400000 0#32 mmuProtRw
    (forkedClone.2.loadCr3 forkedClone.1)).get (by decide +kernel)

/-- The slot of `MMU_PD` then refers to the directory of the process. -/
theorem pd_shows_clone : ¬ ∀ (k : Kernel) (ram : Memory) (map : List Region)
    (depth : Nat) (s : State),
    (usableFrames k map).Nodup → mmuInit k (pageFault k depth) map (bootState k ram) = some s →
    ∀ x, Reachable (Guarded (Spaces.Step k (pageFault k)) (Spaces.Allowed k fun _ => True))
      (Spaces.start k s) x → SelfSlots k x := by
  intro hclaim
  have hinit : smallInit [smallRam 4] = some smallStart := (Option.some_get _).symm
  have hclone : mmuClonePagedir (pageFault smallKernel 4) smallKernel smallStart =
      some forkedClone :=
    (Option.some_get _).symm
  have hne : forkedClone.1 ≠ 0#32 := by decide +kernel
  have hdirs : forkedClone.1 ∈ forkedSpaces.dirs smallKernel := by
    unfold forkedSpaces Spaces.afterClone
    rw [if_neg hne]
    exact List.mem_cons_of_mem _ (List.mem_append_right _ (List.mem_singleton.2 rfl))
  have hmarked : mmuMark (pageFault smallKernel 4) 0x400000 0#32 mmuProtRw
      (forkedClone.2.loadCr3 forkedClone.1) = some forkedMark := (Option.some_get _).symm
  have hmark : Spaces.Step smallKernel (pageFault smallKernel)
      { forkedSpaces with state := forkedClone.2.loadCr3 forkedClone.1 }
      (.mark 0x400000 0#32 mmuProtRw)
      { forkedSpaces with state := forkedMark.2 } := by
    rw [← afterMark_demand { forkedSpaces with state := forkedClone.2.loadCr3 forkedClone.1 }
      0x400000
      forkedMark (by decide : mmuProtRw &&& mmuPageNoalloc = 0#32)]
    exact .mark hmarked
  have hself := hclaim _ _ _ _ _ (by decide +kernel) hinit _
    ⟨[.clone, .switch forkedClone.1, .mark 0x400000 0#32 mmuProtRw],
      .cons ⟨True.intro, .clone hclone⟩ (.cons ⟨True.intro, .switch hdirs⟩
        (.single ⟨demand_allowed ⟨by decide, by simp [imagePage, smallKernel]⟩, hmark⟩))⟩
  have hslot := (hself smallKernel.pd (List.mem_cons_self ..)).2
  exact absurd hslot (by decide +kernel)

end OsdevCourse.Mmu
