import OsdevCourse.MmuDirectory

/-!
# Runs of all processes, and running out of frames

The steps are the turns of the loops of `mmu_mmap` and `mmu_munmap`, the page faults, the calls
of `mmu_clone_pagedir`, the loads of a directory and the stores of the programs, in any order
and under any directory. `INT_0E` does not look whether `mmu_alloc` has got a frame: on an empty
pool it installs the frame at address zero, for every page that faults after that.
-/

namespace OsdevCourse.Mmu

set_option autoImplicit false

open PageEntry

namespace Spaces

inductive Op where
  | mark (addr : Nat) (paddr flag : Word)
  | unmap (addr : Nat) (flag : Word)
  | fault (addr : Nat)
  | store (addr : Nat) (w : Word)
  | clone
  | switch (pd : Word)

/-- One turn, call, page fault or store, with page faults handled by one of the handlers. -/
inductive Step (k : Kernel) (handler : Nat → Fault) : Spaces → Op → Spaces → Prop where
  | mark {x : Spaces} {depth addr : Nat} {paddr flag : Word} {r : Bool × State} :
      mmuMark (handler depth) addr paddr flag x.state = some r →
      Step k handler x (.mark addr paddr flag) (x.afterMark addr flag r)
  | unmap {x : Spaces} {depth addr : Nat} {flag : Word} {s : State} :
      unmapPage (handler depth) addr flag x.state = some s →
      Step k handler x (.unmap addr flag) (x.afterUnmap addr s)
  | fault {x : Spaces} {depth addr : Nat} {s : State} :
      translate x.state addr = none → handler depth addr x.state = some s →
      Step k handler x (.fault addr) { x with state := s }
  | store {x : Spaces} {addr : Nat} {w : Word} {place : Word × Nat} :
      translate x.state addr = some place →
      Step k handler x (.store addr w) { x with state := x.state.set place.1 place.2 w }
  | clone {x : Spaces} {depth : Nat} {pd : Word} {s : State} :
      mmuClonePagedir (handler depth) k x.state = some (pd, s) →
      Step k handler x .clone (x.afterClone pd s)
  | switch {x : Spaces} {pd : Word} :
      pd ∈ x.dirs k → Step k handler x (.switch pd) { x with state := x.state.loadCr3 pd }

/-- The page lies below the pool array and is not the image's. -/
def Below (k : Kernel) (addr : Nat) : Prop :=
  addr / 4096 < pageLimit ∧ ¬ imagePage k (addr / 4096)

/-- The page table of an address in a directory. -/
def tableOf (s : State) (a : Word) (addr : Nat) : Word := frameOf (s.mem a (mmuPdIndex addr))

/-- A page is mapped without allocation to a frame of those allowed, only pages that are not
are released, and programs store to such pages. -/
def Allowed (k : Kernel) (outside : Word → Prop) (x : Spaces) : Op → Prop
  | .mark addr paddr flag =>
    Below k addr ∧ (flag &&& mmuPageNoalloc ≠ 0#32 → IsFrame paddr ∧ outside paddr)
  | .unmap addr flag =>
    Below k addr ∧ (flag &&& mmuMunmapNorelease = 0#32 →
      ∀ t i, slot x.state addr = some (t, i) → ¬ x.fixed t i)
  | .fault addr => addr < 2 ^ 32
  | .store addr _ =>
    Below k addr ∧ ¬ x.fixed (tableOf x.state x.state.cr3 addr) (mmuPtIndex addr)
  | .clone => True
  | .switch _ => True

/-- After `mmu_init` the image is mapped, and nothing else below the pool array. -/
def start (k : Kernel) (s : State) : Spaces where
  state := s
  clones := []
  fixed := fun t i => t = k.pt ∧ i < 1024 ∧ present (s.mem k.pt i) = true

theorem pdIndex_below {k : Kernel} {addr : Nat} (h : Below k addr) : mmuPdIndex addr < 1022 := by
  have hp := h.1
  have haddr : addr < 2 ^ 32 := by
    unfold pageLimit mmuFramepoolVma at hp
    omega
  rw [mmuPdIndex_eq haddr]
  exact pageLimit_div hp

end Spaces

/-! ### A step keeps the roles -/

theorem Roles.stored_role {k : Kernel} {L : Pool k} {role : Word → Role} {x : Spaces}
    (h : Roles L role x) {addr : Nat} (hd : mmuPdIndex addr < 1022)
    (hdemand : ¬ x.fixed (Spaces.tableOf x.state x.state.cr3 addr) (mmuPtIndex addr))
    {place : Word × Nat} (hplace : translate x.state addr = some place) :
    role place.1 = .page (Spaces.tableOf x.state x.state.cr3 addr) (mmuPtIndex addr) := by
  have hcr3 := h.dirsOk.cr3
  unfold translate at hplace
  simp only at hplace
  split at hplace
  · rename_i hpde
    split at hplace
    · rename_i hpte
      rw [← Option.some.inj hplace]
      exact h.tables.pages _ _ (h.table_role hcr3 hd hpde) (mmuPtIndex_lt _) hpte hdemand
    · exact absurd hplace (by simp)
  · exact absurd hplace (by simp)

theorem Spaces.Step.roles {k : Kernel} {L : Pool k} {x y : Spaces} {op : Spaces.Op}
    (hstep : Spaces.Step k (pageFaultFed k) x op y) (hallowed : Spaces.Allowed k L.outside x op)
    {role : Word → Role} (h : Roles L role x) : ∃ role', Roles L role' y := by
  cases hstep with
  | mark hr =>
    obtain ⟨hbelow, hfixed⟩ := hallowed
    exact h.mmuMark_roles (Spaces.pdIndex_below hbelow) hfixed hr
  | unmap hr =>
    obtain ⟨hbelow, hrelease⟩ := hallowed
    exact h.unmapPage_roles (Spaces.pdIndex_below hbelow) hrelease hr
  | fault hunmapped hr => exact h.fault_roles hunmapped hr
  | store hplace =>
    obtain ⟨hbelow, hdemand⟩ := hallowed
    have hrole := h.stored_role (Spaces.pdIndex_below hbelow) hdemand hplace
    refine ⟨role, h.write (by rw [hrole]; exact True.intro) ?_ rfl rfl⟩
    intro g hg j
    exact set_mem_frame _ _ _ _ hg j
  | clone hr => exact h.clone_roles hr
  | switch hpd => exact ⟨role, h.switch hpd⟩

theorem reachable_roles {k : Kernel} {L : Pool k} {x y : Spaces}
    (hrun : Reachable
      (Guarded (Spaces.Step k (pageFaultFed k)) (Spaces.Allowed k L.outside)) x y)
    (h : ∃ role, Roles L role x) : ∃ role, Roles L role y :=
  hrun.invariant (fun z => ∃ role, Roles L role z)
    (fun _ _ _ hroles hstep => hroles.elim fun _ h => hstep.2.roles hstep.1 h) h

/-! ### The roles after `mmu_init` -/

/-- What `mmu_init` has made of a frame. -/
inductive FirstRole (k : Kernel) (s : State) (f : Word) : Role → Prop where
  | pd : f = k.pd → FirstRole k s f .directory
  | pt : f = k.pt → FirstRole k s f (.table k.pd 960)
  | poolPt : f = k.framepoolPt → FirstRole k s f .poolTable
  | backing {j : Nat} : j < 1024 → present (s.mem k.framepoolPt j) = true → f = poolPage k s j →
      FirstRole k s f (.backing j)
  | pool {i : Nat} : i < s.framesIndex → f = poolWord k s i → FirstRole k s f (.pool i)
  | foreign : f ∉ [k.pd, k.pt, k.framepoolPt] → (∀ j < 1024,
      present (s.mem k.framepoolPt j) = true → f ≠ poolPage k s j) →
      (∀ i < s.framesIndex, f ≠ poolWord k s i) → FirstRole k s f .foreign

theorem exists_firstRole (k : Kernel) (s : State) (f : Word) : ∃ r, FirstRole k s f r := by
  by_cases hpd : f = k.pd
  · exact ⟨_, .pd hpd⟩
  by_cases hpt : f = k.pt
  · exact ⟨_, .pt hpt⟩
  by_cases hpoolPt : f = k.framepoolPt
  · exact ⟨_, .poolPt hpoolPt⟩
  by_cases hback : ∃ j < 1024, present (s.mem k.framepoolPt j) = true ∧ f = poolPage k s j
  · obtain ⟨j, hj, hpresent, heq⟩ := hback
    exact ⟨_, .backing hj hpresent heq⟩
  by_cases hslot : ∃ i < s.framesIndex, f = poolWord k s i
  · obtain ⟨i, hi, heq⟩ := hslot
    exact ⟨_, .pool hi heq⟩
  refine ⟨_, .foreign (by simp [hpd, hpt, hpoolPt]) ?_ ?_⟩
  · intro j hj hpresent heq
    exact hback ⟨j, hj, hpresent, heq⟩
  · intro i hi heq
    exact hslot ⟨i, hi, heq⟩

theorem FirstRole.isTable {k : Kernel} {s : State} {f : Word} {r : Role} (h : FirstRole k s f r)
    (ht : r.IsTable) : f = k.pt := by
  cases h with
  | pt heq => exact heq
  | _ => exact ht.elim

theorem FirstRole.isData {k : Kernel} {s : State} {f : Word} {r : Role} (h : FirstRole k s f r)
    (hdata : r.IsData) : ∃ i < s.framesIndex, f = poolWord k s i := by
  cases h with
  | pool hi heq => exact ⟨_, hi, heq⟩
  | _ => exact hdata.elim

namespace Filling
variable {k : Kernel} {pushed : List Word} {ptIndex : Nat} {s : State}
  (h : Filling k pushed ptIndex s) (hframes : ∀ f ∈ pushed, PoolFrame k f) (hnodup : pushed.Nodup)
include h hframes hnodup

theorem firstRole_unique {f : Word} {r q : Role} (hr : FirstRole k s f r) (hq : FirstRole k s f q) :
    r = q := by
  have hpage : ∀ j, present (s.mem k.framepoolPt j) = true →
      poolPage k s j ∉ [k.pd, k.pt, k.framepoolPt] :=
    fun j hj => h.poolPage_ne hframes (h.slot_present.1 hj)
  have hword : ∀ i < s.framesIndex, poolWord k s i ∉ [k.pd, k.pt, k.framepoolPt] := by
    intro i hi hmem
    apply ne_static hframes (h.poolWord_mem hi)
    simp only [List.mem_cons, List.not_mem_nil, or_false] at hmem
    unfold Kernel.statics
    rcases hmem with heq | heq | heq <;> rw [heq] <;> simp
  have hapart : ∀ i < s.framesIndex, ∀ j, present (s.mem k.framepoolPt j) = true →
      poolWord k s i ≠ poolPage k s j :=
    fun i hi j hj => h.poolWord_ne_poolPage hframes hnodup hi (h.slot_present.1 hj)
  have hstatic := k.pd_ne_pt
  have hstatic' := k.pd_ne_framepoolPt
  have hstatic'' := k.pt_ne_framepoolPt
  cases hr with
  | pd heq =>
    subst heq
    cases hq with
    | pd _ => rfl
    | pt heq' => exact absurd heq' hstatic
    | poolPt heq' => exact absurd heq' hstatic'
    | backing _ hj heq' => exact absurd (by simp [heq'.symm]) (hpage _ hj)
    | pool hi heq' => exact absurd (by simp [heq'.symm]) (hword _ hi)
    | foreign hnot => exact absurd (by simp) hnot
  | pt heq =>
    subst heq
    cases hq with
    | pd heq' => exact absurd heq'.symm hstatic
    | pt _ => rfl
    | poolPt heq' => exact absurd heq' hstatic''
    | backing _ hj heq' => exact absurd (by simp [heq'.symm]) (hpage _ hj)
    | pool hi heq' => exact absurd (by simp [heq'.symm]) (hword _ hi)
    | foreign hnot => exact absurd (by simp) hnot
  | poolPt heq =>
    subst heq
    cases hq with
    | pd heq' => exact absurd heq'.symm hstatic'
    | pt heq' => exact absurd heq'.symm hstatic''
    | poolPt _ => rfl
    | backing _ hj heq' => exact absurd (by simp [heq'.symm]) (hpage _ hj)
    | pool hi heq' => exact absurd (by simp [heq'.symm]) (hword _ hi)
    | foreign hnot => exact absurd (by simp) hnot
  | backing hlt hj heq =>
    subst heq
    cases hq with
    | pd heq' => exact absurd (by simp [heq']) (hpage _ hj)
    | pt heq' => exact absurd (by simp [heq']) (hpage _ hj)
    | poolPt heq' => exact absurd (by simp [heq']) (hpage _ hj)
    | backing _ hj' heq' =>
      rw [h.poolPage_inj hframes hnodup (h.slot_present.1 hj) (h.slot_present.1 hj') heq']
    | pool hi heq' => exact absurd heq'.symm (hapart _ hi _ hj)
    | foreign _ hback => exact absurd rfl (hback _ hlt hj)
  | pool hi heq =>
    subst heq
    cases hq with
    | pd heq' => exact absurd (by simp [heq']) (hword _ hi)
    | pt heq' => exact absurd (by simp [heq']) (hword _ hi)
    | poolPt heq' => exact absurd (by simp [heq']) (hword _ hi)
    | backing _ hj heq' => exact absurd heq' (hapart _ hi _ hj)
    | pool hi' heq' => rw [h.poolWord_inj hnodup hi hi' heq']
    | foreign _ _ hslot => exact absurd rfl (hslot _ hi)
  | foreign hnot hback hslot =>
    cases hq with
    | pd heq => exact absurd (by simp [heq]) hnot
    | pt heq => exact absurd (by simp [heq]) hnot
    | poolPt heq => exact absurd (by simp [heq]) hnot
    | backing hlt hj heq => exact absurd heq (hback _ hlt hj)
    | pool hi heq => exact absurd heq (hslot _ hi)
    | foreign _ _ _ => rfl

theorem start_roles (hlow : 1024 * ptIndex ≤ s.framesIndex) (outside : Word → Prop)
    (himage : ∀ f : Word, f.toNat < k.kernelEnd → outside f) :
    ∃ role, Roles (h.left hframes hnodup hlow outside) role (Spaces.start k s) := by
  obtain ⟨role, hrole⟩ := Classical.axiomOfChoice (exists_firstRole k s)
  have hfirst : ∀ {f r}, FirstRole k s f r → role f = r :=
    fun hr => h.firstRole_unique hframes hnodup (hrole _) hr
  have htable : ∀ t, (role t).IsTable → t = k.pt := fun t ht => (hrole t).isTable ht
  have hdirs : ∀ a, a ∈ (Spaces.start k s).dirs k ↔ a = k.pd := fun a => List.mem_singleton
  refine ⟨role, ⟨?_, ?_, ?_, ?_, ?_, ?_⟩, ⟨?_, ?_, ?_, ?_, ?_, ?_, ?_⟩, ⟨?_, ?_⟩, ⟨?_, ?_, ?_⟩⟩
  · exact hfirst (.pd rfl)
  · exact hfirst (.pt rfl)
  · exact hfirst (.poolPt rfl)
  · intro j hj hpresent
    exact hfirst (.backing hj hpresent rfl)
  · intro f hdata
    obtain ⟨i, hi, heq⟩ := (hrole f).isData hdata
    rw [heq]
    exact List.mem_map_of_mem (List.mem_range.2 hi)
  · intro c hc
    exact absurd hc List.not_mem_nil
  · exact (hdirs _).2 h.cr3
  · intro c hc
    exact absurd hc List.not_mem_nil
  · exact ⟨k.pd, (hdirs _).2 rfl, h.directory 1023⟩
  · intro a ha
    rw [(hdirs a).1 ha]
    exact h.directory 1022
  · intro a ha d hd
    rw [(hdirs a).1 ha]
    cases hcase : present ((Spaces.start k s).state.mem k.pd d) with
    | true => exact .inl rfl
    | false =>
      right
      refine (h.directory d).trans ?_
      have hne : d ≠ 960 := by
        intro heq
        rw [heq] at hcase
        rw [show (Spaces.start k s).state.mem k.pd 960 = k.pt + 3#32 from h.directory 960,
          present_static k.isFrame_pt] at hcase
        exact Bool.noConfusion hcase
      unfold initPde
      rw [if_neg (by omega), if_neg (by omega), if_neg hne]
  · intro a ha d hd hpresent
    rw [(hdirs a).1 ha] at hpresent ⊢
    have hcases := h.pde_present hpresent
    have heq : d = 960 := by omega
    have hframe : frameOf ((Spaces.start k s).state.mem k.pd 960) = k.pt :=
      (congrArg frameOf (h.directory 960)).trans (frameOf_static k.isFrame_pt)
    rw [heq, hframe]
    exact hfirst (.pt rfl)
  · intro hne
    exact absurd rfl hne
  · intro j
    rfl
  · intro i hi
    exact hfirst (.pool hi rfl)
  · intro t i ht hi hpresent hfree
    have heq := htable t ht
    rw [heq] at hpresent hfree
    exact absurd ⟨rfl, hi, hpresent⟩ hfree
  · intro t i hfix
    obtain ⟨heq, hi, hpresent⟩ := hfix
    rw [heq]
    refine ⟨?_, hi, hpresent, ?_⟩
    · rw [hfirst (.pt rfl)]
      exact True.intro
    · apply himage
      rw [show (Spaces.start k s).state.mem k.pt i = initPte k i from h.bootTable i]
      rw [h.bootTable i] at hpresent
      exact initPte_frame hpresent
  · intro t i ht hi _
    rw [htable t ht, show (Spaces.start k s).state.mem k.pt i = initPte k i from h.bootTable i]
    exact initPte_not_ondemand k i

end Filling

end OsdevCourse.Mmu
