import OsdevCourse.MmuSpaces

/-!
# A directory is cloned under any directory

All directories share the page table of the window for a new directory: the first clone makes
it, and the clones copy it. So the window is reached under whichever directory is active, also
where the recursive windows show another one.
-/

namespace OsdevCourse.Mmu

set_option autoImplicit false

open PageEntry

namespace Roles
variable {k : Kernel} {L : Pool k} {role : Word → Role} {x : Spaces} (h : Roles L role x)
include h

theorem clondpd_same {a b : Word} (ha : a ∈ x.dirs k) (hb : b ∈ x.dirs k) :
    x.state.mem a 959 = x.state.mem b 959 := by
  have hpd : ∀ c ∈ x.dirs k, x.state.mem c 959 = x.state.mem k.pd 959 := by
    intro c hc
    cases List.mem_cons.1 hc with
    | inl heq => rw [heq]
    | inr hclone => exact (h.dirsOk.clondpd (List.ne_nil_of_mem hclone)).2 c hclone
  exact (hpd a ha).trans (hpd b hb).symm

/-- What `mmu_clone_pagedir` writes through the window makes a directory of the frame. -/
theorem cloned_roles {dir : Word} (hdir : dir ∈ x.dirs k)
    (hpde : present (x.state.mem dir 959) = true)
    {t : Word} (htable : frameOf (x.state.mem dir 959) = t)
    (habsent : present (x.state.mem t 1023) = false) {f : Word} (hloose : role f = .loose) :
    Roles L (Function.update role f .directory)
      { x with state := cloned k t f x.state, clones := x.clones ++ [f] } := by
  have hdata : (role f).IsData := by
    rw [hloose]
    exact True.intro
  have hf := h.named.data f hdata
  have ht : (role t).IsTable := by
    rw [← htable]
    exact h.table_role hdir (by omega) hpde
  have htf : t ≠ f := by
    intro heq
    rw [heq, hloose] at ht
    exact ht
  have hpd : k.pd ∈ x.dirs k := List.mem_cons_self ..
  have hpdf : k.pd ≠ f := (L.ne_pd hf).symm
  have hpdt : k.pd ≠ t := (h.table_ne_dir hpd ht).symm
  have hmem := cloned_mem (s := x.state) htf hpdf hpdt
  -- The frame is written, the entry of the window is cleared, and the frame gets its role.
  let s₁ : State := { x.state with mem := fun g j =>
    if g = f then (cloned k t f x.state).mem f j else x.state.mem g j }
  have hwritten : Roles L role { x with state := s₁ } :=
    h.write hdata (fun g hg j => if_neg hg) rfl rfl
  have hstored : ∀ g j, (cloned k t f x.state).mem g j =
      if g = t ∧ j = 1023 then 0#32 else s₁.mem g j := by
    intro g j
    simp only [s₁]
    rw [hmem]
    cases Classical.em (g = t ∧ j = 1023) with
    | inl hand => rw [if_pos hand, if_pos hand]
    | inr hne =>
      rw [if_neg hne, if_neg hne]
      cases Classical.em (g = f) with
      | inl heq =>
        have hft : ¬ (f = t ∧ j = 1023) := fun hand => htf hand.1.symm
        rw [if_pos heq, if_pos heq, hmem, if_neg hft, if_pos rfl]
      | inr hgf => rw [if_neg hgf, if_neg hgf]
  have hunmapped : Roles L role { x with state := cloned k t f x.state } := by
    refine hwritten.setPte ht (by omega) hstored rfl rfl (fun _ _ _ => Iff.rfl) ?_ ?_ ?_
    · intro hzero
      exact Bool.noConfusion (not_present_zero.symm.trans hzero)
    · intro hfix
      have hold := (h.tables.fixedPages _ _ hfix).2.2.1
      rw [habsent] at hold
      exact Bool.noConfusion hold
    · intro hzero
      exact Bool.noConfusion (not_present_zero.symm.trans hzero)
  have hcast : Roles L (Function.update role f .directory)
      { x with state := cloned k t f x.state } := by
    refine hunmapped.recast hdata (by rw [hloose]; simp) ?_ ?_
    · intro u j hpage
      rw [hloose] at hpage
      exact Role.noConfusion hpage
    · exact fun hcase => hcase.elim
  have hdirectory : ∀ d, (cloned k t f x.state).mem f d =
      if d = 1023 then f + 3#32 else if 512 ≤ d ∧ d < 1024 then x.state.mem k.pd d else 0#32 := by
    intro d
    rw [hmem, if_neg fun hand => htf hand.1.symm, if_pos rfl]
  have hkernel : ∀ d, (cloned k t f x.state).mem k.pd d = x.state.mem k.pd d := by
    intro d
    rw [hmem, if_neg fun hand => hpdt hand.1, if_neg hpdf]
  refine hcast.addClone (Function.update_self ..) hf ?_ ?_ ?_ ?_
  · intro d hd
    simp only [hdirectory, if_neg (show d ≠ 1023 by omega),
      if_neg (show ¬ (512 ≤ d ∧ d < 1024) by omega)]
  · intro d hlow hhigh
    simp only [hdirectory, hkernel, if_neg (show d ≠ 1023 by omega),
      if_pos (show 512 ≤ d ∧ d < 1024 by omega)]
  · simp only [hdirectory, if_true]
  · simp only [hkernel]
    rw [h.clondpd_same hpd hdir]
    exact hpde

theorem returned_roles {f : Word} (hloose : role f = .loose) (fault : Fault) :
    mmuFree fault f x.state = some (freed k f x.state) ∧
      ∃ role', Roles L role' { x with state := freed k f x.state } := by
  have hdata : (role f).IsData := by
    rw [hloose]
    exact True.intro
  have hlt := h.framesIndex_lt (h.named.data f hdata) (by rw [hloose]; simp)
  have hstored := mmuFree_eq fault (Nat.lt_of_lt_of_le hlt L.length_le) h.active_pool
    (h.pool_present hlt) f
  exact ⟨hstored, _, h.push hloose (fun _ _ => rfl) rfl rfl⟩

theorem freed_mem_other {f : Word} (hloose : role f = .loose) {g : Word}
    (hg : ∀ b, role g ≠ .backing b) (j : Nat) : (freed k f x.state).mem g j = x.state.mem g j := by
  have hdata : (role f).IsData := by
    rw [hloose]
    exact True.intro
  have hlt := h.framesIndex_lt (h.named.data f hdata) (by rw [hloose]; simp)
  apply set_mem_frame
  rintro rfl
  exact hg _ (h.poolPage_role hlt)

theorem freed_dir {f : Word} (hloose : role f = .loose) {a : Word} (ha : a ∈ x.dirs k) (j : Nat) :
    (freed k f x.state).mem a j = x.state.mem a j := by
  apply h.freed_mem_other hloose
  intro b
  rw [h.named.dir ha]
  exact Role.noConfusion

end Roles

/-- The history after `mmu_clone_pagedir` has returned `pd`. -/
def Spaces.afterClone (x : Spaces) (pd : Word) (s : State) : Spaces :=
  { x with state := s, clones := if pd = 0#32 then x.clones else x.clones ++ [pd] }

namespace Roles
variable {k : Kernel} {L : Pool k} {role : Word → Role} {x : Spaces} (h : Roles L role x)
include h

/-- `mmu_clone_pagedir` once `mmu_mark` has a page table for the window: it returns the frame
where the window was free, and gives it back where not. -/
theorem clone_tabled {f : Word} (hloose : role f = .loose) {dir : Word} {role' : Word → Role}
    {s : State} (htabled : Tabled L x kaddrClondpd dir role role' s) {fault : Fault} {s₀ : State}
    (halloc : mmuAlloc fault s₀ = some (f, x.state))
    (hmark : mmuMark fault kaddrClondpd f mmuPageNoalloc x.state =
      some (marked (frameOf (s.mem dir 959)) 1023 kaddrClondpd f mmuPageNoalloc s)) :
    ∃ pd s', mmuClonePagedir fault k s₀ = some (pd, s') ∧
      (∃ role', Roles L role' (x.afterClone pd s')) ∧
      (present (s.mem (frameOf (s.mem dir 959)) 1023) = false →
        pd = f ∧ s' = cloned k (frameOf (s.mem dir 959)) f s) ∧
      (present (s.mem (frameOf (s.mem dir 959)) 1023) = true → pd = 0#32 ∧ s' = freed k f s) := by
  have hroles := htabled.roles
  have hdir := htabled.mem_dirs
  have hpde : present (s.mem dir 959) = true := htabled.present_pde
  have hrole : role' f = .loose := by
    rw [htabled.kept f (by rw [hloose]; simp)]
    exact hloose
  have hf : f ∈ L.frames := by
    apply h.named.data
    rw [hloose]
    exact True.intro
  have hne := L.ne_zero hf
  rw [mmuClonePagedir_of_mark halloc hne hmark]
  generalize htable : frameOf (s.mem dir 959) = t
  cases habsent : present (s.mem t 1023) with
  | true =>
    rw [marked_refused habsent (by decide)]
    obtain ⟨hfree, hreturned⟩ := hroles.returned_roles hrole fault
    refine ⟨0#32, freed k f s, ?_, ?_, fun hfalse => Bool.noConfusion hfalse, fun _ => ⟨rfl, rfl⟩⟩
    · simp only [Bool.false_eq_true, if_false, hfree, Option.bind_some]
    · unfold Spaces.afterClone
      rw [if_pos rfl]
      exact hreturned
  | false =>
    have ht : (role' t).IsTable := by
      rw [← htable]
      exact hroles.table_role hdir (by omega) hpde
    have hfdir : ∀ a ∈ x.dirs k, f ≠ a := by
      intro a ha heq
      have hdirectory := hroles.named.dir ha
      rw [← heq, hrole] at hdirectory
      exact Role.noConfusion hdirectory
    have htf : t ≠ f := by
      intro heq
      rw [heq, hrole] at ht
      exact ht
    have hcr3 := hroles.dirsOk.cr3
    have hclone := Recursive.fillWindow_eq (k := k) fault htabled.recursive
      (L.isFrame f hf) hpde htable
      (hroles.clondpd_same hcr3 hdir) (hroles.table_ne_dir hdir ht) (hroles.table_ne_dir hcr3 ht)
      (hfdir _ hdir) (hfdir _ hcr3) htf
    rw [marked_fixed habsent (by decide)]
    refine ⟨f, cloned k t f s, ?_, ?_, fun _ => ⟨rfl, rfl⟩, fun htrue => Bool.noConfusion htrue⟩
    · simp only [if_true]
      exact hclone
    · unfold Spaces.afterClone
      rw [if_neg hne]
      exact ⟨_, hroles.cloned_roles hdir hpde htable habsent hrole⟩

theorem clone_roles {depth : Nat} {pd : Word} {s' : State}
    (hr : mmuClonePagedir (pageFaultFed k depth) k x.state = some (pd, s')) :
    ∃ role', Roles L role' (x.afterClone pd s') := by
  cases Nat.eq_zero_or_pos x.state.framesIndex with
  | inl hempty =>
    unfold mmuClonePagedir at hr
    simp only [mmuAlloc_empty hempty, Option.bind_eq_bind, Option.bind_some, if_true,
      Option.some.injEq, Prod.mk.injEq] at hr
    obtain ⟨hpd, hs⟩ := hr
    unfold Spaces.afterClone
    rw [← hpd, ← hs, if_pos rfl]
    exact ⟨role, h⟩
  | inr hpos =>
    have halloc := h.alloc_eq feeds_mmuAlloc hpos (pageFaultFed k depth)
    have hpopped : Roles L (Function.update role (top k x.state) .loose)
        { x with state := { x.state with framesIndex := x.state.framesIndex - 1 } } := h.pop hpos
    have hloose : Function.update role (top k x.state) Role.loose (top k x.state) = .loose :=
      Function.update_self ..
    have hne := L.ne_zero (h.top_mem hpos)
    cases hmark : mmuMark (pageFaultFed k depth) kaddrClondpd (top k x.state) mmuPageNoalloc
        { x.state with framesIndex := x.state.framesIndex - 1 } with
    | none =>
      have hcount : pageCount 4096 = some 1 := rfl
      unfold mmuClonePagedir at hr
      rw [halloc] at hr
      simp only [Option.bind_eq_bind, Option.bind_some, if_neg hne, mmuMmap, hcount, markPages,
        hmark, Option.bind_none] at hr
      exact absurd hr (by simp)
    | some r =>
      obtain ⟨dir, role', s, htabled, heq⟩ := hpopped.mmuMark_tabled (by decide) hmark
      rw [heq] at hmark
      obtain ⟨pd', s'', hclone, hroles, _⟩ :=
        hpopped.clone_tabled hloose htabled halloc hmark
      rw [hr] at hclone
      obtain ⟨hpd, hs⟩ := Prod.mk.inj (Option.some.inj hclone)
      rw [hpd, hs]
      exact hroles

end Roles

end OsdevCourse.Mmu
