import OsdevCourse.MmuExhaustion
import OsdevCourse.MmuClone

/-!
# What `mmu_clone_pagedir` returns

A frame of the pool, filled in as a directory, and nothing else has changed. It is mapped nowhere
else where no frame of the pool is mapped without allocation: a boot module within the usable RAM
is mapped so by `probe_initrd`, and its frames are in the pool all the same.
-/

namespace OsdevCourse.Mmu

set_option autoImplicit false

open PageEntry

/-- The frame `p` was on top of the pool and is now a directory, with the kernel half of `MMU_PD`
and mapped nowhere; the pool, the translations and the active directory are kept. -/
structure FreshDirectory (k : Kernel) (x : Spaces) (p : Word) (s : State) : Prop where
  popped : p = top k x.state
  cr3 : s.cr3 = x.state.cr3
  user : ∀ d < 512, s.mem p d = 0#32
  kernel : ∀ d, 512 ≤ d → d < 1023 → s.mem p d = s.mem k.pd d
  self : s.mem p 1023 = p + 3#32
  index : s.framesIndex +
    (if present (x.state.mem x.state.cr3 (mmuPdIndex kaddrClondpd)) then 1 else 2) =
      x.state.framesIndex
  slots : ∀ i < s.framesIndex, poolWord k s i = poolWord k x.state i
  unmapped : ∀ a ∈ x.dirs k, ∀ addr, addr / 4096 = kaddrClondpd / 4096 →
    translate { s with cr3 := a } addr = none
  kept : ∀ a ∈ x.dirs k, ∀ addr < mmuPtVma, addr / 4096 ≠ kaddrClondpd / 4096 →
    translate { s with cr3 := a } addr = translate { x.state with cr3 := a } addr
  elsewhere : ∀ a ∈ x.dirs k, ∀ addr j, translate { s with cr3 := a } addr ≠ some (p, j)

theorem translate_eq {s : State} {a : Word} {addr : Nat} :
    translate { s with cr3 := a } addr =
      if present (s.mem a (mmuPdIndex addr)) then
        if present (s.mem (Spaces.tableOf s a addr) (mmuPtIndex addr)) then
          some (frameOf (s.mem (Spaces.tableOf s a addr) (mmuPtIndex addr)), addr % 4096 / 4)
        else none
      else none := rfl

namespace Roles
variable {k : Kernel} {L : Pool k} {role : Word → Role} {x : Spaces} (h : Roles L role x)
include h

/-- The table that an address below the windows is translated through is a page table or the
table of the pool array. -/
theorem tableOf_role {a : Word} (ha : a ∈ x.dirs k) {addr : Nat} (hd : mmuPdIndex addr < 1023)
    (hpresent : present (x.state.mem a (mmuPdIndex addr)) = true) :
    role (Spaces.tableOf x.state a addr) =
        .table (owner k a (mmuPdIndex addr)) (mmuPdIndex addr) ∧ mmuPdIndex addr < 1022 ∨
      Spaces.tableOf x.state a addr = k.framepoolPt ∧ mmuPdIndex addr = 1022 := by
  cases Nat.lt_or_ge (mmuPdIndex addr) 1022 with
  | inl hlow => exact .inl ⟨h.dirsOk.tables a ha _ hlow hpresent, hlow⟩
  | inr hhigh =>
    have heq : mmuPdIndex addr = 1022 := by omega
    refine .inr ⟨?_, heq⟩
    unfold Spaces.tableOf
    rw [heq, h.dirsOk.poolEntry a ha]
    exact frameOf_static k.isFrame_framepoolPt

theorem last_dir {b : Word} (hb : b ∈ x.dirs k) : frameOf (x.state.mem b 1023) ∈ x.dirs k := by
  cases List.mem_cons.1 hb with
  | inl heq =>
    obtain ⟨c, hc, hself⟩ := h.dirsOk.kernelSelf
    rw [heq, hself, frameOf_static (h.named.isFrame_dir hc)]
    exact hc
  | inr hclone =>
    rw [h.dirsOk.cloneSelf b hclone, frameOf_static (h.named.isFrame_dir hb)]
    exact hb

theorem tableOf_ne_idle {f : Word} (hidle : (role f).IsIdle) {a : Word} (ha : a ∈ x.dirs k)
    {addr : Nat} (hpresent : present (x.state.mem a (mmuPdIndex addr)) = true) :
    Spaces.tableOf x.state a addr ≠ f := by
  have hlt := mmuPdIndex_lt addr
  intro heq
  rw [← heq] at hidle
  cases Nat.lt_or_ge (mmuPdIndex addr) 1023 with
  | inl hlow =>
    cases h.tableOf_role ha hlow hpresent with
    | inl htable =>
      rw [htable.1] at hidle
      exact hidle
    | inr hpt =>
      rw [hpt.1, h.named.poolPt] at hidle
      exact hidle
  | inr hhigh =>
    have hself : mmuPdIndex addr = 1023 := by omega
    unfold Spaces.tableOf at hidle
    rw [hself, h.named.dir (h.last_dir ha)] at hidle
    exact hidle

theorem idle_unmapped (hout : ∀ f ∈ L.frames, ¬ L.outside f) {f : Word} (hidle : (role f).IsIdle)
    {a : Word} (ha : a ∈ x.dirs k) {addr : Nat}
    (hpde : present (x.state.mem a (mmuPdIndex addr)) = true)
    (hpte : present (x.state.mem (Spaces.tableOf x.state a addr) (mmuPtIndex addr)) = true) :
    frameOf (x.state.mem (Spaces.tableOf x.state a addr) (mmuPtIndex addr)) ≠ f := by
  have hi := mmuPtIndex_lt addr
  have hlt := mmuPdIndex_lt addr
  have hf := h.named.data f hidle.isData
  have hother : ∀ r, ¬ r.IsIdle → ∀ g, role g = r → g ≠ f := by
    intro r hr g hg heq
    rw [← heq, hg] at hidle
    exact hr hidle
  have hpool : ∀ j < 1024, present (x.state.mem k.framepoolPt j) = true →
      frameOf (x.state.mem k.framepoolPt j) ≠ f := by
    intro j hj hpresent
    rw [h.slots.poolTable] at hpresent ⊢
    exact hother (.backing j) id _ (h.named.backing j hj hpresent)
  have hdir : ∀ b ∈ x.dirs k, ∀ j < 1023, present (x.state.mem b j) = true →
      frameOf (x.state.mem b j) ≠ f := by
    intro b hb j hj hpresent
    cases Nat.lt_or_ge j 1022 with
    | inl hlow => exact hother (.table _ _) id _ (h.dirsOk.tables b hb j hlow hpresent)
    | inr hhigh =>
      have hj' : j = 1022 := by omega
      rw [hj', h.dirsOk.poolEntry b hb, frameOf_static k.isFrame_framepoolPt]
      exact hother .poolTable id _ h.named.poolPt
  cases Nat.lt_or_ge (mmuPdIndex addr) 1023 with
  | inl hlow =>
    cases h.tableOf_role ha hlow hpde with
    | inr hpt =>
      rw [hpt.1] at hpte ⊢
      exact hpool _ hi hpte
    | inl htable =>
      have ht : (role (Spaces.tableOf x.state a addr)).IsTable := by
        rw [htable.1]
        exact True.intro
      cases Classical.em (x.fixed (Spaces.tableOf x.state a addr) (mmuPtIndex addr)) with
      | inl hfix =>
        intro heq
        have houtside := (h.tables.fixedPages _ _ hfix).2.2.2
        rw [heq] at houtside
        exact hout f hf houtside
      | inr hfree => exact hother (.page _ _) id _ (h.tables.pages _ _ ht hi hpte hfree)
  | inr hhigh =>
    have hself : mmuPdIndex addr = 1023 := by omega
    have hc := h.last_dir ha
    unfold Spaces.tableOf at hpte ⊢
    rw [hself] at hpte ⊢
    cases Nat.lt_or_ge (mmuPtIndex addr) 1023 with
    | inl hentry => exact hdir _ hc _ hentry hpte
    | inr hown =>
      have hindex : mmuPtIndex addr = 1023 := by omega
      rw [hindex]
      exact hother .directory id _ (h.named.dir (h.last_dir hc))

end Roles

/-! ### What a page table that is made leaves -/

theorem mmuPdIndex_low {addr : Nat} (h : addr < mmuPtVma) : mmuPdIndex addr < 1023 := by
  unfold mmuPtVma at h
  unfold mmuPdIndex
  omega

section Table
variable {k : Kernel} {L : Pool k} {role role' : Word → Role} {x : Spaces} (h : Roles L role x)
  {addr : Nat} {dir : Word} {s : State} (htabled : Roles.Tabled L x addr dir role role' s)
include htabled

theorem Roles.Tabled.index : s.framesIndex +
    (if present (x.state.mem dir (mmuPdIndex addr)) then 0 else 1) = x.state.framesIndex := by
  cases htabled.cases with
  | inl hsame =>
    have hpresent := htabled.present_pde
    rw [hsame] at hpresent ⊢
    rw [if_pos hpresent]
    rfl
  | inr hmade =>
    obtain ⟨hzero, hpos, hs⟩ := hmade
    rw [hs, Roles.madeTable_framesIndex, hzero, if_neg (by decide)]
    omega

include h
variable (hd : mmuPdIndex addr < 1022)
include hd

/-- A new page table changes its frame and the directories only. -/
theorem Roles.Tabled.mem_other {g : Word} (hdir : g ∉ x.dirs k)
    (htop : role g ≠ .pool (x.state.framesIndex - 1)) (j : Nat) : s.mem g j = x.state.mem g j := by
  cases htabled.cases with
  | inl hsame => rw [hsame]
  | inr hmade =>
    obtain ⟨_, hpos, hs⟩ := hmade
    have hne : g ≠ dir := fun heq => hdir (heq ▸ htabled.mem_dirs)
    have hpd : g ≠ k.pd := fun heq => hdir (heq ▸ List.mem_cons_self ..)
    have hgtop : g ≠ top k x.state := by
      intro heq
      rw [heq] at htop
      exact htop (h.top_role hpos)
    rw [hs, h.madeTable_mem htabled.mem_dirs htabled.last hd hpos, if_neg fun hand => hne hand.1,
      if_neg fun hand => hpd hand.1, if_neg hgtop]

theorem Roles.Tabled.entry {a : Word} (ha : a ∈ x.dirs k) {d : Nat} (hlow : d < 1023) :
    s.mem a d = x.state.mem a d ∨
      x.state.mem a d = 0#32 ∧ ∀ j, s.mem (frameOf (s.mem a d)) j = 0#32 := by
  cases htabled.cases with
  | inl hsame => rw [hsame]; exact .inl rfl
  | inr hmade =>
    obtain ⟨hzero, hpos, hs⟩ := hmade
    have hmem := h.madeTable_mem htabled.mem_dirs htabled.last hd hpos
    have hne := h.top_ne_dir hpos ha
    cases Classical.em (a = dir ∧ d = mmuPdIndex addr) with
    | inl hand =>
      right
      have hframe : frameOf (tableEntry (top k x.state)) = top k x.state :=
        frameOf_installed _ (L.isFrame _ (h.top_mem hpos))
      refine ⟨by rw [hand.1, hand.2]; exact hzero, ?_⟩
      intro j
      rw [hs, hmem a d, if_pos hand, hframe, hmem,
        if_neg fun hand' => h.top_ne_dir hpos htabled.mem_dirs hand'.1,
        if_neg fun hand' => h.top_ne_dir hpos (List.mem_cons_self ..) hand'.1, if_pos rfl]
    | inr hother =>
      left
      rw [hs, hmem, if_neg hother, if_neg (by omega), if_neg hne.symm]

theorem Roles.Tabled.translate_kept {a : Word} (ha : a ∈ x.dirs k) {addr' : Nat}
    (hlow : addr' < mmuPtVma) :
    translate { s with cr3 := a } addr' = translate { x.state with cr3 := a } addr' := by
  have hlt := mmuPdIndex_low hlow
  rw [translate_eq, translate_eq]
  cases htabled.entry h hd ha hlt with
  | inr hnew =>
    obtain ⟨hzero, htable⟩ := hnew
    unfold Spaces.tableOf
    rw [hzero, htable]
    simp only [not_present_zero, Bool.false_eq_true, if_false, ite_self]
  | inl hsame =>
    unfold Spaces.tableOf
    rw [hsame]
    cases hpresent : present (x.state.mem a (mmuPdIndex addr')) with
    | false => rfl
    | true =>
      have hkept : ∀ j, s.mem (frameOf (x.state.mem a (mmuPdIndex addr'))) j =
          x.state.mem (frameOf (x.state.mem a (mmuPdIndex addr'))) j := by
        cases h.tableOf_role ha hlt hpresent with
        | inl htable =>
          have hrole : role (frameOf (x.state.mem a (mmuPdIndex addr'))) = _ := htable.1
          refine htabled.mem_other h hd ?_ (by rw [hrole]; simp)
          intro hdir
          rw [h.named.dir hdir] at hrole
          exact Role.noConfusion hrole
        | inr hpt =>
          have heq : frameOf (x.state.mem a (mmuPdIndex addr')) = k.framepoolPt := hpt.1
          rw [heq]
          refine htabled.mem_other h hd ?_ (by rw [h.named.poolPt]; simp)
          intro hdir
          have hrole := h.named.dir hdir
          rw [h.named.poolPt] at hrole
          exact Role.noConfusion hrole
      rw [hkept]

theorem Roles.Tabled.slots_kept {i : Nat} (hi : i < s.framesIndex) :
    poolWord k s i = poolWord k x.state i := by
  have hindex := htabled.index
  have hkept : ∀ g, ¬ (role g = .directory ∨ role g = .pool (x.state.framesIndex - 1)) →
      ∀ j, s.mem g j = x.state.mem g j := by
    intro g hg
    refine htabled.mem_other h hd ?_ fun hpool => hg (.inr hpool)
    intro hdir
    exact hg (.inl (h.named.dir hdir))
  exact h.slots_kept (fun r => r = .directory ∨ r = .pool (x.state.framesIndex - 1)) (by simp)
    (by simp) hkept (by omega)

/-- The window of `mmu_clone_pagedir` is mapped where the page table has its entry. -/
theorem Roles.Tabled.window_free (hwindow : addr = kaddrClondpd) :
    translate x.state kaddrClondpd = none ↔
      present (s.mem (frameOf (s.mem dir 959)) 1023) = false := by
  have hdir := htabled.mem_dirs
  have hcr3 : x.state.mem x.state.cr3 959 = x.state.mem dir 959 :=
    h.clondpd_same h.dirsOk.cr3 hdir
  have hkept : translate { s with cr3 := dir } kaddrClondpd = translate x.state kaddrClondpd :=
    (htabled.translate_kept h hd hdir (by decide)).trans (translate_congr hcr3).symm
  have hpde : present (s.mem dir (mmuPdIndex kaddrClondpd)) = true := by
    rw [← hwindow]
    exact htabled.present_pde
  have htable : Spaces.tableOf s dir kaddrClondpd = frameOf (s.mem dir 959) := rfl
  have hindex : mmuPtIndex kaddrClondpd = 1023 := rfl
  rw [← hkept, translate_eq, if_pos hpde, htable, hindex]
  cases present (s.mem (frameOf (s.mem dir 959)) 1023) with
  | true => simp
  | false => simp

end Table

/-! ### What the window leaves -/

section Window
variable {k : Kernel} {L : Pool k} {role : Word → Role} {x : Spaces} (h : Roles L role x)
  {dir : Word} (hdir : dir ∈ x.dirs k) (hpde : present (x.state.mem dir 959) = true)
  {t : Word} (htable : frameOf (x.state.mem dir 959) = t) {f : Word} (hloose : role f = .loose)
include h hdir hpde htable hloose

theorem window_table : role t = .table (owner k dir 959) 959 ∧ t ≠ f ∧ t ∉ x.dirs k := by
  have hrole := h.dirsOk.tables dir hdir 959 (by omega) hpde
  rw [htable] at hrole
  refine ⟨hrole, ?_, ?_⟩
  · intro heq
    rw [heq, hloose] at hrole
    exact Role.noConfusion hrole
  · intro hmem
    rw [h.named.dir hmem] at hrole
    exact Role.noConfusion hrole

/-- Outside the new directory `mmu_clone_pagedir` leaves the entry of the window cleared. -/
theorem window_mem {g : Word} (hg : g ≠ f) (j : Nat) :
    (cloned k t f x.state).mem g j = if g = t ∧ j = 1023 then 0#32 else x.state.mem g j := by
  obtain ⟨_, htf, htdirs⟩ := window_table h hdir hpde htable hloose
  have hpd : k.pd ∈ x.dirs k := List.mem_cons_self ..
  have hpdf : k.pd ≠ f := by
    intro heq
    have hrole := h.named.pd
    rw [heq, hloose] at hrole
    exact Role.noConfusion hrole
  have hpdt : k.pd ≠ t := fun heq => htdirs (heq ▸ hpd)
  rw [cloned_mem htf hpdf hpdt, if_neg hg]

theorem window_dirs {a : Word} (ha : a ∈ x.dirs k) (j : Nat) :
    (cloned k t f x.state).mem a j = x.state.mem a j := by
  obtain ⟨_, _, htdirs⟩ := window_table h hdir hpde htable hloose
  have haf : a ≠ f := by
    intro heq
    have hrole := h.named.dir ha
    rw [heq, hloose] at hrole
    exact Role.noConfusion hrole
  rw [window_mem h hdir hpde htable hloose haf, if_neg]
  intro hand
  exact htdirs (hand.1 ▸ ha)

theorem window_directory (j : Nat) : (cloned k t f x.state).mem f j =
    if j = 1023 then f + 3#32 else if 512 ≤ j ∧ j < 1024 then x.state.mem k.pd j else 0#32 := by
  obtain ⟨_, htf, htdirs⟩ := window_table h hdir hpde htable hloose
  have hpd : k.pd ∈ x.dirs k := List.mem_cons_self ..
  have hpdf : k.pd ≠ f := by
    intro heq
    have hrole := h.named.pd
    rw [heq, hloose] at hrole
    exact Role.noConfusion hrole
  have hpdt : k.pd ≠ t := fun heq => htdirs (heq ▸ hpd)
  rw [cloned_mem htf hpdf hpdt, if_neg fun hand => htf hand.1.symm, if_pos rfl]

theorem window_unmapped {a : Word} (ha : a ∈ x.dirs k) {addr : Nat}
    (haddr : addr / 4096 = kaddrClondpd / 4096) :
    translate { cloned k t f x.state with cr3 := a } addr = none := by
  obtain ⟨_, htf, _⟩ := window_table h hdir hpde htable hloose
  have hd : mmuPdIndex addr = 959 := by
    unfold kaddrClondpd at haddr
    unfold mmuPdIndex
    omega
  have hi : mmuPtIndex addr = 1023 := by
    unfold kaddrClondpd at haddr
    unfold mmuPtIndex
    omega
  have hentry : Spaces.tableOf (cloned k t f x.state) a addr = t := by
    unfold Spaces.tableOf
    rw [window_dirs h hdir hpde htable hloose ha, hd, h.clondpd_same ha hdir]
    exact htable
  have hzero : (cloned k t f x.state).mem t 1023 = 0#32 := by
    rw [window_mem h hdir hpde htable hloose htf]
    exact if_pos ⟨rfl, rfl⟩
  rw [translate_eq, hentry, hi, hzero]
  simp only [not_present_zero, Bool.false_eq_true, if_false, ite_self]

theorem window_kept {a : Word} (ha : a ∈ x.dirs k) {addr : Nat} (hlow : addr < mmuPtVma)
    (hother : addr / 4096 ≠ kaddrClondpd / 4096) :
    translate { cloned k t f x.state with cr3 := a } addr =
      translate { x.state with cr3 := a } addr := by
  have hlt := mmuPdIndex_low hlow
  rw [translate_eq, translate_eq]
  unfold Spaces.tableOf
  rw [window_dirs h hdir hpde htable hloose ha]
  cases hpresent : present (x.state.mem a (mmuPdIndex addr)) with
  | false => rfl
  | true =>
    have hne := h.tableOf_ne_idle (by rw [hloose]; exact True.intro) ha hpresent
    unfold Spaces.tableOf at hne
    have hkept := window_mem h hdir hpde htable hloose hne (mmuPtIndex addr)
    rw [if_neg] at hkept
    · rw [hkept]
    · intro hand
      obtain ⟨hrole, _, _⟩ := window_table h hdir hpde htable hloose
      cases h.tableOf_role ha hlt hpresent with
      | inl hcase =>
        unfold Spaces.tableOf at hcase
        rw [hand.1, hrole] at hcase
        have hd := (Role.table.inj hcase.1).2
        apply hother
        have hi := hand.2
        unfold mmuPtVma at hlow
        unfold mmuPdIndex at hd
        unfold mmuPtIndex at hi
        unfold kaddrClondpd
        omega
      | inr hcase =>
        have hpt := hcase.1
        unfold Spaces.tableOf at hpt
        rw [← hand.1, hpt, h.named.poolPt] at hrole
        exact Role.noConfusion hrole

theorem window_elsewhere (hout : ∀ g ∈ L.frames, ¬ L.outside g) {a : Word} (ha : a ∈ x.dirs k)
    (addr j : Nat) : translate { cloned k t f x.state with cr3 := a } addr ≠ some (f, j) := by
  rw [translate_eq]
  unfold Spaces.tableOf
  rw [window_dirs h hdir hpde htable hloose ha]
  intro hplace
  split at hplace
  · rename_i hpresent
    have hne := h.tableOf_ne_idle (by rw [hloose]; exact True.intro) ha hpresent
    unfold Spaces.tableOf at hne
    have hentry := window_mem h hdir hpde htable hloose hne (mmuPtIndex addr)
    cases Classical.em (frameOf (x.state.mem a (mmuPdIndex addr)) = t ∧ mmuPtIndex addr = 1023) with
    | inl hand =>
      rw [if_pos hand] at hentry
      rw [hentry, not_present_zero] at hplace
      exact absurd hplace (by simp)
    | inr hand =>
      rw [if_neg hand] at hentry
      rw [hentry] at hplace
      split at hplace
      · rename_i hpte
        rw [Option.some.injEq, Prod.mk.injEq] at hplace
        exact h.idle_unmapped hout (by rw [hloose]; exact True.intro) ha hpresent hpte hplace.1
      · exact absurd hplace (by simp)
  · exact absurd hplace (by simp)

theorem window_slots {i : Nat} (hi : i < x.state.framesIndex) :
    poolWord k (cloned k t f x.state) i = poolWord k x.state i := by
  obtain ⟨hrole, _, _⟩ := window_table h hdir hpde htable hloose
  refine h.slots_kept (fun r => r = role f ∨ r = role t) (by rw [hloose, hrole]; simp)
    (by rw [hloose, hrole]; simp) ?_ hi
  intro g hg j
  rw [window_mem h hdir hpde htable hloose fun heq => hg (.inl (congrArg role heq)), if_neg]
  intro hand
  exact hg (.inr (congrArg role hand.1))

end Window

namespace Roles
variable {k : Kernel} {L : Pool k} {role : Word → Role} {x : Spaces} (h : Roles L role x)
include h

/-- `mmu_clone_pagedir` with two frames in the pool and its window free. -/
theorem clone_fresh (hout : ∀ f ∈ L.frames, ¬ L.outside f)
    (hfree : translate x.state kaddrClondpd = none) (hroom : 2 ≤ x.state.framesIndex)
    (depth : Nat) :
    ∃ s, mmuClonePagedir (pageFault k (depth + 1)) k x.state = some (top k x.state, s) ∧
      FreshDirectory k x (top k x.state) s := by
  let y : Spaces := { x with state := { x.state with framesIndex := x.state.framesIndex - 1 } }
  let role₁ := Function.update role (top k x.state) Role.loose
  have hd : mmuPdIndex kaddrClondpd < 1022 := by decide
  have hy : Roles L role₁ y := h.pop (by omega)
  have hloose : role₁ (top k x.state) = .loose := Function.update_self ..
  have halloc := h.alloc_eq feeds_mmuAlloc (by omega) (pageFault k (depth + 1))
  obtain ⟨dir, role', s, htabled, hmark⟩ := hy.mmuMark_total hd
    feeds_mmuAlloc (Nat.sub_pos_of_lt hroom) depth (top k x.state) mmuPageNoalloc
  obtain ⟨pd, s', hclone, _, hexact, _⟩ := hy.clone_tabled hloose htabled halloc hmark
  have hs := htabled.roles
  have hdir : dir ∈ x.dirs k := htabled.mem_dirs
  have hloose' : role' (top k x.state) = .loose := by
    rw [htabled.kept _ (by rw [hloose]; simp)]
    exact hloose
  have habsent : present (s.mem (frameOf (s.mem dir 959)) 1023) = false :=
    (htabled.window_free hy hd rfl).1 hfree
  obtain ⟨hpd, hs'⟩ := hexact habsent
  rw [hpd, hs'] at hclone
  have hpde : present (s.mem dir 959) = true := htabled.present_pde
  refine ⟨_, hclone, rfl, htabled.cr3, ?_, ?_, ?_, ?_, ?_, ?_, ?_, ?_⟩
  · intro d hlow
    rw [window_directory hs hdir hpde rfl hloose', if_neg (by omega), if_neg (by omega)]
  · intro d hlow hhigh
    rw [window_directory hs hdir hpde rfl hloose', if_neg (by omega), if_pos (by omega),
      window_dirs hs hdir hpde rfl hloose' (List.mem_cons_self ..)]
  · rw [window_directory hs hdir hpde rfl hloose', if_pos rfl]
  · have hindex := htabled.index
    have hcr3 : x.state.mem x.state.cr3 959 = x.state.mem dir 959 :=
      h.clondpd_same h.dirsOk.cr3 hdir
    rw [mmuPdIndex_clondpd] at hindex ⊢
    rw [hcr3]
    have hindex' : s.framesIndex + (if present (x.state.mem dir 959) then 0 else 1) =
        x.state.framesIndex - 1 := hindex
    have hkept : (cloned k (frameOf (s.mem dir 959)) (top k x.state) s).framesIndex =
        s.framesIndex := rfl
    rw [hkept]
    split at hindex'
    · rename_i hpresent
      rw [if_pos hpresent]
      omega
    · rename_i hmissing
      rw [if_neg hmissing]
      omega
  · intro i hi
    rw [window_slots hs hdir hpde rfl hloose' hi]
    exact htabled.slots_kept hy hd hi
  · intro a ha addr haddr
    exact window_unmapped hs hdir hpde rfl hloose' ha haddr
  · intro a ha addr hlow hother
    rw [window_kept hs hdir hpde rfl hloose' ha hlow hother]
    exact htabled.translate_kept hy hd ha hlow
  · intro a ha addr j
    exact window_elsewhere hs hdir hpde rfl hloose' hout ha addr j

/-- Where `mmu_clone_pagedir` returns, it has found a frame and its window free, or it returns
zero. What it returns is no directory yet. -/
theorem clone_succeeds_iff {depth : Nat} {pd : Word} {s' : State}
    (hr : mmuClonePagedir (pageFaultFed k depth) k x.state = some (pd, s')) :
    (pd ≠ 0#32 ↔ 0 < x.state.framesIndex ∧ translate x.state kaddrClondpd = none) ∧
      (pd ≠ 0#32 → pd ∉ x.dirs k) := by
  cases Nat.eq_zero_or_pos x.state.framesIndex with
  | inl hempty =>
    unfold mmuClonePagedir at hr
    simp only [mmuAlloc_empty hempty, Option.bind_eq_bind, Option.bind_some, if_true,
      Option.some.injEq, Prod.mk.injEq] at hr
    have hzero : pd = 0#32 := hr.1.symm
    refine ⟨iff_of_false (fun hne => hne hzero) fun hand => ?_, fun hne => absurd hzero hne⟩
    omega
  | inr hpos =>
    let y : Spaces := { x with state := { x.state with framesIndex := x.state.framesIndex - 1 } }
    have hd : mmuPdIndex kaddrClondpd < 1022 := by decide
    have halloc := h.alloc_eq feeds_mmuAlloc hpos (pageFaultFed k depth)
    have hy : Roles L (Function.update role (top k x.state) .loose) y := h.pop hpos
    have hloose : Function.update role (top k x.state) Role.loose (top k x.state) = .loose :=
      Function.update_self ..
    have hne := L.ne_zero (h.top_mem hpos)
    cases hmark : mmuMark (pageFaultFed k depth) kaddrClondpd (top k x.state) mmuPageNoalloc
        y.state with
    | none =>
      have hcount : pageCount 4096 = some 1 := rfl
      have hnone : mmuMark (pageFaultFed k depth) kaddrClondpd (top k x.state) mmuPageNoalloc
        { x.state with framesIndex := x.state.framesIndex - 1 } = none := hmark
      unfold mmuClonePagedir at hr
      rw [halloc] at hr
      simp only [Option.bind_eq_bind, Option.bind_some, if_neg hne, mmuMmap, hcount, markPages,
        hnone, Option.bind_none] at hr
      exact absurd hr (by simp)
    | some r =>
      obtain ⟨dir, role', s, htabled, heq⟩ := hy.mmuMark_tabled hd hmark
      rw [heq] at hmark
      have hfree : translate x.state kaddrClondpd = none ↔ _ := htabled.window_free hy hd rfl
      obtain ⟨pd', s'', hclone, _, hexact, hrefused⟩ := hy.clone_tabled hloose htabled halloc hmark
      rw [hr] at hclone
      have hsame : pd = pd' := (Prod.mk.inj (Option.some.inj hclone)).1
      cases hwindow : present (s.mem (frameOf (s.mem dir 959)) 1023) with
      | false =>
        rw [hsame, (hexact hwindow).1]
        refine ⟨iff_of_true hne ⟨hpos, hfree.2 hwindow⟩, fun _ hdir => ?_⟩
        exact h.top_ne_dir hpos hdir rfl
      | true =>
        have hzero : pd = 0#32 := hsame.trans (hrefused hwindow).1
        refine ⟨iff_of_false (fun hpd => hpd hzero) fun hand => ?_, fun hpd => absurd hzero hpd⟩
        have habsent := hfree.1 hand.2
        rw [hwindow] at habsent
        exact Bool.noConfusion habsent

end Roles

section Runs
variable {k : Kernel} {ram : Memory} {map : List Region} {depth : Nat} {s : State}

theorem clone_is_fresh (hdistinct : (usableFrames k map).Nodup)
    (hinit : mmuInit k (pageFault k depth) map (bootState k ram) = some s) {x : Spaces}
    (hrun : Reachable
      (Guarded (Spaces.Step k (pageFaultFed k))
        (Spaces.Allowed k fun f => f ∉ usableFrames k map)) (Spaces.start k s) x) :
    (translate x.state kaddrClondpd = none → 2 ≤ x.state.framesIndex → ∀ depth,
      ∃ p s', p ∈ usableFrames k map ∧
        mmuClonePagedir (pageFault k (depth + 1)) k x.state = some (p, s') ∧
          FreshDirectory k x p s') ∧
      (x.state.framesIndex = 0 → ∀ depth,
        mmuClonePagedir (pageFault k depth) k x.state = some (0#32, x.state)) := by
  obtain ⟨ptIndex, hfilling, hlow⟩ := mmuInit_filling hdistinct hinit
  have hpool : ∀ f ∈ usableFrames k map, PoolFrame k f := usableFrames_poolFrame
  have himage : ∀ f : Word, f.toNat < k.kernelEnd → f ∉ usableFrames k map := by
    intro f hbelow hf
    have habove := (hpool f hf).aboveImage
    unfold Kernel.kend at habove
    omega
  obtain ⟨role, hroles⟩ := reachable_roles hrun
    (hfilling.start_roles hpool hdistinct hlow (fun f => f ∉ usableFrames k map) himage)
  let L := hfilling.left hpool hdistinct hlow fun f => f ∉ usableFrames k map
  have hput : ∀ f ∈ L.frames, f ∈ usableFrames k map := fun f hf => L.put_of_mem hf
  refine ⟨?_, ?_⟩
  · intro hfree hroom depth
    obtain ⟨s', hclone, hfresh⟩ :=
      hroles.clone_fresh (fun f hf hout => hout (hput f hf)) hfree hroom depth
    exact ⟨_, s', hput _ (hroles.top_mem (by omega)), hclone, hfresh⟩
  · intro hempty depth
    unfold mmuClonePagedir
    simp only [mmuAlloc_empty hempty, Option.bind_eq_bind, Option.bind_some, if_true]

end Runs

/-! ### The small machine -/

theorem clone_is_fresh_small : ∃ p s', p ∈ usableFrames smallKernel [smallRam 4] ∧
    mmuClonePagedir (pageFault smallKernel 4) smallKernel smallSpaces.state = some (p, s') ∧
      FreshDirectory smallKernel smallSpaces p s' := by
  have hinit : smallInit [smallRam 4] = some smallStart := (Option.some_get _).symm
  exact (clone_is_fresh (by decide +kernel) hinit (smallSpaces_reachable _)).1 (by decide +kernel)
    (by decide +kernel) 3

/-- A module in the RAM of the small machine is mapped at `KADDR_INITRD`; its page table takes a
frame of the module as well. -/
def moduleMark : Bool × State :=
  (mmuMark (pageFaultFed smallKernel 4) 0xE0000000 0x109000#32 mmuPageNoalloc smallStart).get
    (by decide +kernel)

def moduleSpaces : Spaces :=
  (Spaces.start smallKernel smallStart).afterMark 0xE0000000 mmuPageNoalloc moduleMark

/-- The clone is a frame of the module, and it is mapped there. -/
theorem module_is_cloned : smallInit [smallRam 4] = some smallStart ∧
    Reachable
      (Guarded (Spaces.Step smallKernel (pageFaultFed smallKernel))
        (Spaces.Allowed smallKernel fun _ => True)) (Spaces.start smallKernel smallStart)
      moduleSpaces ∧
    translate moduleSpaces.state kaddrClondpd = none ∧ 2 ≤ moduleSpaces.state.framesIndex ∧
    ∃ s', mmuClonePagedir (pageFault smallKernel 4) smallKernel moduleSpaces.state =
        some (0x109000#32, s') ∧
      translate s' 0xE0000000 = some (0x109000#32, 0) ∧
      ¬ FreshDirectory smallKernel moduleSpaces 0x109000#32 s' := by
  have hmark : mmuMark (pageFaultFed smallKernel 4) 0xE0000000 0x109000#32
    mmuPageNoalloc smallStart =
      some moduleMark := (Option.some_get _).symm
  have hstep : Spaces.Step smallKernel (pageFaultFed smallKernel)
      (Spaces.start smallKernel smallStart) (.mark 0xE0000000 0x109000#32 mmuPageNoalloc)
      moduleSpaces := .mark hmark
  have hallowed : Spaces.Allowed smallKernel (fun _ => True) (Spaces.start smallKernel smallStart)
      (.mark 0xE0000000 0x109000#32 mmuPageNoalloc) :=
    ⟨⟨by decide, by simp [imagePage, smallKernel]⟩, fun _ => ⟨by decide, True.intro⟩⟩
  have hcloned : (mmuClonePagedir (pageFault smallKernel 4) smallKernel moduleSpaces.state).map
      (fun r => (r.1, r.2.cr3, translate r.2 0xE0000000)) =
        some (0x109000#32, smallKernel.pd, some (0x109000#32, 0)) := by decide +kernel
  obtain ⟨r, hr, hword⟩ := Option.map_eq_some_iff.1 hcloned
  simp only [Prod.mk.injEq] at hword
  obtain ⟨hp, hcr3, hplace⟩ := hword
  refine ⟨(Option.some_get _).symm, ⟨[_], .single ⟨hallowed, hstep⟩⟩, by decide +kernel,
    by decide +kernel, r.2, ?_, hplace, ?_⟩
  · rw [hr, ← hp]
  · intro hfresh
    apply hfresh.elsewhere smallKernel.pd (List.mem_cons_self ..) 0xE0000000 0
    rw [← hcr3]
    exact hplace

end OsdevCourse.Mmu
