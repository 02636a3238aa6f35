import OsdevCourse.MmuRoles

/-!
# Every call keeps the roles

A page fault, `mmu_mark`, the body of `mmu_munmap` and `mmu_clone_pagedir` under any directory,
for page fault handlers that allocate as `mmu_alloc` does while the pool is not empty.
-/

namespace OsdevCourse.Mmu

set_option autoImplicit false

open PageEntry

/-- A way of calling `mmu_alloc` that is `mmu_alloc` while the pool is not empty. -/
def Feeds (alloc : Fault → State → Option (Word × State)) : Prop :=
  ∀ fault s, 0 < s.framesIndex → alloc fault s = mmuAlloc fault s

theorem feeds_mmuAlloc : Feeds mmuAlloc := fun _ _ _ => rfl

theorem feeds_mmuAllocFed : Feeds mmuAllocFed := fun _ _ hpos => if_pos hpos

theorem mmuAllocFed_empty {s : State} (hempty : s.framesIndex = 0) (fault : Fault) :
    mmuAllocFed fault s = none := by
  unfold mmuAllocFed
  rw [if_neg (by omega)]

/-- The frame on top of the pool. -/
def top (k : Kernel) (s : State) : Word := poolWord k s (s.framesIndex - 1)

/-- The directory entry that `mmu_mark` writes for a missing page table. -/
def tableMark : Word := mmuPageOndemand ||| mmuProtRw ||| mmuProtUser

/-- The state after `mmu_mark` has got a page table under the windows of a directory. -/
def madeTable (k : Kernel) (dir : Word) (addr : Nat) (s : State) : State :=
  putInto k dir (ptSlot addr) (top k s)
    { s.set dir (mmuPdIndex addr) tableMark with framesIndex := s.framesIndex - 1 }

theorem Recursive.table_starved {k : Kernel} {s : State} {dir : Word} (hrec : Recursive s dir)
    {addr : Nat} (hd : mmuPdIndex addr < 1022) {depth : Nat}
    (hnone : depth = 0 ∨ s.framesIndex = 0) :
    pageFaultFed k depth (ptSlot addr) (s.set dir (mmuPdIndex addr) tableMark) = none := by
  have hrec₀ : Recursive (s.set dir (mmuPdIndex addr) tableMark) dir :=
    hrec.congr rfl (set_mem_word _ _ _ _ _ (by omega)) (set_mem_word _ _ _ _ _ (by omega))
  unfold pageFaultFed
  cases hnone with
  | inl hdepth =>
    rw [hdepth]
    rfl
  | inr hempty =>
    apply hrec₀.int0E_starved
    · rw [mmuPdIndex_ptSlot]
      exact hrec₀.ownLast
    · exact mmuAllocFed_empty hempty

theorem Recursive.mmuMark_starved {k : Kernel} {s : State} {dir : Word} (hrec : Recursive s dir)
    {addr : Nat} (hd : mmuPdIndex addr < 1022) (hzero : s.mem dir (mmuPdIndex addr) = 0#32)
    {depth : Nat} (hnone : depth = 0 ∨ s.framesIndex = 0) (paddr flag : Word) :
    mmuMark (pageFaultFed k depth) addr paddr flag s = none := by
  have hrec₀ : Recursive (s.set dir (mmuPdIndex addr) tableMark) dir :=
    hrec.congr rfl (set_mem_word _ _ _ _ _ (by omega)) (set_mem_word _ _ _ _ _ (by omega))
  have hunmapped : translate (s.set dir (mmuPdIndex addr) tableMark) (ptSlot addr) = none := by
    apply hrec₀.translate_ptSlot_absent
    rw [set_mem_same]
    decide
  have hfault := hrec.table_starved (k := k) hd hnone
  unfold tableMark at hunmapped hfault
  rw [hrec.mmuMark_empty _ paddr flag hzero]
  unfold markPte readWord access
  rw [hunmapped]
  simp only [hfault, Option.bind_eq_bind, Option.bind_none]

/-- The page table entry of an address, as the windows show it. -/
def slot (s : State) (addr : Nat) : Option (Word × Nat) := translate s (ptSlot addr)

namespace Roles
variable {k : Kernel} {L : Pool k} {role : Word → Role} {x : Spaces} (h : Roles L role x)
include h

theorem top_role (hpos : 0 < x.state.framesIndex) :
    role (top k x.state) = .pool (x.state.framesIndex - 1) :=
  h.slots.inPool _ (by omega)

theorem top_mem (hpos : 0 < x.state.framesIndex) : top k x.state ∈ L.frames :=
  h.slot_mem (by omega)

theorem top_ne_dir (hpos : 0 < x.state.framesIndex) {a : Word} (ha : a ∈ x.dirs k) :
    top k x.state ≠ a := by
  intro heq
  have hrole := h.top_role hpos
  rw [heq, h.named.dir ha] at hrole
  exact Role.noConfusion hrole

theorem alloc_eq {alloc : Fault → State → Option (Word × State)} (hfeeds : Feeds alloc)
    (hpos : 0 < x.state.framesIndex) (fault : Fault) :
    alloc fault x.state = some (top k x.state,
      { x.state with framesIndex := x.state.framesIndex - 1 }) := by
  rw [hfeeds fault _ hpos]
  have hle := h.framesIndex_le
  exact mmuAlloc_eq hpos h.framesIndex_le_pow h.active_pool (h.pool_present (by omega))

theorem table_ne_dir {a : Word} (ha : a ∈ x.dirs k) {t : Word} (ht : (role t).IsTable) : t ≠ a := by
  intro heq
  rw [heq, h.named.dir ha] at ht
  exact ht

theorem table_role {a : Word} (ha : a ∈ x.dirs k) {d : Nat} (hd : d < 1022)
    (hpresent : present (x.state.mem a d) = true) : (role (frameOf (x.state.mem a d))).IsTable := by
  rw [h.dirsOk.tables a ha d hd hpresent]
  exact True.intro

/-! ### A page table is made -/

section Table
variable {dir : Word} (hdir : dir ∈ x.dirs k) (hrec : Recursive x.state dir)
  (hlast : x.state.mem dir 1023 = dir + 3#32) {addr : Nat} (hd : mmuPdIndex addr < 1022)
  (hpos : 0 < x.state.framesIndex)

omit h in
theorem madeTable_cr3 : (madeTable k dir addr x.state).cr3 = x.state.cr3 := by
  unfold madeTable putInto
  rw [mmuPdIndex_ptSlot, if_pos (by omega)]
  rfl

omit h in
theorem madeTable_framesIndex :
    (madeTable k dir addr x.state).framesIndex = x.state.framesIndex - 1 := by
  unfold madeTable putInto
  rw [mmuPdIndex_ptSlot, if_pos (by omega)]
  rfl

include hdir hpos

theorem top_tableMark :
    top k (x.state.set dir (mmuPdIndex addr) tableMark) = top k x.state := by
  have hle := h.framesIndex_le
  obtain ⟨hj, hbacked⟩ := L.slot_backed (i := x.state.framesIndex - 1) (by omega)
  have hrole := h.named.dir hdir
  refine poolWord_agree (fun g hg j => set_mem_frame _ _ _ _ hg j) ?_ ?_
  · intro heq
    rw [heq, h.named.poolPt] at hrole
    exact Role.noConfusion hrole
  · intro heq
    unfold poolPage at heq
    rw [h.slots.poolTable] at heq
    rw [← heq] at hrole
    exact Role.noConfusion ((h.named.backing _ hj hbacked).symm.trans hrole)

include hrec hlast hd

omit hrec in
/-- The memory after a page table has been made: the frame on top of the pool, cleared, is
behind the directory entry. -/
theorem madeTable_mem (g : Word) (j : Nat) :
    (madeTable k dir addr x.state).mem g j =
      if g = dir ∧ j = mmuPdIndex addr then tableEntry (top k x.state)
      else if g = k.pd ∧ j = 1023 then dir + 3#32
      else if g = top k x.state then 0#32
      else x.state.mem g j := by
  have hnedir := h.top_ne_dir hpos hdir
  have hnepd := h.top_ne_dir hpos (List.mem_cons_self ..)
  have hlast' : (x.state.set dir (mmuPdIndex addr) tableMark).mem dir 1023 = dir + 3#32 := by
    rw [set_mem_word _ _ _ _ _ (by omega)]
    exact hlast
  have hframe := frameOf_static (h.named.isFrame_dir hdir)
  unfold madeTable putInto
  simp only [mmuPdIndex_ptSlot, mmuPtIndex_ptSlot, hlast', hframe, set_mem_same]
  rw [if_pos (by omega)]
  simp only [set_mem, zero_mem, invlpg_mem, tableEntry, tableMark]
  cases Classical.em (g = dir ∧ j = mmuPdIndex addr) with
  | inl hand =>
    rw [if_pos hand, if_pos hand, if_neg (show ¬ (g = k.pd ∧ j = 1023) by omega),
      if_neg (by rw [hand.1]; exact hnedir.symm)]
  | inr hne =>
    simp only [if_neg hne]

omit hlast in
theorem table_fault {alloc : Fault → State → Option (Word × State)} (hfeeds : Feeds alloc)
    (depth : Nat) :
    int0E k alloc (depth + 1) 0 (ptSlot addr) (x.state.set dir (mmuPdIndex addr) tableMark) =
      some (madeTable k dir addr x.state) := by
  let s₀ := x.state.set dir (mmuPdIndex addr) tableMark
  have hkeep : ∀ a, s₀.mem a 1023 = x.state.mem a 1023 :=
    fun a => set_mem_word _ _ _ _ _ (by omega)
  have hrec₀ : Recursive s₀ dir := hrec.congr rfl (hkeep _) (hkeep _)
  have hle := h.framesIndex_le
  have htop : top k s₀ = top k x.state := h.top_tableMark hdir hpos
  have halloc : ∀ fault, alloc fault s₀ =
      some (top k x.state, { s₀ with framesIndex := x.state.framesIndex - 1 }) := by
    intro fault
    rw [hfeeds fault s₀ hpos, ← htop]
    refine mmuAlloc_eq (s := s₀) hpos h.framesIndex_le_pow ?_ ?_
    · refine Eq.trans ?_ h.active_pool
      exact set_mem_word _ _ _ _ _ (by omega)
    · rw [set_mem_frame]
      · exact h.pool_present (i := x.state.framesIndex - 1) (by omega)
      · intro heq
        have hrole := h.named.dir hdir
        rw [← heq, h.named.poolPt] at hrole
        exact Role.noConfusion hrole
  have hactive : s₀.mem s₀.cr3 1023 = x.state.mem x.state.cr3 1023 := hkeep _
  refine hrec₀.int0E_putInto ?_ (L.isFrame _ (h.top_mem hpos)) ?_ halloc ?_ ?_
    (h.top_ne_dir hpos hdir) (h.top_ne_dir hpos h.dirsOk.cr3) ?_ depth
  · rw [mmuPdIndex_ptSlot]
    exact hrec₀.ownLast
  · intro _ _ _
    rw [mmuPtIndex_ptSlot, mmuPdIndex_ptSlot]
    exact ⟨by omega, by omega⟩
  · rw [mmuPdIndex_ptSlot]
    exact hrec₀.last
  · rw [mmuPdIndex_ptSlot, hrec₀.frame, hrec₀.ownFrame]
  · rw [mmuPdIndex_ptSlot, hrec₀.ownFrame, mmuPtIndex_ptSlot, set_mem_same]
    decide

omit hrec in
theorem madeTable_roles (hzero : x.state.mem dir (mmuPdIndex addr) = 0#32) :
    ∃ role', Roles L role' { x with state := madeTable k dir addr x.state } ∧
      ∀ f, f ≠ top k x.state → role' f = role f := by
  have hf := h.top_mem hpos
  have hmem := h.madeTable_mem hdir hlast hd hpos
  have hne := h.top_ne_dir hpos hdir
  -- The frame is popped, cleared, and takes its role.
  let role₁ := Function.update role (top k x.state) Role.loose
  have hpopped : Roles L role₁
      { x with state := { x.state with framesIndex := x.state.framesIndex - 1 } } := h.pop hpos
  have hloose : role₁ (top k x.state) = .loose := Function.update_self ..
  have hdata : (role₁ (top k x.state)).IsData := by
    rw [hloose]
    exact True.intro
  let s₁ := ({ x.state with framesIndex := x.state.framesIndex - 1 }).zero (top k x.state)
  have hzeroed : Roles L role₁ { x with state := s₁ } :=
    hpopped.write hdata (fun g hg j => zero_mem_frame _ _ hg j) rfl rfl
  let r := Role.table (owner k dir (mmuPdIndex addr)) (mmuPdIndex addr)
  have hcast : Roles L (Function.update role₁ (top k x.state) r) { x with state := s₁ } := by
    refine hzeroed.recast hdata (by rw [hloose]; simp) ?_ ?_
    · intro t i hpage
      rw [hloose] at hpage
      exact Role.noConfusion hpage
    · intro _ j _
      exact zero_mem_same _ _ _
  -- The directory refers to it, and `MMU_PD` gets the last entry that the windows show.
  have htable : Roles L (Function.update role₁ (top k x.state) r)
      { x with state := s₁.set dir (mmuPdIndex addr) (tableEntry (top k x.state)) } := by
    refine hcast.setPde hdir (fun _ _ => rfl) rfl rfl hd (present_installed _ _) ?_ ?_
    · rw [show frameOf (tableEntry (top k x.state)) = top k x.state from
        frameOf_installed _ (L.isFrame _ hf)]
      exact Function.update_self ..
    · intro heq
      left
      cases Classical.em (x.clones = []) with
      | inl hnil => exact hnil
      | inr hclones =>
        exfalso
        obtain ⟨hpresent, hall⟩ := h.dirsOk.clondpd hclones
        rw [heq] at hzero
        cases List.mem_cons.1 hdir with
        | inl hpd =>
          rw [← hpd, hzero] at hpresent
          exact absurd hpresent (by decide)
        | inr hclone =>
          rw [← hall dir hclone, hzero] at hpresent
          exact absurd hpresent (by decide)
  have hself : Roles L (Function.update role₁ (top k x.state) r)
      { x with
        state := (s₁.set dir (mmuPdIndex addr) (tableEntry (top k x.state))).set k.pd 1023
          (dir + 3#32) } :=
    htable.setSelf hdir (fun _ _ => rfl) rfl rfl
  have hmade : (madeTable k dir addr x.state).mem =
      ((s₁.set dir (mmuPdIndex addr) (tableEntry (top k x.state))).set k.pd 1023
        (dir + 3#32)).mem := by
    funext g j
    rw [hmem]
    simp only [set_mem]
    cases Classical.em (g = k.pd ∧ j = 1023) with
    | inl hand => rw [if_pos hand, if_neg (by omega), if_pos hand]
    | inr hnot => simp only [if_neg hnot]; rfl
  refine ⟨_, hself.congr_state hmade madeTable_cr3 madeTable_framesIndex, ?_⟩
  intro g hg
  rw [Function.update_of_ne hg]
  exact Function.update_of_ne hg _ _

theorem madeTable_recursive : Recursive (madeTable k dir addr x.state) dir := by
  have hmem := h.madeTable_mem hdir hlast hd hpos
  have hframe := h.named.isFrame_dir hdir
  have hkeep : ∀ a ∈ x.dirs k, x.state.mem a 1023 = dir + 3#32 →
      (madeTable k dir addr x.state).mem a 1023 = dir + 3#32 := by
    intro a ha hold
    have hne := h.top_ne_dir hpos ha
    rw [hmem, if_neg (by omega), hold, if_neg hne.symm, ite_self]
  have hactive : x.state.mem x.state.cr3 1023 = dir + 3#32 := by
    cases List.mem_cons.1 h.dirsOk.cr3 with
    | inr hclone =>
      have hself := h.dirsOk.cloneSelf _ hclone
      have heq := hrec.frame
      rw [hself, frameOf_static (h.named.isFrame_dir h.dirsOk.cr3)] at heq
      rw [hself, heq]
    | inl hpd =>
      obtain ⟨other, hother, hkernel⟩ := h.dirsOk.kernelSelf
      have heq := hrec.frame
      rw [hpd, hkernel, frameOf_static (h.named.isFrame_dir hother)] at heq
      rw [hpd, hkernel, heq]
  have hactive' := hkeep _ h.dirsOk.cr3 hactive
  have hlast' := hkeep dir hdir hlast
  refine ⟨?_, ?_, ?_, ?_⟩
  · rw [madeTable_cr3, hactive']
    exact present_static hframe
  · rw [madeTable_cr3, hactive']
    exact frameOf_static hframe
  · rw [hlast']
    exact present_static hframe
  · rw [hlast']
    exact frameOf_static hframe

omit hrec in
theorem madeTable_entry : (madeTable k dir addr x.state).mem dir (mmuPdIndex addr) =
    tableEntry (top k x.state) := by
  rw [h.madeTable_mem hdir hlast hd hpos, if_pos ⟨rfl, rfl⟩]

theorem mmuMark_made {alloc : Fault → State → Option (Word × State)} (hfeeds : Feeds alloc)
    (hzero : x.state.mem dir (mmuPdIndex addr) = 0#32) (depth : Nat) (paddr flag : Word) :
    mmuMark (int0E k alloc (depth + 1) 0) addr paddr flag x.state =
      some (marked (top k x.state) (mmuPtIndex addr) addr paddr flag
        (madeTable k dir addr x.state)) := by
  have hmade := h.madeTable_recursive hdir hrec hlast hd hpos
  have hentry := h.madeTable_entry hdir hlast hd hpos
  have hframe : frameOf (tableEntry (top k x.state)) = top k x.state :=
    frameOf_installed _ (L.isFrame _ (h.top_mem hpos))
  have hpresent : present ((madeTable k dir addr x.state).mem dir (mmuPdIndex addr)) = true := by
    rw [hentry]
    exact present_installed _ _
  have hslot := hmade.translate_ptSlot_present hpresent
  have hfault := h.table_fault hdir hrec hd hpos hfeeds depth
  have hrec₀ : Recursive (x.state.set dir (mmuPdIndex addr) tableMark) dir :=
    hrec.congr rfl (set_mem_word _ _ _ _ _ (by omega)) (set_mem_word _ _ _ _ _ (by omega))
  have hunmapped : translate (x.state.set dir (mmuPdIndex addr) tableMark)
      (ptSlot addr) = none := by
    apply hrec₀.translate_ptSlot_absent
    rw [set_mem_same]
    decide
  have hsame : markPte (int0E k alloc (depth + 1) 0) addr paddr flag
      (x.state.set dir (mmuPdIndex addr) tableMark) =
        markPte (int0E k alloc (depth + 1) 0) addr paddr flag (madeTable k dir addr x.state) := by
    unfold markPte
    rw [readWord_of_translate hslot, readWord_handled hunmapped hfault hslot]
  rw [hrec.mmuMark_empty _ paddr flag hzero]
  refine hsame.trans ?_
  rw [hmade.markPte_eq _ paddr flag hpresent, hentry, hframe]

end Table

/-- The page table that `mmu_mark` finds or makes, and the state in which it marks the page. -/
structure Tabled (L : Pool k) (x : Spaces) (addr : Nat) (dir : Word) (role role' : Word → Role)
    (s : State) : Prop where
  mem_dirs : dir ∈ x.dirs k
  last : x.state.mem dir 1023 = dir + 3#32
  recursive : Recursive s dir
  present_pde : present (s.mem dir (mmuPdIndex addr)) = true
  roles : Roles L role' { x with state := s }
  cr3 : s.cr3 = x.state.cr3
  kept : ∀ f, (∀ i, role f ≠ .pool i) → role' f = role f
  cases : s = x.state ∨ x.state.mem dir (mmuPdIndex addr) = 0#32 ∧ 0 < x.state.framesIndex ∧
    s = madeTable k dir addr x.state

theorem mmuMark_total {addr : Nat} (hd : mmuPdIndex addr < 1022)
    {alloc : Fault → State → Option (Word × State)} (hfeeds : Feeds alloc)
    (hpos : 0 < x.state.framesIndex) (depth : Nat) (paddr flag : Word) :
    ∃ dir role' s, Tabled L x addr dir role role' s ∧
      mmuMark (int0E k alloc (depth + 1) 0) addr paddr flag x.state =
        some (marked (frameOf (s.mem dir (mmuPdIndex addr))) (mmuPtIndex addr) addr
            paddr flag s) := by
  obtain ⟨dir, hdir, hrec, hlast⟩ := h.recursive
  cases h.dirsOk.settled dir hdir _ hd with
  | inl hpresent =>
    exact ⟨dir, role, x.state, ⟨hdir, hlast, hrec, hpresent, h, rfl, fun _ _ => rfl, .inl rfl⟩,
      hrec.mmuMark_present _ paddr flag hpresent⟩
  | inr hzero =>
    obtain ⟨role', hroles, hkept⟩ := h.madeTable_roles hdir hlast hd hpos hzero
    have hentry := h.madeTable_entry hdir hlast hd hpos
    refine ⟨dir, role', madeTable k dir addr x.state, ⟨hdir, hlast,
      h.madeTable_recursive hdir hrec hlast hd hpos, ?_, hroles, madeTable_cr3, ?_,
      .inr ⟨hzero, hpos, rfl⟩⟩, ?_⟩
    · rw [hentry]
      exact present_installed _ _
    · intro f hf
      apply hkept
      intro heq
      rw [heq] at hf
      exact hf _ (h.top_role hpos)
    · rw [hentry, show frameOf (tableEntry (top k x.state)) = top k x.state from
        frameOf_installed _ (L.isFrame _ (h.top_mem hpos))]
      exact h.mmuMark_made hdir hrec hlast hd hpos hfeeds hzero depth paddr flag

theorem mmuMark_tabled {addr : Nat} (hd : mmuPdIndex addr < 1022) {depth : Nat}
    {paddr flag : Word} {r : Bool × State}
    (hr : mmuMark (pageFaultFed k depth) addr paddr flag x.state = some r) :
    ∃ dir role' s, Tabled L x addr dir role role' s ∧
      r = marked (frameOf (s.mem dir (mmuPdIndex addr))) (mmuPtIndex addr) addr paddr flag s := by
  obtain ⟨dir, hdir, hrec, hlast⟩ := h.recursive
  cases h.dirsOk.settled dir hdir _ hd with
  | inl hpresent =>
    rw [hrec.mmuMark_present _ paddr flag hpresent] at hr
    exact ⟨dir, role, x.state, ⟨hdir, hlast, hrec, hpresent, h, rfl, fun _ _ => rfl, .inl rfl⟩,
      (Option.some.inj hr).symm⟩
  | inr hzero =>
    have hstarved : depth = 0 ∨ x.state.framesIndex = 0 → False := by
      intro hnone
      rw [hrec.mmuMark_starved hd hzero hnone] at hr
      exact absurd hr (by simp)
    have hpos : 0 < x.state.framesIndex := by
      cases Nat.eq_zero_or_pos x.state.framesIndex with
      | inl hempty => exact (hstarved (.inr hempty)).elim
      | inr hpos => exact hpos
    cases depth with
    | zero => exact (hstarved (.inl rfl)).elim
    | succ depth =>
      obtain ⟨dir', role', s, htabled, hmark⟩ :=
        h.mmuMark_total hd feeds_mmuAllocFed hpos depth paddr flag
      refine ⟨dir', role', s, htabled, ?_⟩
      exact Option.some.inj (hr.symm.trans hmark)

/-! ### A page is marked or unmapped -/

theorem table_cases {addr : Nat} (hd : mmuPdIndex addr < 1022) :
    ∃ dir ∈ x.dirs k, Recursive x.state dir ∧ (x.state.mem dir (mmuPdIndex addr) = 0#32 ∨
      present (x.state.mem dir (mmuPdIndex addr)) = true ∧
        role (frameOf (x.state.mem dir (mmuPdIndex addr))) =
          .table (owner k dir (mmuPdIndex addr)) (mmuPdIndex addr) ∧
        slot x.state addr =
          some (frameOf (x.state.mem dir (mmuPdIndex addr)), mmuPtIndex addr)) := by
  obtain ⟨dir, hdir, hrec, _⟩ := h.recursive
  refine ⟨dir, hdir, hrec, ?_⟩
  cases h.dirsOk.settled dir hdir _ hd with
  | inr hzero => exact .inl hzero
  | inl hpresent =>
    exact .inr ⟨hpresent, h.dirsOk.tables dir hdir _ hd hpresent,
      hrec.translate_ptSlot_present hpresent⟩

theorem marked_roles {t : Word} (ht : (role t).IsTable) {i : Nat} (hi : i < 1024) {addr : Nat}
    {paddr flag : Word}
    (hallowed : flag &&& mmuPageNoalloc ≠ 0#32 → IsFrame paddr ∧ L.outside paddr)
    {r : Bool × State} (hr : r = marked t i addr paddr flag x.state) {fixed' : Word → Nat → Prop}
    (hfixed : ∀ u j, fixed' u j ↔ x.fixed u j ∨
      r.1 = true ∧ flag &&& mmuPageNoalloc ≠ 0#32 ∧ u = t ∧ j = i) :
    Roles L role { x with state := r.2, fixed := fixed' } := by
  have hother : ∀ u j, ¬ (u = t ∧ j = i) → (fixed' u j ↔ x.fixed u j) := by
    intro u j hne
    rw [hfixed]
    exact or_iff_left fun hand => hne hand.2.2
  have hset : ∀ w, ∀ g j, (x.state.set t i w).mem g j =
      if g = t ∧ j = i then w else x.state.mem g j := fun w g j => rfl
  cases habsent : present (x.state.mem t i) with
  | false =>
    have hnot : ¬ x.fixed t i := by
      intro hfix
      have hpresent := (h.tables.fixedPages t i hfix).2.2.1
      rw [habsent] at hpresent
      exact Bool.noConfusion hpresent
    cases Classical.em (flag &&& mmuPageNoalloc = 0#32) with
    | inl hflag =>
      have hw := not_present_ondemand flag
      rw [marked_demand habsent hflag] at hr
      rw [hr]
      refine h.setPte ht hi (hset _) rfl rfl hother ?_ ?_ ?_
      · intro hpresent
        exact Bool.noConfusion (hw.symm.trans hpresent)
      · intro hfix
        cases (hfixed t i).1 hfix with
        | inl hold => exact absurd hold hnot
        | inr hnew => exact absurd hflag hnew.2.1
      · intro hpresent
        exact Bool.noConfusion (hw.symm.trans hpresent)
    | inr hflag =>
      obtain ⟨hframe, houtside⟩ := hallowed hflag
      have hwframe := frameOf_installed flag hframe
      rw [marked_fixed habsent hflag] at hr
      have hnew : fixed' t i := (hfixed t i).2 (.inr ⟨by rw [hr], hflag, rfl, rfl⟩)
      have hstored : Roles L role { x with
          state := x.state.set t i (paddr ||| (flag &&& mmuProtMask) ||| mmuProtPresent),
          fixed := fixed' } := by
        refine h.setPte ht hi (hset _) rfl rfl hother ?_ ?_ ?_
        · intro _ hfree
          exact absurd hnew hfree
        · intro _
          rw [hwframe]
          exact ⟨present_installed _ _, houtside⟩
        · intro _
          exact installed_not_ondemand flag hframe
      rw [hr]
      exact hstored.congr_state rfl rfl rfl
  | true =>
    cases Classical.em (flag &&& mmuPageNoalloc = 0#32) with
    | inr hflag =>
      rw [marked_refused habsent hflag] at hr
      have hsame : fixed' = x.fixed := by
        funext u j
        refine propext ((hfixed u j).trans (or_iff_left fun hand => ?_))
        rw [hr] at hand
        exact Bool.noConfusion hand.1
      rw [hr, hsame]
      exact h
    | inl hflag =>
      rw [marked_reprotected habsent hflag] at hr
      have hsame : ∀ u j, fixed' u j ↔ x.fixed u j :=
        fun u j => (hfixed u j).trans (or_iff_left fun hand => hand.2.1 hflag)
      rw [hr]
      refine h.setPte ht hi (hset _) rfl rfl hother ?_ ?_ ?_
      · intro _ hfree
        rw [frameOf_reprotected]
        exact h.tables.pages t i ht hi habsent fun hfix => hfree ((hsame t i).2 hfix)
      · intro hfix
        obtain ⟨_, _, hpresent, houtside⟩ := h.tables.fixedPages t i ((hsame t i).1 hfix)
        rw [present_reprotected, frameOf_reprotected]
        exact ⟨hpresent, houtside⟩
      · intro _
        rw [reprotected_and_ondemand]
        exact h.tables.installed t i ht hi habsent

end Roles

/-- The history after `mmu_mark` has returned. -/
def Spaces.afterMark (x : Spaces) (addr : Nat) (flag : Word) (r : Bool × State) : Spaces :=
  { x with
    state := r.2
    fixed := fun t i => x.fixed t i ∨
      r.1 = true ∧ flag &&& mmuPageNoalloc ≠ 0#32 ∧ slot r.2 addr = some (t, i) }

/-- The history after a page has been unmapped. -/
def Spaces.afterUnmap (x : Spaces) (addr : Nat) (s : State) : Spaces :=
  { x with state := s, fixed := fun t i => x.fixed t i ∧ slot x.state addr ≠ some (t, i) }

/-- The condition under which `mmu_munmap` gives the frame of an entry back. -/
def Releases (flag entry : Word) : Prop :=
  entry &&& mmuProtPresent ≠ 0#32 ∧ flag &&& mmuMunmapNorelease = 0#32 ∧ frameOf entry ≠ 0#32

/-- What `mmu_munmap` does to a page with its entry in the page table `t`. -/
structure Unmapped {k : Kernel} (L : Pool k) (role : Word → Role) (x : Spaces) (addr : Nat)
    (flag t : Word) (s : State) : Prop where
  table : (role t).IsTable
  slot : slot x.state addr = some (t, mmuPtIndex addr)
  cases : ¬ Releases flag (x.state.mem t (mmuPtIndex addr)) ∧
      s = x.state.set t (mmuPtIndex addr) 0#32 ∨
    Releases flag (x.state.mem t (mmuPtIndex addr)) ∧
      present (x.state.mem t (mmuPtIndex addr)) = true ∧
      role (frameOf (x.state.mem t (mmuPtIndex addr))) = .page t (mmuPtIndex addr) ∧
      x.state.framesIndex < L.frames.length ∧
      s = (freed k (frameOf (x.state.mem t (mmuPtIndex addr)))
        (x.state.set t (mmuPtIndex addr) 0#32)).invlpg addr

theorem marked_recursive {s : State} {dir : Word} (hrec : Recursive s dir) {t : Word} {i : Nat}
    (hdir : t ≠ dir) (hcr3 : t ≠ s.cr3) {addr : Nat} {paddr flag : Word} :
    Recursive (marked t i addr paddr flag s).2 dir :=
  hrec.congr marked_cr3 (marked_mem_frame hcr3.symm _) (marked_mem_frame hdir.symm _)

namespace Roles
variable {k : Kernel} {L : Pool k} {role : Word → Role} {x : Spaces} (h : Roles L role x)
include h

theorem mmuMark_roles {addr : Nat} (hd : mmuPdIndex addr < 1022) {depth : Nat} {paddr flag : Word}
    (hallowed : flag &&& mmuPageNoalloc ≠ 0#32 → IsFrame paddr ∧ L.outside paddr)
    {r : Bool × State}
    (hr : mmuMark (pageFaultFed k depth) addr paddr flag x.state = some r) :
    ∃ role', Roles L role' (x.afterMark addr flag r) := by
  obtain ⟨dir, role', s, htabled, heq⟩ := h.mmuMark_tabled hd hr
  have hroles := htabled.roles
  have ht := hroles.table_role htabled.mem_dirs hd htabled.present_pde
  have hdir := hroles.table_ne_dir htabled.mem_dirs ht
  have hcr3 := hroles.table_ne_dir hroles.dirsOk.cr3 ht
  have hslot : slot r.2 addr =
      some (frameOf (s.mem dir (mmuPdIndex addr)), mmuPtIndex addr) := by
    have hrec : Recursive (marked (frameOf (s.mem dir (mmuPdIndex addr))) (mmuPtIndex addr) addr
        paddr flag s).2 dir := marked_recursive htabled.recursive hdir hcr3
    rw [← heq] at hrec
    have hpde : r.2.mem dir (mmuPdIndex addr) = s.mem dir (mmuPdIndex addr) := by
      rw [heq]
      exact marked_mem_frame hdir.symm _
    unfold slot
    rw [hrec.translate_ptSlot_present, hpde]
    rw [hpde]
    exact htabled.present_pde
  refine ⟨role', hroles.marked_roles ht (mmuPtIndex_lt addr) hallowed heq ?_⟩
  intro u j
  rw [hslot, Option.some.injEq, Prod.mk.injEq]
  refine or_congr Iff.rfl (and_congr Iff.rfl (and_congr Iff.rfl ?_))
  exact and_congr eq_comm eq_comm

/-- The body of `mmu_munmap`: the entry is cleared, and the frame of a page that is released goes
back to the pool. -/
theorem unmapPage_effect {addr : Nat} (hd : mmuPdIndex addr < 1022) {flag : Word}
    (hallowed : flag &&& mmuMunmapNorelease = 0#32 →
      ∀ t i, slot x.state addr = some (t, i) → ¬ x.fixed t i)
    {alloc : Fault → State → Option (Word × State)} {depth : Nat} {s' : State}
    (hr : unmapPage (int0E k alloc depth 0) addr flag x.state = some s') :
    (∃ t, Unmapped L role x addr flag t s') ∧ ∃ role', Roles L role' (x.afterUnmap addr s') := by
  obtain ⟨dir, hdir, hrec, hcases⟩ := h.table_cases hd
  cases hcases with
  | inl hzero =>
    unfold unmapPage at hr
    rw [hrec.readWord_table_halts hzero] at hr
    exact absurd hr (by simp)
  | inr hcase =>
    obtain ⟨hpresent, hrole, hslot⟩ := hcase
    generalize hT : frameOf (x.state.mem dir (mmuPdIndex addr)) = t at hrole hslot
    have ht : (role t).IsTable := by
      rw [hrole]
      exact True.intro
    have hi := mmuPtIndex_lt addr
    have hfixed : ∀ u j, (x.afterUnmap addr s').fixed u j ↔
        x.fixed u j ∧ ¬ (u = t ∧ j = mmuPtIndex addr) := by
      intro u j
      simp only [Spaces.afterUnmap, hslot, ne_eq, Option.some.injEq, Prod.mk.injEq]
      refine and_congr Iff.rfl (not_congr (and_congr eq_comm eq_comm))
    have hcleared : Roles L role { x with
        state := x.state.set t (mmuPtIndex addr) 0#32,
        fixed := (x.afterUnmap addr s').fixed } := by
      have hset : ∀ g j, (x.state.set t (mmuPtIndex addr) 0#32).mem g j =
          if g = t ∧ j = mmuPtIndex addr then 0#32 else x.state.mem g j := fun g j => rfl
      refine h.setPte ht hi hset rfl rfl ?_ ?_ ?_ ?_
      · intro u j hne
        rw [hfixed]
        exact and_iff_left hne
      · intro hzero
        exact Bool.noConfusion (not_present_zero.symm.trans hzero)
      · intro hfix
        exact absurd ⟨rfl, rfl⟩ ((hfixed _ _).1 hfix).2
      · intro hzero
        exact Bool.noConfusion (not_present_zero.symm.trans hzero)
    unfold unmapPage at hr
    rw [readWord_of_translate hslot] at hr
    simp only [Option.bind_eq_bind, Option.bind_some] at hr
    rw [writeWord_of_translate hslot] at hr
    simp only [Option.bind_some] at hr
    split at hr
    · rename_i hrelease
      obtain ⟨hbit, hflag, hne⟩ := hrelease
      have hpage : present (x.state.mem t (mmuPtIndex addr)) = true := by
        cases hcase : present (x.state.mem t (mmuPtIndex addr)) with
        | true => rfl
        | false => exact absurd ((and_present_eq_zero _).2 hcase) hbit
      have hframe := h.tables.pages t _ ht hi hpage (hallowed hflag t _ hslot)
      generalize hf : frameOf (x.state.mem t (mmuPtIndex addr)) = f at hframe hr
      have hdata : (role f).IsData := by
        rw [hframe]
        exact True.intro
      have hmem := h.named.data f hdata
      have hloose := hcleared.recast hdata (by rw [hframe]; simp) (r := .loose) (by
        intro u j hpage' hstill
        obtain ⟨hu, hj⟩ := Role.page.inj (hpage'.symm.trans hframe)
        rw [hu, hj] at hstill
        simp only [set_mem_same, not_present_zero] at hstill
        exact Bool.noConfusion hstill) (fun hcase => hcase.elim)
      have hself : Function.update role f Role.loose f = .loose := Function.update_self ..
      have hlt := hloose.framesIndex_lt hmem (by rw [hself]; simp)
      have hle := L.length_le
      have hstored := mmuFree_eq (s := x.state.set t (mmuPtIndex addr) 0#32)
        (int0E k alloc depth 0) (Nat.lt_of_lt_of_le hlt hle) hloose.active_pool
        (hloose.pool_present hlt) f
      rw [hstored] at hr
      simp only [Option.bind_some, Option.some.injEq] at hr
      rw [← hr]
      refine ⟨⟨t, ht, hslot, .inr ⟨⟨hbit, hflag, hne⟩, hpage, ?_, hlt, ?_⟩⟩, _,
        hloose.push hself (fun g j => rfl) rfl rfl⟩
      · rw [hf]
        exact hframe
      · rw [hf]
    · rename_i hkept
      rw [← Option.some.inj hr]
      exact ⟨⟨t, ht, hslot, .inl ⟨hkept, rfl⟩⟩, role, hcleared⟩

theorem unmapPage_roles {addr : Nat} (hd : mmuPdIndex addr < 1022) {flag : Word}
    (hallowed : flag &&& mmuMunmapNorelease = 0#32 →
      ∀ t i, slot x.state addr = some (t, i) → ¬ x.fixed t i)
    {alloc : Fault → State → Option (Word × State)} {depth : Nat} {s' : State}
    (hr : unmapPage (int0E k alloc depth 0) addr flag x.state = some s') :
    ∃ role', Roles L role' (x.afterUnmap addr s') :=
  (h.unmapPage_effect hd hallowed hr).2

/-! ### A page fault -/

theorem fault_only_below {addr : Nat} (hunmapped : translate x.state addr = none)
    (hd : 1022 ≤ mmuPdIndex addr) {alloc : Fault → State → Option (Word × State)} (depth : Nat) :
    int0E k alloc depth 0 addr x.state = none := by
  obtain ⟨dir, hdir, hrec, hlast⟩ := h.recursive
  have hlt := mmuPdIndex_lt addr
  have hcases : mmuPdIndex addr = 1022 ∨ mmuPdIndex addr = 1023 := by omega
  -- An entry that is not present is zero, under the active directory and under the windows.
  have hhalts : present (x.state.mem dir (mmuPdIndex addr)) = true ∧
      x.state.mem (frameOf (x.state.mem dir (mmuPdIndex addr))) (mmuPtIndex addr) = 0#32 := by
    cases hcases with
    | inl heq =>
      have hframe := frameOf_static k.isFrame_framepoolPt
      have hpresent := present_static k.isFrame_framepoolPt
      unfold translate at hunmapped
      simp only [heq, h.active_pool, hpresent, hframe, if_true, h.slots.poolTable] at hunmapped
      rw [heq, h.dirsOk.poolEntry dir hdir, hframe, h.slots.poolTable]
      refine ⟨hpresent, ?_⟩
      cases L.settled (mmuPtIndex addr) with
      | inr hzero => exact hzero
      | inl hset =>
        rw [if_pos hset] at hunmapped
        exact absurd hunmapped (by simp)
    | inr heq =>
      unfold translate at hunmapped
      simp only [heq, hrec.last, hrec.frame, if_true] at hunmapped
      rw [heq, hrec.ownFrame]
      refine ⟨hrec.ownLast, ?_⟩
      have habsent : present (x.state.mem dir (mmuPtIndex addr)) = false := by
        cases hcase : present (x.state.mem dir (mmuPtIndex addr)) with
        | false => rfl
        | true =>
          rw [if_pos hcase] at hunmapped
          exact absurd hunmapped (by simp)
      have hindex := mmuPtIndex_lt addr
      rcases Nat.lt_trichotomy (mmuPtIndex addr) 1022 with hlow | hpool | hhigh
      · cases h.dirsOk.settled dir hdir _ hlow with
        | inl hset =>
          rw [hset] at habsent
          exact Bool.noConfusion habsent
        | inr hzero => exact hzero
      · rw [hpool, h.dirsOk.poolEntry dir hdir, present_static k.isFrame_framepoolPt] at habsent
        exact Bool.noConfusion habsent
      · have hself : mmuPtIndex addr = 1023 := by omega
        rw [hself, hrec.ownLast] at habsent
        exact Bool.noConfusion habsent
  exact hrec.int0E_halts hhalts.1 (by rw [hhalts.2, BitVec.zero_and]) depth

/-- A page that the fault handler can bring in: its entry is on demand, and the active directory
and the one that the windows show refer to the same page table. -/
structure Fetchable (x : Spaces) (addr : Nat) (dir : Word) : Prop where
  below : mmuPdIndex addr < 1022
  present_pde : present (x.state.mem dir (mmuPdIndex addr)) = true
  ondemand : x.state.mem (frameOf (x.state.mem dir (mmuPdIndex addr))) (mmuPtIndex addr) &&&
    mmuPageOndemand ≠ 0#32
  active : present (x.state.mem x.state.cr3 (mmuPdIndex addr)) = true
  same : frameOf (x.state.mem x.state.cr3 (mmuPdIndex addr)) =
    frameOf (x.state.mem dir (mmuPdIndex addr))

theorem fault_keeps {dir : Word} (hdir : dir ∈ x.dirs k) {addr : Nat} (hd : mmuPdIndex addr < 1022)
    (hpresent : present (x.state.mem dir (mmuPdIndex addr)) = true) :
    ∀ a, a = dir ∨ a = x.state.cr3 → frameOf (x.state.mem dir (mmuPdIndex addr)) = a →
      mmuPtIndex addr ≠ mmuPdIndex addr ∧ mmuPtIndex addr ≠ 1023 := by
  have ht := h.table_role hdir hd hpresent
  intro a ha heq
  exfalso
  cases ha with
  | inl hadir => exact h.table_ne_dir hdir ht (heq.trans hadir)
  | inr hacr3 => exact h.table_ne_dir h.dirsOk.cr3 ht (heq.trans hacr3)

/-- The fault handler returns for no other page. -/
theorem fault_fetchable {addr : Nat} (hunmapped : translate x.state addr = none)
    {alloc : Fault → State → Option (Word × State)} (hfeeds : Feeds alloc)
    (hpos : 0 < x.state.framesIndex) {depth : Nat} {s' : State}
    (hr : int0E k alloc depth 0 addr x.state = some s') :
    ∃ dir ∈ x.dirs k, Recursive x.state dir ∧ Fetchable x addr dir := by
  have hd : mmuPdIndex addr < 1022 := by
    cases Nat.lt_or_ge (mmuPdIndex addr) 1022 with
    | inl hlow => exact hlow
    | inr hhigh =>
      rw [h.fault_only_below hunmapped hhigh] at hr
      exact absurd hr (by simp)
  obtain ⟨dir, hdir, hrec, hcases⟩ := h.table_cases hd
  cases hcases with
  | inl hzero =>
    rw [hrec.int0E_untabled hzero] at hr
    exact absurd hr (by simp)
  | inr hcase =>
    obtain ⟨hpresent, _, _⟩ := hcase
    have hondemand : x.state.mem (frameOf (x.state.mem dir (mmuPdIndex addr))) (mmuPtIndex addr) &&&
        mmuPageOndemand ≠ 0#32 := by
      intro hzero
      rw [hrec.int0E_halts hpresent hzero] at hr
      exact absurd hr (by simp)
    cases Classical.em (present (x.state.mem x.state.cr3 (mmuPdIndex addr)) = true ∧
        frameOf (x.state.mem x.state.cr3 (mmuPdIndex addr)) =
          frameOf (x.state.mem dir (mmuPdIndex addr))) with
    | inl hand => exact ⟨dir, hdir, hrec, hd, hpresent, hondemand, hand.1, hand.2⟩
    | inr hother =>
      rw [hrec.int0E_elsewhere hpresent (L.isFrame _ (h.top_mem hpos))
        (h.fault_keeps hdir hd hpresent) (h.alloc_eq hfeeds hpos) hunmapped hother] at hr
      exact absurd hr (by simp)

theorem fault_put {addr : Nat} {alloc : Fault → State → Option (Word × State)}
    (hfeeds : Feeds alloc) (hpos : 0 < x.state.framesIndex) {dir : Word} (hdir : dir ∈ x.dirs k)
    (hrec : Recursive x.state dir) (hfetch : Fetchable x addr dir) (depth : Nat) :
    int0E k alloc (depth + 1) 0 addr x.state = some (putInto k dir addr (top k x.state)
      { x.state with framesIndex := x.state.framesIndex - 1 }) :=
  hrec.int0E_putInto hfetch.present_pde (L.isFrame _ (h.top_mem hpos))
    (h.fault_keeps hdir hfetch.below hfetch.present_pde) (h.alloc_eq hfeeds hpos) hfetch.active
    hfetch.same (h.top_ne_dir hpos hdir) (h.top_ne_dir hpos h.dirsOk.cr3) hfetch.ondemand depth

/-- Where the fault handler returns while the pool is not empty, it has put the frame on top of
the pool behind an on-demand entry. -/
theorem fault_cases {addr : Nat} (hunmapped : translate x.state addr = none)
    {alloc : Fault → State → Option (Word × State)} (hfeeds : Feeds alloc)
    (hpos : 0 < x.state.framesIndex) {depth : Nat} {s' : State}
    (hr : int0E k alloc depth 0 addr x.state = some s') :
    ∃ dir ∈ x.dirs k, Recursive x.state dir ∧ ∃ t, (role t).IsTable ∧ mmuPdIndex addr < 1022 ∧
      slot x.state addr = some (t, mmuPtIndex addr) ∧
      present (x.state.mem dir (mmuPdIndex addr)) = true ∧
      frameOf (x.state.mem dir (mmuPdIndex addr)) = t ∧
      present (x.state.mem t (mmuPtIndex addr)) = false ∧
      s' = putInto k dir addr (top k x.state)
        { x.state with framesIndex := x.state.framesIndex - 1 } := by
  obtain ⟨dir, hdir, hrec, hfetch⟩ := h.fault_fetchable hunmapped hfeeds hpos hr
  have ht := h.table_role hdir hfetch.below hfetch.present_pde
  have habsent : present (x.state.mem (frameOf (x.state.mem dir (mmuPdIndex addr)))
      (mmuPtIndex addr)) = false := by
    cases hcase : present (x.state.mem (frameOf (x.state.mem dir (mmuPdIndex addr)))
      (mmuPtIndex addr)) with
    | false => rfl
    | true => exact absurd (h.tables.installed _ _ ht (mmuPtIndex_lt addr) hcase) hfetch.ondemand
  refine ⟨dir, hdir, hrec, _, ht, hfetch.below, hrec.translate_ptSlot_present hfetch.present_pde,
    hfetch.present_pde, rfl, habsent, ?_⟩
  cases depth with
  | zero => exact absurd hr (by simp [int0E])
  | succ depth =>
    rw [h.fault_put hfeeds hpos hdir hrec hfetch depth] at hr
    exact (Option.some.inj hr).symm

/-- On an empty pool the handler does not return. -/
theorem fault_pos {addr : Nat} (hunmapped : translate x.state addr = none) {depth : Nat}
    {s' : State} (hr : pageFaultFed k depth addr x.state = some s') : 0 < x.state.framesIndex := by
  cases Nat.eq_zero_or_pos x.state.framesIndex with
  | inr hpos => exact hpos
  | inl hempty =>
    exfalso
    unfold pageFaultFed at hr
    cases Nat.lt_or_ge (mmuPdIndex addr) 1022 with
    | inr hhigh =>
      rw [h.fault_only_below hunmapped hhigh] at hr
      exact absurd hr (by simp)
    | inl hd =>
      obtain ⟨dir, _, hrec, hcases⟩ := h.table_cases hd
      cases hcases with
      | inr hcase =>
        rw [hrec.int0E_starved hcase.1 (mmuAllocFed_empty hempty)] at hr
        exact absurd hr (by simp)
      | inl hzero =>
        rw [hrec.int0E_untabled hzero] at hr
        exact absurd hr (by simp)

theorem fault_roles {addr : Nat} (hunmapped : translate x.state addr = none) {depth : Nat}
    {s' : State} (hr : pageFaultFed k depth addr x.state = some s') :
    ∃ role', Roles L role' { x with state := s' } := by
  have hpos := h.fault_pos hunmapped hr
  obtain ⟨dir, hdir, _, t, ht, hd, hslot, hpresent, htable, habsent, heq⟩ :=
    h.fault_cases hunmapped feeds_mmuAllocFed hpos hr
  have hi := mmuPtIndex_lt addr
  have hframe := L.isFrame _ (h.top_mem hpos)
  have htop := h.top_role hpos
  have htne : t ≠ top k x.state := by
    intro heq'
    rw [heq', htop] at ht
    exact ht
  let f := top k x.state
  let role₁ := Function.update role f Role.loose
  have hloose : role₁ f = .loose := Function.update_self ..
  let role₂ := Function.update role₁ f (.page t (mmuPtIndex addr))
  have hpaged : role₂ f = .page t (mmuPtIndex addr) := Function.update_self ..
  let s₁ : State := { x.state with framesIndex := x.state.framesIndex - 1 }
  have hpopped : Roles L role₁ { x with state := s₁ } := h.pop hpos
  have hcast : Roles L role₂ { x with state := s₁ } := by
    refine hpopped.recast (by rw [hloose]; exact True.intro) (by rw [hloose]; simp) ?_ ?_
    · intro u j hpage
      rw [hloose] at hpage
      exact Role.noConfusion hpage
    · exact fun hcase => hcase.elim
  have htable₂ : (role₂ t).IsTable := by
    rw [show role₂ t = role t from
      (Function.update_of_ne htne _ _).trans (Function.update_of_ne htne _ _)]
    exact ht
  let w := f ||| (x.state.mem t (mmuPtIndex addr) &&& mmuProtMask) ||| mmuProtPresent
  have hwframe : frameOf w = f := frameOf_installed _ hframe
  have hset : ∀ g j, (s₁.set t (mmuPtIndex addr) w).mem g j =
      if g = t ∧ j = mmuPtIndex addr then w else s₁.mem g j := fun g j => rfl
  have hstored : Roles L role₂ { x with state := s₁.set t (mmuPtIndex addr) w } := by
    refine hcast.setPte htable₂ hi hset rfl rfl (fun _ _ _ => Iff.rfl) ?_ ?_ ?_
    · intro _ _
      rw [hwframe]
      exact hpaged
    · intro hfix
      have hold := (h.tables.fixedPages _ _ hfix).2.2.1
      rw [habsent] at hold
      exact Bool.noConfusion hold
    · intro _
      exact installed_not_ondemand _ hframe
  let s₂ := ((s₁.set t (mmuPtIndex addr) w).invlpg addr).zero f
  have hzeroed : Roles L role₂ { x with state := s₂ } := by
    refine hstored.write (f := f) (by rw [hpaged]; exact True.intro) ?_ rfl rfl
    intro g hg j
    exact zero_mem_frame _ _ hg j
  have hput : putInto k dir addr f s₁ =
      if 512 ≤ mmuPdIndex addr then s₂.set k.pd (mmuPdIndex addr)
        (x.state.mem dir (mmuPdIndex addr))
      else s₂ := by
    unfold putInto
    simp only [show s₁.mem = x.state.mem from rfl, htable]
    rfl
  rw [heq, hput]
  refine ⟨role₂, ?_⟩
  split
  · rename_i hkernel
    have hrole := h.dirsOk.tables dir hdir _ hd hpresent
    rw [htable] at hrole
    have hkept : role₂ t = role t :=
      (Function.update_of_ne htne _ _).trans (Function.update_of_ne htne _ _)
    refine hzeroed.setPde (List.mem_cons_self ..) (fun _ _ => rfl) rfl rfl hd hpresent ?_ ?_
    · rw [htable, hkept, hrole]
      unfold owner
      rw [if_neg (by omega), if_neg (by omega)]
    · intro h959
      cases Classical.em (x.clones = []) with
      | inl hnil => exact .inl hnil
      | inr hclones =>
        right
        have hne := h.table_ne_dir (List.mem_cons_self ..) ht
        have hpd := h.top_ne_dir hpos (List.mem_cons_self ..)
        have hkeptPd : s₂.mem k.pd 959 = x.state.mem k.pd 959 :=
          (zero_mem_frame _ _ hpd.symm _).trans (set_mem_frame _ _ _ _ hne.symm _)
        rw [hkeptPd, h959]
        cases List.mem_cons.1 hdir with
        | inl hdpd => rw [hdpd]
        | inr hclone => exact (h.dirsOk.clondpd hclones).2 dir hclone
  · exact hzeroed

end Roles

end OsdevCourse.Mmu
