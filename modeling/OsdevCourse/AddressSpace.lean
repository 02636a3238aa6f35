import OsdevCourse.MmuSpaceRuns

/-!
# The pages of the active directory

Where the windows show the active directory, the page tables are a function from pages to
entries, and the memory manager changes it a page at a time: `mmu_mark` writes the entry of its
page, and so does the fault that brings a page in. A page table is a page of this function too,
so the table that `mmu_mark` makes is a page it marks and the fault on it another page brought
in. This holds for every page but the last, the page of the directory itself.
-/

namespace OsdevCourse.Mmu

set_option autoImplicit false

open PageEntry

/-- The page table entry of an address, zero where the page table is missing. -/
def entry (s : State) (addr : Nat) : Word :=
  if present (s.mem s.cr3 (mmuPdIndex addr)) then
    s.mem (frameOf (s.mem s.cr3 (mmuPdIndex addr))) (mmuPtIndex addr)
  else 0#32

theorem entry_present {s : State} {addr : Nat}
    (hpde : present (s.mem s.cr3 (mmuPdIndex addr)) = true) :
    entry s addr = s.mem (frameOf (s.mem s.cr3 (mmuPdIndex addr))) (mmuPtIndex addr) := if_pos hpde

theorem entry_absent {s : State} {addr : Nat}
    (hpde : present (s.mem s.cr3 (mmuPdIndex addr)) = false) : entry s addr = 0#32 := by
  unfold entry
  rw [hpde]
  rfl

def SamePage (addr addr' : Nat) : Prop :=
  mmuPdIndex addr = mmuPdIndex addr' ∧ mmuPtIndex addr = mmuPtIndex addr'

instance (addr addr' : Nat) : Decidable (SamePage addr addr') :=
  inferInstanceAs (Decidable (_ ∧ _))

/-- The last page is the directory's own. -/
def LastPage (addr : Nat) : Prop := mmuPdIndex addr = 1023 ∧ mmuPtIndex addr = 1023

/-- The page can be touched, and it has the protection of the flags. -/
def MarkedWith (flag e : Word) : Prop :=
  (present e = true ∨ e &&& mmuPageOndemand ≠ 0#32) ∧ e &&& mmuProtMask = flag &&& mmuProtMask

/-- The role of what an entry of the directory refers to. -/
def tableRole (k : Kernel) (dir : Word) (d : Nat) : Role :=
  if d < 1022 then .table (owner k dir d) d else if d = 1022 then .poolTable else .directory

/-- The role of the frame behind an entry of the table of the directory entry `d`. -/
def pageRole (k : Kernel) (dir t : Word) (d i : Nat) : Role :=
  if d < 1022 then .page t i else if d = 1022 then .backing i else tableRole k dir i

theorem tableRole_inj {k : Kernel} {dir : Word} {d d' : Nat} (hd : d < 1024) (hd' : d' < 1024)
    (h : tableRole k dir d = tableRole k dir d') : d = d' := by
  unfold tableRole at h
  split at h
  · split at h
    · exact (Role.table.inj h).2
    · split at h <;> exact Role.noConfusion h
  · split at h
    · split at h
      · exact Role.noConfusion h
      · split at h
        · omega
        · exact Role.noConfusion h
    · split at h
      · exact Role.noConfusion h
      · split at h
        · exact Role.noConfusion h
        · omega

theorem tableRole_ne_backing {k : Kernel} {dir : Word} {d j : Nat} :
    tableRole k dir d ≠ .backing j := by
  unfold tableRole
  intro h
  split at h
  · exact Role.noConfusion h
  · split at h <;> exact Role.noConfusion h

theorem tableRole_ne_pool {k : Kernel} {dir : Word} {d i : Nat} : tableRole k dir d ≠ .pool i := by
  unfold tableRole
  intro h
  split at h
  · exact Role.noConfusion h
  · split at h <;> exact Role.noConfusion h

theorem tableRole_last {k : Kernel} {dir : Word} : tableRole k dir 1023 = .directory := rfl

/-- What the memory manager goes through under the active directory. -/
structure ActiveSpace (k : Kernel) (role : Word → Role) (s : State) : Prop where
  self : SelfMapped s
  kernel : role k.pd = .directory
  tables : ∀ d < 1024, present (s.mem s.cr3 d) = true →
    role (frameOf (s.mem s.cr3 d)) = tableRole k s.cr3 d
  poolPresent : present (s.mem s.cr3 1022) = true
  poolEntry : frameOf (s.mem s.cr3 1022) = k.framepoolPt
  backing : ∀ j < 1024, present (s.mem k.framepoolPt j) = true →
    role (frameOf (s.mem k.framepoolPt j)) = .backing j
  slotPage : ∀ i < s.framesIndex, present (s.mem k.framepoolPt (i / 1024)) = true
  slotFrame : ∀ i < s.framesIndex, IsFrame (poolWord k s i) ∧ role (poolWord k s i) = .pool i
  index : s.framesIndex ≤ 2 ^ 20

/-- The roles of all frames give those under a directory that its windows show. -/
theorem Roles.activeSpace {k : Kernel} {L : Pool k} {role : Word → Role} {x : Spaces}
    (h : Roles L role x) (hself : frameOf (x.state.mem x.state.cr3 1023) = x.state.cr3) :
    ActiveSpace k role x.state := by
  obtain ⟨dir, hdir, hrec, _⟩ := h.recursive
  have hle := h.framesIndex_le
  have hpool := h.active_pool
  refine ⟨⟨hrec.last, hself⟩, h.named.pd, ?_, ?_, ?_, ?_, ?_, ?_, h.framesIndex_le_pow⟩
  · intro d hd hpresent
    unfold tableRole
    split
    · rename_i hlow
      exact h.dirsOk.tables _ h.dirsOk.cr3 d hlow hpresent
    · split
      · rename_i hmiddle
        rw [hmiddle, hpool, frameOf_static k.isFrame_framepoolPt]
        exact h.named.poolPt
      · have hlast : d = 1023 := by omega
        rw [hlast, hself]
        exact h.named.dir h.dirsOk.cr3
  · rw [hpool]
    exact present_static k.isFrame_framepoolPt
  · rw [hpool]
    exact frameOf_static k.isFrame_framepoolPt
  · intro j hj hpresent
    rw [h.slots.poolTable] at hpresent ⊢
    exact h.named.backing j hj hpresent
  · intro i hi
    exact h.pool_present (by omega)
  · intro i hi
    exact ⟨L.isFrame _ (h.slot_mem hi), h.slots.inPool i hi⟩

namespace ActiveSpace
variable {k : Kernel} {role : Word → Role} {s : State} (h : ActiveSpace k role s)
include h

theorem active : role s.cr3 = .directory := by
  have hrole := h.tables 1023 (by omega) h.self.1
  rw [h.self.2] at hrole
  exact hrole

theorem poolPt : role k.framepoolPt = .poolTable := by
  have hrole := h.tables 1022 (by omega) h.poolPresent
  rw [h.poolEntry] at hrole
  exact hrole

theorem tables_inj {d d' : Nat} (hd : d < 1024) (hd' : d' < 1024)
    (hpresent : present (s.mem s.cr3 d) = true) (hpresent' : present (s.mem s.cr3 d') = true)
    (heq : frameOf (s.mem s.cr3 d) = frameOf (s.mem s.cr3 d')) : d = d' := by
  have hrole := h.tables d hd hpresent
  rw [heq, h.tables d' hd' hpresent'] at hrole
  exact (tableRole_inj hd' hd hrole).symm

theorem table_ne_active {d : Nat} (hd : d < 1023) (hpresent : present (s.mem s.cr3 d) = true) :
    frameOf (s.mem s.cr3 d) ≠ s.cr3 := by
  intro heq
  have hlast := h.tables_inj (by omega) (by omega) hpresent h.self.1 (heq.trans h.self.2.symm)
  omega

theorem poolPage_role {i : Nat} (hi : i < s.framesIndex) :
    role (poolPage k s (i / 1024)) = .backing (i / 1024) := by
  have hle := h.index
  exact h.backing _ (by omega) (h.slotPage i hi)

/-- The frame on top of the pool is none of those the memory manager goes through. -/
theorem top_pool (hpos : 0 < s.framesIndex) :
    IsFrame (top k s) ∧ role (top k s) = .pool (s.framesIndex - 1) :=
  h.slotFrame _ (by omega)

theorem alloc_eq (hpos : 0 < s.framesIndex) (fault : Fault) :
    mmuAlloc fault s = some (top k s, { s with framesIndex := s.framesIndex - 1 }) :=
  mmuAlloc_of hpos h.index h.poolPresent h.poolEntry (h.slotPage _ (by omega))

end ActiveSpace

/-! ### Changes of an entry -/

section Changes
variable {k : Kernel} {role : Word → Role} {s : State} (h : ActiveSpace k role s)
include h

theorem ActiveSpace.entry_changed {s' : State} (hcr3 : s'.cr3 = s.cr3) {addr : Nat} {w : Word}
    (hpde : present (s.mem s.cr3 (mmuPdIndex addr)) = true)
    (hlast : LastPage addr → present w = true)
    (hmem : ∀ d < 1024, present (s.mem s.cr3 d) = true → ∀ j, s'.mem (frameOf (s.mem s.cr3 d)) j =
        if d = mmuPdIndex addr ∧ j = mmuPtIndex addr then w
        else s.mem (frameOf (s.mem s.cr3 d)) j)
    (hplace : mmuPdIndex addr = 1023 → present w = true →
      (present (s.mem s.cr3 (mmuPtIndex addr)) = true ∧
        frameOf w = frameOf (s.mem s.cr3 (mmuPtIndex addr))) ∨
      present (s.mem s.cr3 (mmuPtIndex addr)) = false ∧ ∀ j, s'.mem (frameOf w) j = 0#32)
    (hkept : mmuPdIndex addr = 1023 → present w = false →
      present (s.mem s.cr3 (mmuPtIndex addr)) = false) (other : Nat) :
    entry s' other = if SamePage other addr then w else entry s other := by
  have hd := mmuPdIndex_lt other
  have hi := mmuPtIndex_lt addr
  have hself : ∀ j, s'.mem s.cr3 j =
      if mmuPdIndex addr = 1023 ∧ j = mmuPtIndex addr then w else s.mem s.cr3 j := by
    intro j
    have hword := hmem 1023 (by omega) h.self.1 j
    rw [h.self.2] at hword
    rw [hword]
    simp only [eq_comm (a := 1023)]
  cases Classical.em (mmuPdIndex addr = 1023 ∧ mmuPdIndex other = mmuPtIndex addr) with
  | inr hother =>
    -- The directory entry of the other page is the old one.
    have hold : s'.mem s'.cr3 (mmuPdIndex other) = s.mem s.cr3 (mmuPdIndex other) := by
      rw [hcr3, hself]
      exact if_neg hother
    cases hpresent : present (s.mem s.cr3 (mmuPdIndex other)) with
    | true =>
      rw [entry_present (hold ▸ hpresent), entry_present hpresent, hold]
      exact hmem _ hd hpresent _
    | false =>
      have hnot : ¬ SamePage other addr := by
        intro hsame
        rw [hsame.1, hpde] at hpresent
        exact absurd hpresent (by simp)
      rw [entry_absent (hold ▸ hpresent), entry_absent hpresent, if_neg hnot]
  | inl hother =>
    -- The entry is the directory entry of the other page.
    obtain ⟨hwindow, htable⟩ := hother
    have hnew : s'.mem s'.cr3 (mmuPdIndex other) = w := by
      rw [hcr3, hself]
      exact if_pos ⟨hwindow, htable⟩
    cases hpresent : present w with
    | true =>
      rw [entry_present (hnew ▸ hpresent), hnew]
      rcases hplace hwindow hpresent with ⟨hold, hframe⟩ | ⟨hold, hzero⟩
      · rw [← htable] at hold hframe
        rw [entry_present hold, hframe, hmem _ hd hold]
        rfl
      · have hne : mmuPdIndex other ≠ mmuPdIndex addr := by
          intro heq
          rw [← htable, heq, hpde] at hold
          exact absurd hold (by simp)
        rw [← htable] at hold
        rw [entry_absent hold, if_neg fun hsame => hne hsame.1]
        exact hzero _
    | false =>
      have hne : mmuPdIndex other ≠ mmuPdIndex addr := by
        intro heq
        have hold := hlast ⟨hwindow, by omega⟩
        rw [hpresent] at hold
        exact absurd hold (by simp)
      have hold := hkept hwindow hpresent
      rw [← htable] at hold
      rw [entry_absent (hnew ▸ hpresent), entry_absent hold, if_neg fun hsame => hne hsame.1]

theorem ActiveSpace.edit_word {t : Word} {i : Nat} {w : Word} (ht : ∀ j, role t ≠ .backing j)
    (hframe : present (s.mem t i) = true → frameOf w = frameOf (s.mem t i)) {j : Nat}
    (hj : j < s.framesIndex) : poolWord k (s.set t i w) j = poolWord k s j := by
  have hpage : poolPage k (s.set t i w) (j / 1024) = poolPage k s (j / 1024) := by
    unfold poolPage
    rw [set_mem]
    split
    · rename_i hand
      obtain ⟨ht', hi⟩ := hand
      have hold := h.slotPage j hj
      rw [ht', hi] at hold ⊢
      exact hframe hold
    · rfl
  unfold poolWord
  rw [hpage]
  apply set_mem_frame
  intro heq
  apply ht (j / 1024)
  rw [← heq]
  exact h.poolPage_role hj

theorem ActiveSpace.edit {t : Word} {i : Nat} {w : Word} (ht : ∀ j, role t ≠ .backing j)
    (hpresent : present w = present (s.mem t i))
    (hframe : present w = true → frameOf w = frameOf (s.mem t i)) :
    ActiveSpace k role (s.set t i w) := by
  have hsame : ∀ g j, present ((s.set t i w).mem g j) = present (s.mem g j) := by
    intro g j
    rw [set_mem]
    split
    · rename_i hand
      rw [hpresent, hand.1, hand.2]
    · rfl
  have hplace : ∀ g j, present (s.mem g j) = true →
      frameOf ((s.set t i w).mem g j) = frameOf (s.mem g j) := by
    intro g j hold
    rw [set_mem]
    split
    · rename_i hand
      obtain ⟨hg, hj⟩ := hand
      subst hg hj
      exact hframe (hpresent.trans hold)
    · rfl
  refine ⟨⟨?_, ?_⟩, h.kernel, ?_, ?_, ?_, ?_, ?_, ?_, h.index⟩
  · exact (hsame _ _).trans h.self.1
  · exact (hplace _ _ h.self.1).trans h.self.2
  · intro d hd hnew
    have hold := (hsame _ _).symm.trans hnew
    exact (congrArg role (hplace _ _ hold)).trans (h.tables d hd hold)
  · exact (hsame _ _).trans h.poolPresent
  · exact (hplace _ _ h.poolPresent).trans h.poolEntry
  · intro j hj hnew
    have hold := (hsame _ _).symm.trans hnew
    rw [hplace _ _ hold]
    exact h.backing j hj hold
  · intro j hj
    exact (hsame _ _).trans (h.slotPage j hj)
  · intro j hj
    have hword := h.edit_word ht (fun hold => hframe (hpresent.trans hold)) hj
    rw [hword]
    exact h.slotFrame j hj

end Changes

/-! ### A page is brought in -/

section Fault
variable {k : Kernel} {s : State} {addr : Nat}

theorem faultIn_cr3 : (faultIn k addr s).cr3 = s.cr3 := by
  unfold faultIn
  split <;> rfl

theorem faultIn_framesIndex : (faultIn k addr s).framesIndex = s.framesIndex - 1 := by
  unfold faultIn
  split <;> rfl

theorem faultIn_mem (g : Word) (j : Nat) :
    (faultIn k addr s).mem g j =
      if 512 ≤ mmuPdIndex addr ∧ g = k.pd ∧ j = mmuPdIndex addr then
        s.mem s.cr3 (mmuPdIndex addr)
      else if g = top k s then 0#32
      else if g = frameOf (s.mem s.cr3 (mmuPdIndex addr)) ∧ j = mmuPtIndex addr then
        top k s ||| (s.mem (frameOf (s.mem s.cr3 (mmuPdIndex addr))) (mmuPtIndex addr) &&&
          mmuProtMask) ||| mmuProtPresent
      else s.mem g j :=
  putInto_mem k s.cr3 addr (top k s) { s with framesIndex := s.framesIndex - 1 } g j

/-- The entry of a page that has been brought in. -/
def pageEntry (k : Kernel) (s : State) (addr : Nat) : Word :=
  top k s ||| (entry s addr &&& mmuProtMask) ||| mmuProtPresent

namespace ActiveSpace
variable {role : Word → Role} (h : ActiveSpace k role s)
  (hpde : present (s.mem s.cr3 (mmuPdIndex addr)) = true)
  (habsent : present (entry s addr) = false)
include h hpde habsent

theorem absent_window (hwindow : mmuPdIndex addr = 1023) :
    present (s.mem s.cr3 (mmuPtIndex addr)) = false := by
  rw [entry_present hpde, hwindow, h.self.2] at habsent
  exact habsent

theorem absent_ne {d : Nat} (hpresent : present (s.mem s.cr3 d) = true) :
    ¬ (mmuPdIndex addr = 1023 ∧ d = mmuPtIndex addr) := by
  intro hand
  have hold := h.absent_window hpde habsent hand.1
  rw [← hand.2, hpresent] at hold
  exact absurd hold (by simp)

theorem fault_eq (hpos : 0 < s.framesIndex) (hmark : entry s addr &&& mmuPageOndemand ≠ 0#32)
    (depth : Nat) : pageFault k (depth + 1) addr s = some (faultIn k addr s) := by
  have hi := mmuPtIndex_lt addr
  have hd := mmuPdIndex_lt addr
  obtain ⟨hframe, htop⟩ := h.top_pool hpos
  have hcr3 : top k s ≠ s.cr3 := by
    intro heq
    rw [heq, h.active] at htop
    exact Role.noConfusion htop
  rw [entry_present hpde] at hmark
  refine int0E_putIn h.self hpde hframe hcr3 ?_ (h.alloc_eq hpos) hmark depth
  intro hself
  have hwindow := h.tables_inj hd (by omega) hpde h.self.1 (hself.trans h.self.2.symm)
  have hne := h.absent_ne hpde habsent h.self.1
  exact ⟨fun heq => hne ⟨hwindow, by omega⟩, fun heq => hne ⟨hwindow, heq.symm⟩⟩

variable (hpos : 0 < s.framesIndex)
include hpos

theorem faultIn_table {d : Nat} (hd : d < 1024) (hpresent : present (s.mem s.cr3 d) = true)
    (j : Nat) : (faultIn k addr s).mem (frameOf (s.mem s.cr3 d)) j =
      if d = mmuPdIndex addr ∧ j = mmuPtIndex addr then pageEntry k s addr
      else s.mem (frameOf (s.mem s.cr3 d)) j := by
  have haddr := mmuPdIndex_lt addr
  have htable := h.tables d hd hpresent
  obtain ⟨_, htop⟩ := h.top_pool hpos
  have hnew : frameOf (s.mem s.cr3 d) ≠ top k s := by
    intro heq
    rw [heq, htop] at htable
    exact tableRole_ne_pool htable.symm
  rw [faultIn_mem, if_neg hnew]
  unfold pageEntry
  rw [entry_present hpde]
  cases Classical.em (512 ≤ mmuPdIndex addr ∧ frameOf (s.mem s.cr3 d) = k.pd ∧ j = mmuPdIndex addr)
  with
  | inl hsync =>
    -- The directory is `MMU_PD`, and the handler writes the entry that is there.
    obtain ⟨hkernel, hpd, hj⟩ := hsync
    have hlast : d = 1023 := by
      apply tableRole_inj hd (by omega)
      rw [← htable, hpd, h.kernel]
      exact tableRole_last.symm
    have hne := h.absent_ne hpde habsent hpde
    have hcr3 : frameOf (s.mem s.cr3 d) = s.cr3 := by
      rw [hlast]
      exact h.self.2
    rw [if_pos ⟨hkernel, hpd, hj⟩, if_neg fun hand => hne ⟨by omega, by omega⟩, hcr3, hj]
  | inr hsync =>
    rw [if_neg hsync]
    cases Classical.em (d = mmuPdIndex addr ∧ j = mmuPtIndex addr) with
    | inl hsame => rw [if_pos hsame, if_pos ⟨by rw [hsame.1], hsame.2⟩]
    | inr hother =>
      rw [if_neg hother, if_neg]
      intro hand
      exact hother ⟨h.tables_inj hd haddr hpresent hpde hand.1, hand.2⟩

omit hpde habsent in
theorem faultIn_top (j : Nat) : (faultIn k addr s).mem (top k s) j = 0#32 := by
  obtain ⟨_, htop⟩ := h.top_pool hpos
  rw [faultIn_mem, if_neg, if_pos rfl]
  intro hand
  rw [hand.2.1, h.kernel] at htop
  exact Role.noConfusion htop

omit habsent in
theorem faultIn_backing {g : Word} {n : Nat} (hg : role g = .backing n) (j : Nat) :
    (faultIn k addr s).mem g j = s.mem g j := by
  obtain ⟨_, htop⟩ := h.top_pool hpos
  have htable := h.tables _ (mmuPdIndex_lt addr) hpde
  rw [faultIn_mem, if_neg, if_neg, if_neg]
  · intro hand
    rw [← hand.1, hg] at htable
    exact tableRole_ne_backing htable.symm
  · intro heq
    rw [← heq, hg] at htop
    exact Role.noConfusion htop
  · intro hand
    rw [hand.2.1, h.kernel] at hg
    exact Role.noConfusion hg

theorem faultIn_entry (other : Nat) : entry (faultIn k addr s) other =
    if SamePage other addr then pageEntry k s addr else entry s other := by
  obtain ⟨hframe, _⟩ := h.top_pool hpos
  have hplace : frameOf (pageEntry k s addr) = top k s := frameOf_installed _ hframe
  have hpresent : present (pageEntry k s addr) = true := present_installed _ _
  refine h.entry_changed faultIn_cr3 hpde (fun _ => hpresent) (fun d hd hpresent =>
    h.faultIn_table hpde habsent hpos hd hpresent) ?_ ?_ other
  · intro hwindow _
    right
    refine ⟨h.absent_window hpde habsent hwindow, ?_⟩
    rw [hplace]
    exact h.faultIn_top hpos
  · intro hwindow _
    exact h.absent_window hpde habsent hwindow

/-- A page that is brought in keeps the space, with another role for its frame. -/
theorem faultIn_space : ActiveSpace k (Function.update role (top k s)
    (pageRole k s.cr3 (frameOf (s.mem s.cr3 (mmuPdIndex addr))) (mmuPdIndex addr)
    (mmuPtIndex addr)))
    (faultIn k addr s) := by
  have hd := mmuPdIndex_lt addr
  obtain ⟨hframe, htop⟩ := h.top_pool hpos
  have hplace : frameOf (pageEntry k s addr) = top k s := frameOf_installed _ hframe
  have hpresent : present (pageEntry k s addr) = true := present_installed _ _
  have hwords := fun d hd hpresent => h.faultIn_table hpde habsent hpos (d := d) hd hpresent
  have hself : ∀ j, (faultIn k addr s).mem s.cr3 j =
      if 1023 = mmuPdIndex addr ∧ j = mmuPtIndex addr then pageEntry k s addr
      else s.mem s.cr3 j := by
    have hword := hwords 1023 (by omega) h.self.1
    rw [h.self.2] at hword
    exact hword
  have hpool : ∀ j, (faultIn k addr s).mem k.framepoolPt j =
      if 1022 = mmuPdIndex addr ∧ j = mmuPtIndex addr then pageEntry k s addr
      else s.mem k.framepoolPt j := by
    have hword := hwords 1022 (by omega) h.poolPresent
    rw [h.poolEntry] at hword
    exact hword
  have hselfKept : ∀ j, present (s.mem s.cr3 j) = true →
      (faultIn k addr s).mem s.cr3 j = s.mem s.cr3 j := by
    intro j hold
    rw [hself, if_neg]
    intro hand
    exact h.absent_ne hpde habsent hold ⟨hand.1.symm, hand.2⟩
  have hpoolKept : ∀ j, present (s.mem k.framepoolPt j) = true →
      (faultIn k addr s).mem k.framepoolPt j = s.mem k.framepoolPt j := by
    intro j hold
    rw [hpool, if_neg]
    intro hand
    rw [entry_present hpde, ← hand.1, ← hand.2, h.poolEntry, hold] at habsent
    exact absurd habsent (by simp)
  have hother : ∀ g, role g ≠ .pool (s.framesIndex - 1) → ∀ r,
      Function.update role (top k s) r g = role g := by
    intro g hg r
    apply Function.update_of_ne
    intro heq
    rw [heq] at hg
    exact hg htop
  have hslot : ∀ i < s.framesIndex - 1, poolWord k (faultIn k addr s) i = poolWord k s i := by
    intro i hi
    have hpage : poolPage k (faultIn k addr s) (i / 1024) = poolPage k s (i / 1024) := by
      unfold poolPage
      rw [hpoolKept _ (h.slotPage i (by omega))]
    unfold poolWord
    rw [hpage]
    exact h.faultIn_backing hpde hpos (h.poolPage_role (by omega)) _
  refine ⟨⟨?_, ?_⟩, ?_, ?_, ?_, ?_, ?_, ?_, ?_, ?_⟩
  · rw [faultIn_cr3, hselfKept _ h.self.1]
    exact h.self.1
  · rw [faultIn_cr3, hselfKept _ h.self.1]
    exact h.self.2
  · rw [hother _ (by rw [h.kernel]; simp)]
    exact h.kernel
  · intro d hd' hnew
    rw [faultIn_cr3, hself] at hnew ⊢
    split at hnew
    · rename_i hand
      rw [if_pos hand, hplace, Function.update_self, ← hand.1, ← hand.2]
      rfl
    · rename_i hnot
      have hrole := h.tables d hd' hnew
      rw [if_neg hnot, hother _ (by rw [hrole]; exact tableRole_ne_pool)]
      exact hrole
  · rw [faultIn_cr3, hselfKept _ h.poolPresent]
    exact h.poolPresent
  · rw [faultIn_cr3, hselfKept _ h.poolPresent]
    exact h.poolEntry
  · intro j hj hnew
    rw [hpool] at hnew ⊢
    split at hnew
    · rename_i hand
      rw [if_pos hand, hplace, Function.update_self, ← hand.1, ← hand.2]
      rfl
    · rename_i hnot
      have hrole := h.backing j hj hnew
      rw [if_neg hnot, hother _ (by rw [hrole]; simp)]
      exact hrole
  · intro i hi
    rw [faultIn_framesIndex] at hi
    have hold := h.slotPage i (by omega)
    rw [hpoolKept _ hold]
    exact hold
  · intro i hi
    rw [faultIn_framesIndex] at hi
    obtain ⟨hisFrame, hrole⟩ := h.slotFrame i (by omega)
    rw [hslot i hi, hother]
    · exact ⟨hisFrame, hrole⟩
    · rw [hrole]
      intro heq
      have hindex := Role.pool.inj heq
      omega
  · rw [faultIn_framesIndex]
    have hle := h.index
    omega

end ActiveSpace

end Fault

/-! ### Protection bits -/

theorem installed_prot {f : Word} (hf : IsFrame f) (e : Word) :
    (f ||| (e &&& mmuProtMask) ||| mmuProtPresent) &&& mmuProtMask = e &&& mmuProtMask := by
  have hmask : IsFlags mmuProtMask := by decide
  have hpresent : mmuProtPresent &&& mmuProtMask = 0#32 := by decide
  rw [BitVec.and_or_distrib_right, BitVec.and_or_distrib_right, isFrame_and_flags hf hmask,
    BitVec.zero_or, hpresent, BitVec.or_zero, BitVec.and_assoc, BitVec.and_self]

theorem MarkedWith.installed {f e flag : Word} (hf : IsFrame f) (h : MarkedWith flag e) :
    MarkedWith flag (f ||| (e &&& mmuProtMask) ||| mmuProtPresent) := by
  refine ⟨.inl (present_installed _ _), ?_⟩
  rw [installed_prot hf]
  exact h.2

theorem markedWith_demand (flag : Word) :
    MarkedWith flag (mmuPageOndemand ||| (flag &&& mmuProtMask)) := by
  have hdemand : mmuPageOndemand &&& mmuProtMask = 0#32 := by decide
  constructor
  · right
    intro hzero
    rw [BitVec.and_or_distrib_right] at hzero
    have hbit := congrArg (fun w => w &&& mmuPageOndemand) hzero
    simp only [BitVec.and_or_distrib_right, BitVec.and_self, BitVec.zero_and] at hbit
    have hmask : mmuProtMask &&& mmuPageOndemand = 0#32 := by decide
    rw [BitVec.and_assoc flag, hmask, BitVec.and_zero, BitVec.zero_and, BitVec.or_zero] at hbit
    exact absurd hbit (by decide)
  · rw [BitVec.and_or_distrib_right, hdemand, BitVec.zero_or, BitVec.and_assoc, BitVec.and_self]

theorem markedWith_reprotected {e : Word} (flag : Word) (he : present e = true) :
    MarkedWith flag ((e &&& ~~~mmuProtMask) ||| (flag &&& mmuProtMask)) := by
  have hclear : ~~~mmuProtMask &&& mmuProtMask = 0#32 := by decide
  constructor
  · left
    rw [present_reprotected]
    exact he
  · rw [BitVec.and_or_distrib_right, BitVec.and_assoc, hclear, BitVec.and_zero, BitVec.zero_or,
      BitVec.and_assoc, BitVec.and_self]

/-! ### `mmu_mark` -/

/-- What `mmu_mark` of a page does to the entries. -/
structure MarkedPages (addr : Nat) (flag : Word) (s s' : State) : Prop where
  cr3 : s'.cr3 = s.cr3
  index : s'.framesIndex + (if present (s.mem s.cr3 (mmuPdIndex addr)) then 0 else 1) =
    s.framesIndex
  table : present (entry s' (ptSlot addr)) = true
  page : MarkedWith flag (entry s' addr)
  others : ∀ other, ¬ SamePage other addr → ¬ SamePage other (ptSlot addr) →
    entry s' other = entry s other
  kept : ∀ other, present (entry s other) = true →
    present (entry s' other) = true ∧ frameOf (entry s' other) = frameOf (entry s other)
  marks : ∀ other prot, ¬ SamePage other addr → MarkedWith prot (entry s other) →
    MarkedWith prot (entry s' other)

/-- What seeing to the page table of an address does to the entries. -/
structure TableReady (addr : Nat) (s s' : State) : Prop where
  cr3 : s'.cr3 = s.cr3
  index : s'.framesIndex + (if present (s.mem s.cr3 (mmuPdIndex addr)) then 0 else 1) =
    s.framesIndex
  table : present (s'.mem s'.cr3 (mmuPdIndex addr)) = true
  others : ∀ other, ¬ SamePage other (ptSlot addr) → entry s' other = entry s other
  kept : ∀ other, present (entry s other) = true → entry s' other = entry s other
  marks : ∀ other prot, MarkedWith prot (entry s other) → MarkedWith prot (entry s' other)

theorem samePage_ptSlot {addr other : Nat} :
    SamePage other (ptSlot addr) ↔ mmuPdIndex other = 1023 ∧
      mmuPtIndex other = mmuPdIndex addr := by
  unfold SamePage
  rw [mmuPdIndex_ptSlot, mmuPtIndex_ptSlot]

theorem SelfMapped.entry_ptSlot {s : State} (h : SelfMapped s) (addr : Nat) :
    entry s (ptSlot addr) = s.mem s.cr3 (mmuPdIndex addr) := by
  have hpde : present (s.mem s.cr3 (mmuPdIndex (ptSlot addr))) = true := by
    rw [mmuPdIndex_ptSlot]
    exact h.1
  rw [entry_present hpde, mmuPdIndex_ptSlot, mmuPtIndex_ptSlot, h.2]

theorem entry_samePage {s : State} {addr other : Nat} (h : SamePage other addr) :
    entry s other = entry s addr := by
  unfold entry
  rw [h.1, h.2]

/-- `mmu_mark` of a page whose table is missing goes on where the fault on the table ends. -/
theorem markPte_faulted {fault : Fault} {addr : Nat} {s s' : State} {place : Word × Nat}
    (hunmapped : translate s (ptSlot addr) = none) (hfault : fault (ptSlot addr) s = some s')
    (hslot : translate s' (ptSlot addr) = some place) (paddr flag : Word) :
    markPte fault addr paddr flag s = markPte fault addr paddr flag s' := by
  unfold markPte
  rw [readWord_of_translate hslot, readWord_handled hunmapped hfault hslot]

/-- The directory entry is marked on demand where it is empty. -/
def tableDemanded (addr : Nat) (s : State) : State :=
  if s.mem s.cr3 (mmuPdIndex addr) &&& (mmuProtPresent ||| mmuPageOndemand) = 0#32 then
    s.set s.cr3 (mmuPdIndex addr) tableMark
  else s

theorem SelfMapped.mmuMark_eq {s : State} (h : SelfMapped s) (fault : Fault) (addr : Nat)
    (paddr flag : Word) :
    mmuMark fault addr paddr flag s = markPte fault addr paddr flag (tableDemanded addr s) := by
  unfold mmuMark tableDemanded tableMark
  simp only [readWord_of_translate (translate_pdSlot h addr),
    writeWord_of_translate (translate_pdSlot h addr), Option.bind_eq_bind, Option.bind_some]
  split
  · rfl
  · rfl

namespace ActiveSpace
variable {k : Kernel} {role : Word → Role} {s : State} (h : ActiveSpace k role s) {addr : Nat}
include h

/-- A store to the entry of a page, told by the tables of the directory. -/
theorem set_table (hpde : present (s.mem s.cr3 (mmuPdIndex addr)) = true) (w : Word) {d : Nat}
    (hd : d < 1024) (hpresent : present (s.mem s.cr3 d) = true) (j : Nat) :
    (s.set (frameOf (s.mem s.cr3 (mmuPdIndex addr))) (mmuPtIndex addr) w).mem
        (frameOf (s.mem s.cr3 d)) j =
      if d = mmuPdIndex addr ∧ j = mmuPtIndex addr then w
      else s.mem (frameOf (s.mem s.cr3 d)) j := by
  rw [set_mem]
  cases Classical.em (d = mmuPdIndex addr ∧ j = mmuPtIndex addr) with
  | inl hsame => rw [if_pos hsame, if_pos ⟨by rw [hsame.1], hsame.2⟩]
  | inr hother =>
    rw [if_neg hother, if_neg]
    intro hand
    exact hother ⟨h.tables_inj hd (mmuPdIndex_lt addr) hpresent hpde hand.1, hand.2⟩

theorem set_entry (hpde : present (s.mem s.cr3 (mmuPdIndex addr)) = true) {w : Word}
    (hpresent : present w = present (entry s addr))
    (hframe : present w = true → frameOf w = frameOf (entry s addr)) :
    ActiveSpace k role (s.set (frameOf (s.mem s.cr3 (mmuPdIndex addr))) (mmuPtIndex addr) w) ∧
      ∀ other, entry (s.set (frameOf (s.mem s.cr3 (mmuPdIndex addr))) (mmuPtIndex addr) w) other =
        if SamePage other addr then w else entry s other := by
  have hd := mmuPdIndex_lt addr
  have htable := h.tables _ hd hpde
  have hwindow : mmuPdIndex addr = 1023 →
      entry s addr = s.mem s.cr3 (mmuPtIndex addr) := by
    intro heq
    rw [entry_present hpde, heq, h.self.2]
  refine ⟨?_, ?_⟩
  · rw [entry_present hpde] at hpresent hframe
    refine h.edit ?_ hpresent hframe
    intro j heq
    rw [heq] at htable
    exact tableRole_ne_backing htable.symm
  · have hcr3 : (s.set (frameOf (s.mem s.cr3 (mmuPdIndex addr))) (mmuPtIndex addr) w).cr3 =
        s.cr3 := rfl
    refine h.entry_changed hcr3 hpde ?_ ?_ ?_ ?_
    · intro hlast
      rw [hpresent, hwindow hlast.1, hlast.2]
      exact h.self.1
    · exact fun d hd' hold j => h.set_table hpde w hd' hold j
    · intro heq hnew
      left
      rw [← hwindow heq, ← hpresent]
      exact ⟨hnew, hframe hnew⟩
    · intro heq hnew
      rw [← hwindow heq, ← hpresent]
      exact hnew

theorem set_entry_word (hpde : present (s.mem s.cr3 (mmuPdIndex addr)) = true) {w : Word}
    (hframe : present (entry s addr) = true → frameOf w = frameOf (entry s addr)) {j : Nat}
    (hj : j < s.framesIndex) :
    poolWord k (s.set (frameOf (s.mem s.cr3 (mmuPdIndex addr))) (mmuPtIndex addr) w) j =
      poolWord k s j := by
  have htable := h.tables _ (mmuPdIndex_lt addr) hpde
  rw [entry_present hpde] at hframe
  refine h.edit_word ?_ hframe hj
  intro i heq
  rw [heq] at htable
  exact tableRole_ne_backing htable.symm

theorem set_page (hlow : mmuPdIndex addr < 1022)
    (hpde : present (s.mem s.cr3 (mmuPdIndex addr)) = true) (w : Word) :
    ActiveSpace k role (s.set (frameOf (s.mem s.cr3 (mmuPdIndex addr))) (mmuPtIndex addr) w) ∧
      ∀ other, entry (s.set (frameOf (s.mem s.cr3 (mmuPdIndex addr))) (mmuPtIndex addr) w) other =
        if SamePage other addr then w else entry s other := by
  have htable : role (frameOf (s.mem s.cr3 (mmuPdIndex addr))) =
      .table (owner k s.cr3 (mmuPdIndex addr)) (mmuPdIndex addr) := by
    rw [h.tables _ (mmuPdIndex_lt addr) hpde]
    exact if_pos hlow
  have hframe : ∀ g, role g ≠ .table (owner k s.cr3 (mmuPdIndex addr)) (mmuPdIndex addr) → ∀ j,
      (s.set (frameOf (s.mem s.cr3 (mmuPdIndex addr))) (mmuPtIndex addr) w).mem g j =
        s.mem g j := by
    intro g hg
    apply set_mem_frame
    intro heq
    rw [heq] at hg
    exact hg htable
  have hactive := hframe s.cr3 (by rw [h.active]; simp)
  have hpoolPt := hframe k.framepoolPt (by rw [h.poolPt]; simp)
  have hword : ∀ i < s.framesIndex,
      poolWord k (s.set (frameOf (s.mem s.cr3 (mmuPdIndex addr))) (mmuPtIndex addr) w) i =
        poolWord k s i := by
    intro i hi
    have hrole := h.poolPage_role hi
    unfold poolWord poolPage at *
    rw [hpoolPt]
    exact hframe _ (by rw [hrole]; simp) _
  refine ⟨⟨⟨?_, ?_⟩, h.kernel, ?_, ?_, ?_, ?_, ?_, ?_, h.index⟩, ?_⟩
  · exact (congrArg present (hactive 1023)).trans h.self.1
  · exact (congrArg frameOf (hactive 1023)).trans h.self.2
  · intro d hd hnew
    have heq := hactive d
    exact (congrArg (fun e => role (frameOf e)) heq).trans
      (h.tables d hd ((congrArg present heq).symm.trans hnew))
  · exact (congrArg present (hactive 1022)).trans h.poolPresent
  · exact (congrArg frameOf (hactive 1022)).trans h.poolEntry
  · intro j hj hnew
    rw [hpoolPt] at hnew ⊢
    exact h.backing j hj hnew
  · intro i hi
    rw [hpoolPt]
    exact h.slotPage i hi
  · intro i hi
    rw [hword i hi]
    exact h.slotFrame i hi
  · have hcr3 : (s.set (frameOf (s.mem s.cr3 (mmuPdIndex addr))) (mmuPtIndex addr) w).cr3 =
        s.cr3 := rfl
    apply h.entry_changed hcr3 hpde
    · intro hlast
      exact absurd hlast.1 (by omega)
    · exact fun d hd hold j => h.set_table hpde w hd hold j
    · intro hwindow
      omega
    · intro hwindow
      omega

theorem markPte_present (hpde : present (s.mem s.cr3 (mmuPdIndex addr)) = true) {flag : Word}
    (hflag : flag &&& mmuPageNoalloc = 0#32) (fault : Fault) (paddr : Word) :
    ∃ w, markPte fault addr paddr flag s =
        some (true, s.set (frameOf (s.mem s.cr3 (mmuPdIndex addr))) (mmuPtIndex addr) w) ∧
      MarkedWith flag w ∧ present w = present (entry s addr) ∧
      (present (entry s addr) = true → frameOf w = frameOf (entry s addr)) := by
  have hmark := markPte_eq fault paddr flag h.self hpde
  have hentry := entry_present hpde
  cases hpresent : present (entry s addr) with
  | false =>
    rw [hentry] at hpresent
    rw [marked_demand hpresent hflag] at hmark
    exact ⟨_, hmark, markedWith_demand flag, not_present_ondemand _, by simp⟩
  | true =>
    have hold := hpresent
    rw [hentry] at hold
    rw [marked_reprotected hold hflag, ← hentry] at hmark
    exact ⟨_, hmark, markedWith_reprotected flag hpresent,
      (present_reprotected (entry s addr) flag).trans hpresent,
      fun _ => frameOf_reprotected (entry s addr) flag⟩

/-- The directory entry of a missing page table is on demand when the table is used. -/
theorem demanded (hpde : present (s.mem s.cr3 (mmuPdIndex addr)) = false) :
    ActiveSpace k role (tableDemanded addr s) ∧ (tableDemanded addr s).cr3 = s.cr3 ∧
      (tableDemanded addr s).framesIndex = s.framesIndex ∧
      present (entry (tableDemanded addr s) (ptSlot addr)) = false ∧
      entry (tableDemanded addr s) (ptSlot addr) &&& mmuPageOndemand ≠ 0#32 ∧
      (∀ other, ¬ SamePage other (ptSlot addr) →
        entry (tableDemanded addr s) other = entry s other) ∧
      ∀ prot, MarkedWith prot (entry s (ptSlot addr)) →
        MarkedWith prot (entry (tableDemanded addr s) (ptSlot addr)) := by
  have hslot := h.self.entry_ptSlot addr
  cases Classical.em (s.mem s.cr3 (mmuPdIndex addr) &&& (mmuProtPresent ||| mmuPageOndemand) =
      0#32) with
  | inl hempty =>
    have heq : tableDemanded addr s = s.set s.cr3 (mmuPdIndex addr) tableMark := if_pos hempty
    have hwindow : present (s.mem s.cr3 (mmuPdIndex (ptSlot addr))) = true := by
      rw [mmuPdIndex_ptSlot]
      exact h.self.1
    have hnew : present tableMark = false := by decide
    obtain ⟨hspace, hentries⟩ := h.set_entry hwindow (w := tableMark)
      (by rw [hnew, hslot, hpde]) (by rw [hnew]; simp)
    rw [mmuPdIndex_ptSlot, mmuPtIndex_ptSlot, h.self.2, ← heq] at hspace hentries
    have hmark : entry (tableDemanded addr s) (ptSlot addr) = tableMark := by
      rw [hentries]
      exact if_pos ⟨rfl, rfl⟩
    refine ⟨hspace, by rw [heq]; rfl, by rw [heq]; rfl, by rw [hmark]; exact hnew,
      by rw [hmark]; decide, ?_, ?_⟩
    · intro other hother
      rw [hentries, if_neg hother]
    · intro prot hmarked
      exfalso
      rw [hslot] at hmarked
      cases hmarked.1 with
      | inl hpresent =>
        rw [hpde] at hpresent
        exact absurd hpresent (by simp)
      | inr hdemand =>
        apply hdemand
        have hbit := congrArg (fun w => w &&& mmuPageOndemand) hempty
        have hmask : (mmuProtPresent ||| mmuPageOndemand) &&& mmuPageOndemand =
            mmuPageOndemand := by decide
        simp only [BitVec.and_assoc, hmask, BitVec.zero_and] at hbit
        exact hbit
  | inr hmarked =>
    have heq : tableDemanded addr s = s := if_neg hmarked
    rw [heq]
    refine ⟨h, rfl, rfl, by rw [hslot]; exact hpde, ?_, fun _ _ => rfl, fun _ hprot => hprot⟩
    intro hzero
    apply hmarked
    rw [hslot] at hzero
    rw [BitVec.and_or_distrib_left, hzero, BitVec.or_zero]
    exact (and_present_eq_zero _).2 hpde

/-- `mmu_mark` sees to the page table first, where a missing one finds a frame. -/
theorem table_ready (hroom : present (s.mem s.cr3 (mmuPdIndex addr)) = false → 0 < s.framesIndex)
    (depth : Nat) :
    ∃ role' s', (∀ paddr flag, mmuMark (pageFault k (depth + 1)) addr paddr flag s =
        markPte (pageFault k (depth + 1)) addr paddr flag s') ∧
      ActiveSpace k role' s' ∧ TableReady addr s s' := by
  have hslot := h.self.entry_ptSlot addr
  cases hpde : present (s.mem s.cr3 (mmuPdIndex addr)) with
  | true =>
    have hsame : tableDemanded addr s = s := by
      apply if_neg
      intro hzero
      have hbit := congrArg present hzero
      rw [present_and, hpde] at hbit
      exact absurd hbit (by decide)
    refine ⟨role, s, fun paddr flag => ?_, h, rfl, ?_, hpde, fun _ _ => rfl, fun _ _ => rfl,
      fun _ _ hmarked => hmarked⟩
    · rw [h.self.mmuMark_eq, hsame]
    · rw [hpde]
      rfl
  | false =>
    obtain ⟨hspace₀, hcr3₀, hindex₀, habsent, hdemand, hentries₀, hmarks₀⟩ := h.demanded hpde
    have hpos : 0 < (tableDemanded addr s).framesIndex := by
      rw [hindex₀]
      exact hroom hpde
    have hwindow : present ((tableDemanded addr s).mem (tableDemanded addr s).cr3
        (mmuPdIndex (ptSlot addr))) = true := by
      rw [mmuPdIndex_ptSlot]
      exact hspace₀.self.1
    have hfault := hspace₀.fault_eq hwindow habsent hpos hdemand depth
    have hspace₁ := hspace₀.faultIn_space hwindow habsent hpos
    have hentries₁ := hspace₀.faultIn_entry hwindow habsent hpos
    obtain ⟨hisFrame, _⟩ := hspace₀.top_pool hpos
    have htable : present (entry (faultIn k (ptSlot addr) (tableDemanded addr s)) (ptSlot addr)) =
        true := by
      rw [hentries₁, if_pos ⟨rfl, rfl⟩]
      exact present_installed _ _
    have hpde₁ := htable
    rw [hspace₁.self.entry_ptSlot] at hpde₁
    have hunmapped : translate (tableDemanded addr s) (ptSlot addr) = none := by
      apply translate_ptSlot_absent hspace₀.self
      rw [hspace₀.self.entry_ptSlot] at habsent
      exact habsent
    have hplace := translate_ptSlot_present hspace₁.self hpde₁
    have hothers : ∀ other, ¬ SamePage other (ptSlot addr) →
        entry (faultIn k (ptSlot addr) (tableDemanded addr s)) other = entry s other := by
      intro other hother
      rw [hentries₁, if_neg hother, hentries₀ other hother]
    refine ⟨_, _, fun paddr flag => ?_, hspace₁, ?_, ?_, hpde₁, hothers, ?_, ?_⟩
    · rw [h.self.mmuMark_eq, markPte_faulted hunmapped hfault hplace]
    · rw [faultIn_cr3, hcr3₀]
    · rw [hpde, faultIn_framesIndex, hindex₀]
      rw [hindex₀] at hpos
      simp only [Bool.false_eq_true, if_false]
      omega
    · intro other hold
      apply hothers
      intro hsame
      rw [entry_samePage hsame, hslot, hpde] at hold
      exact absurd hold (by simp)
    · intro other prot hmarked
      rw [hentries₁]
      split
      · rename_i hsame
        rw [entry_samePage hsame] at hmarked
        exact (hmarks₀ prot hmarked).installed hisFrame
      · rename_i hslotPage
        rw [hentries₀ other hslotPage]
        exact hmarked

/-- `mmu_mark` of a page on demand, where a missing page table finds a frame. -/
theorem mmuMark_pages {flag : Word} (hflag : flag &&& mmuPageNoalloc = 0#32)
    (hroom : present (s.mem s.cr3 (mmuPdIndex addr)) = false → 0 < s.framesIndex) (depth : Nat)
    (paddr : Word) :
    ∃ role' s', mmuMark (pageFault k (depth + 1)) addr paddr flag s = some (true, s') ∧
      ActiveSpace k role' s' ∧ MarkedPages addr flag s s' := by
  obtain ⟨role₁, s₁, hmark₁, h₁, hready⟩ := h.table_ready hroom depth
  obtain ⟨w, hmark, hprot, hpresent, hframe⟩ :=
    h₁.markPte_present hready.table hflag (pageFault k (depth + 1)) paddr
  obtain ⟨hspace, hentries⟩ :=
    h₁.set_entry hready.table hpresent fun hnew => hframe (hpresent.symm.trans hnew)
  obtain ⟨s', hs'⟩ : ∃ s', s' = s₁.set (frameOf (s₁.mem s₁.cr3 (mmuPdIndex addr)))
      (mmuPtIndex addr) w := ⟨_, rfl⟩
  rw [← hs'] at hmark hspace hentries
  have hcr3 : s'.cr3 = s₁.cr3 := by
    rw [hs']
    rfl
  have hindex : s'.framesIndex = s₁.framesIndex := by
    rw [hs']
    rfl
  have hkept₁ : ∀ other, present (entry s₁ other) = true →
      present (entry s' other) = true ∧ frameOf (entry s' other) = frameOf (entry s₁ other) := by
    intro other hold
    rw [hentries]
    split
    · rename_i hpage
      rw [entry_samePage hpage] at hold ⊢
      exact ⟨hpresent.trans hold, hframe hold⟩
    · exact ⟨hold, rfl⟩
  refine ⟨role₁, s', (hmark₁ paddr flag).trans hmark, hspace, hcr3.trans hready.cr3, ?_, ?_, ?_,
    ?_, ?_, ?_⟩
  · rw [hindex]
    exact hready.index
  · apply (hkept₁ _ _).1
    rw [h₁.self.entry_ptSlot]
    exact hready.table
  · rw [hentries, if_pos ⟨rfl, rfl⟩]
    exact hprot
  · intro other hother hslotPage
    rw [hentries, if_neg hother, hready.others other hslotPage]
  · intro other hold
    have hsame := hready.kept other hold
    rw [← hsame] at hold ⊢
    exact hkept₁ other hold
  · intro other prot hother hmarked
    rw [hentries, if_neg hother]
    exact hready.marks other prot hmarked

/-- The handler's own access to a missing page table finds it empty or halts. -/
theorem missing_table_read (hpde : present (s.mem s.cr3 (mmuPdIndex addr)) = false)
    (hpos : 0 < s.framesIndex) {depth : Nat} {r : Word × State}
    (hr : readWord (pageFault k depth) (ptSlot addr) s = some r) : r.1 = 0#32 := by
  have hslot := h.self.entry_ptSlot addr
  have hunmapped := translate_ptSlot_absent h.self hpde
  have hwindow : present (s.mem s.cr3 (mmuPdIndex (ptSlot addr))) = true := by
    rw [mmuPdIndex_ptSlot]
    exact h.self.1
  have hnone : pageFault k depth (ptSlot addr) s ≠ none := by
    intro hnone
    unfold readWord access at hr
    simp only [hunmapped, hnone, Option.bind_eq_bind, Option.bind_none] at hr
    exact absurd hr (by simp)
  cases depth with
  | zero => exact absurd rfl hnone
  | succ depth =>
    have habsent : present (entry s (ptSlot addr)) = false := by
      rw [hslot]
      exact hpde
    have hdemand : entry s (ptSlot addr) &&& mmuPageOndemand ≠ 0#32 := by
      intro hzero
      rw [entry_present hwindow] at hzero
      exact hnone (int0E_halts h.self hwindow hzero _)
    have hfault := h.fault_eq hwindow habsent hpos hdemand depth
    have hspace := h.faultIn_space hwindow habsent hpos
    have hentries := h.faultIn_entry hwindow habsent hpos
    have htable : present ((faultIn k (ptSlot addr) s).mem (faultIn k (ptSlot addr) s).cr3
        (mmuPdIndex addr)) = true := by
      rw [← hspace.self.entry_ptSlot, hentries, if_pos ⟨rfl, rfl⟩]
      exact present_installed _ _
    have hplace := translate_ptSlot_present hspace.self htable
    have hapart : ¬ SamePage addr (ptSlot addr) := by
      intro hsame
      have hd := hsame.1
      rw [mmuPdIndex_ptSlot] at hd
      rw [hd, h.self.1] at hpde
      exact absurd hpde (by simp)
    rw [readWord_handled hunmapped hfault hplace, Option.some.injEq] at hr
    rw [← hr, ← entry_present htable, hentries, if_neg hapart, entry_absent hpde]

theorem fault_cases (hunmapped : translate s addr = none) (hpos : 0 < s.framesIndex) {depth : Nat}
    {s' : State} (hr : pageFault k depth addr s = some s') :
    present (s.mem s.cr3 (mmuPdIndex addr)) = true ∧ present (entry s addr) = false ∧
      s' = faultIn k addr s := by
  cases depth with
  | zero => exact absurd hr (by simp [pageFault, int0E])
  | succ depth =>
    cases hpde : present (s.mem s.cr3 (mmuPdIndex addr)) with
    | true =>
      have hentry := entry_present hpde
      have habsent : present (entry s addr) = false := by
        cases hcase : present (entry s addr) with
        | false => rfl
        | true =>
          rw [hentry] at hcase
          rw [translate_eq_some hpde hcase] at hunmapped
          exact absurd hunmapped (by simp)
      refine ⟨rfl, habsent, ?_⟩
      cases Classical.em (entry s addr &&& mmuPageOndemand = 0#32) with
      | inl hzero =>
        rw [hentry] at hzero
        have hhalts : pageFault k (depth + 1) addr s = none := int0E_halts h.self hpde hzero _
        exact absurd (hhalts.symm.trans hr) (by simp)
      | inr hdemand =>
        rw [h.fault_eq hpde habsent hpos hdemand depth, Option.some.injEq] at hr
        exact hr.symm
    | false =>
      exfalso
      unfold pageFault int0E at hr
      simp only [Nat.zero_mod, if_true, Option.bind_eq_bind, Option.bind_eq_some_iff] at hr
      obtain ⟨r, hread, hr⟩ := hr
      rw [h.missing_table_read hpde hpos hread, BitVec.zero_and, if_pos rfl] at hr
      exact absurd hr (by simp)

end ActiveSpace

end OsdevCourse.Mmu
