import OsdevCourse.HeapGrowth

/-!
# A mapping that is refused

`mmu_mmap` goes through its range page by page and stops at the first page that `mmu_mark`
refuses; it does not undo the pages before it. Only a fixed mapping (`MMU_PAGE_NOALLOC`) is
refused, by a page that is present: one that was present before the call, or the page table
that the call made for an earlier page of the range.

The range may wrap at the end of the address space, and it may hold the windows.
-/

namespace OsdevCourse.Mmu

set_option autoImplicit false

open PageEntry

/-- The entry is what a call with the flags asks for. -/
def AsRequested (paddr flag e : Word) : Prop :=
  if flag &&& mmuPageNoalloc = 0#32 then MarkedWith flag e else e = markEntry paddr flag

/-- The page `i` of the range from `addr` is present when a fixed mapping comes to it. -/
def Refused (s : State) (addr i : Nat) : Prop :=
  present (entry s (addr + 4096 * i)) = true ∨
    ∃ j < i, SamePage (addr + 4096 * i) (ptSlot (addr + 4096 * j))

instance (s : State) (addr i : Nat) : Decidable (Refused s addr i) :=
  inferInstanceAs (Decidable (_ ∨ _))

/-- The page tables that the first `n` pages of a range lack. -/
def tablesLacked (s : State) (addr n : Nat) : Finset Nat :=
  ((Finset.range n).image fun i => mmuPdIndex (addr + 4096 * i)).filter fun d =>
    present (s.mem s.cr3 d) = false

/-- The loop gets to page `m` of a range. -/
def Attempted (flag : Word) (s : State) (addr m : Nat) : Prop :=
  flag &&& mmuPageNoalloc = 0#32 ∨ ∀ i < m, ¬ Refused s addr i

instance (flag : Word) (s : State) (addr m : Nat) : Decidable (Attempted flag s addr m) :=
  inferInstanceAs (Decidable (_ ∨ _))

/-- The pool has the frames for the page tables that the loop makes. -/
def TablesFit (flag : Word) (s : State) (addr n : Nat) : Prop :=
  ∀ m ≤ n, Attempted flag s addr m → (tablesLacked s addr m).card ≤ s.framesIndex

/-- What a caller of `mmu_mmap` wants of its result. -/
def AllOrNothing (addr : Nat) (paddr flag : Word) (n : Nat) (s : State) (r : Bool × State) : Prop :=
  (r.1 = false → ∀ i < n, entry r.2 (addr + 4096 * i) = entry s (addr + 4096 * i)) ∧
    (r.1 = true → ∀ i < n,
      AsRequested (paddr + BitVec.ofNat 32 (4096 * i)) flag (entry r.2 (addr + 4096 * i)))

/-- The range is not one that a fixed mapping begins and then gives up. -/
def NotAbandoned (addr : Nat) (flag : Word) (n : Nat) (s : State) : Prop :=
  flag &&& mmuPageNoalloc = 0#32 ∨ n = 0 ∨ present (entry s addr) = true ∨
    ∀ i < n, ¬ Refused s addr i

/-! ### The loop of `mmu_mmap` -/

section Loop
variable {fault : Fault} {n addr : Nat} {paddr flag : Word} {s s' : State}

theorem markPages_snoc (h : markPages fault n addr paddr flag s = some (true, s')) :
    markPages fault (n + 1) addr paddr flag s =
      mmuMark fault (addr + 4096 * n) (paddr + BitVec.ofNat 32 (4096 * n)) flag s' := by
  induction n generalizing addr paddr s with
  | zero =>
    rw [markPages, Option.some.injEq, Prod.mk.injEq] at h
    rw [← h.2, markPages, Nat.mul_zero, Nat.add_zero, BitVec.add_zero]
    cases mmuMark fault addr paddr flag s with
    | none => rfl
    | some r =>
      obtain ⟨ok, s₁⟩ := r
      cases ok <;> rfl
  | succ n ih =>
    rw [markPages, Option.bind_eq_bind, Option.bind_eq_some_iff] at h
    obtain ⟨⟨ok, s₁⟩, hmark, hrest⟩ := h
    rw [markPages, hmark, Option.bind_eq_bind, Option.bind_some]
    cases ok with
    | false => exact absurd (Prod.mk.inj (Option.some.inj hrest)).1 (by simp)
    | true =>
      have haddr : addr + 4096 + 4096 * n = addr + 4096 * (n + 1) := by omega
      have hpaddr : paddr + 4096#32 + BitVec.ofNat 32 (4096 * n) =
          paddr + BitVec.ofNat 32 (4096 * (n + 1)) := by
        rw [BitVec.add_assoc, Nat.mul_succ, Nat.add_comm, BitVec.ofNat_add]
      rw [← haddr, ← hpaddr]
      exact ih hrest

theorem markPages_stop (h : markPages fault n addr paddr flag s = some (false, s')) (m : Nat) :
    markPages fault (n + m) addr paddr flag s = some (false, s') := by
  induction n generalizing addr paddr s with
  | zero => exact absurd (Prod.mk.inj (Option.some.inj h)).1 (by simp)
  | succ n ih =>
    rw [markPages, Option.bind_eq_bind, Option.bind_eq_some_iff] at h
    obtain ⟨⟨ok, s₁⟩, hmark, hrest⟩ := h
    rw [Nat.add_right_comm, markPages, hmark, Option.bind_eq_bind, Option.bind_some]
    cases ok with
    | false => exact hrest
    | true => exact ih hrest

end Loop

/-! ### The pages of a range -/

theorem samePage_mod {addr other : Nat} :
    SamePage other addr ↔ other / 4096 % 2 ^ 20 = addr / 4096 % 2 ^ 20 := by
  unfold SamePage mmuPdIndex mmuPtIndex
  omega

theorem range_apart {addr i j : Nat} (hi : i < 2 ^ 20) (hj : j < 2 ^ 20) (hne : i ≠ j) :
    ¬ SamePage (addr + 4096 * i) (addr + 4096 * j) := by
  rw [samePage_mod]
  omega

theorem mem_tablesLacked {s : State} {addr n d : Nat} :
    d ∈ tablesLacked s addr n ↔
      (∃ i < n, mmuPdIndex (addr + 4096 * i) = d) ∧ present (s.mem s.cr3 d) = false := by
  unfold tablesLacked
  simp only [Finset.mem_filter, Finset.mem_image, Finset.mem_range]

theorem card_tablesLacked_succ {s : State} {addr n : Nat}
    (habsent : present (s.mem s.cr3 (mmuPdIndex (addr + 4096 * n))) = false)
    (hnew : mmuPdIndex (addr + 4096 * n) ∉ tablesLacked s addr n) :
    (tablesLacked s addr (n + 1)).card = (tablesLacked s addr n).card + 1 := by
  have hinsert : tablesLacked s addr (n + 1) =
      insert (mmuPdIndex (addr + 4096 * n)) (tablesLacked s addr n) := by
    apply Finset.ext
    intro d
    rw [Finset.mem_insert, mem_tablesLacked, mem_tablesLacked]
    constructor
    · rintro ⟨⟨i, hi, hd⟩, hlacks⟩
      rcases Nat.lt_succ_iff_lt_or_eq.1 hi with hlt | heq
      · exact .inr ⟨⟨i, hlt, hd⟩, hlacks⟩
      · exact .inl (heq ▸ hd).symm
    · rintro (heq | ⟨⟨i, hi, hd⟩, hlacks⟩)
      · exact ⟨⟨n, Nat.lt_succ_self n, heq.symm⟩, heq ▸ habsent⟩
      · exact ⟨⟨i, Nat.lt_succ_of_lt hi, hd⟩, hlacks⟩
  rw [hinsert, Finset.card_insert_of_notMem hnew]

theorem card_tablesLacked_mono {s : State} {addr m n : Nat} (h : m ≤ n) :
    (tablesLacked s addr m).card ≤ (tablesLacked s addr n).card := by
  apply Finset.card_le_card
  intro d hd
  obtain ⟨⟨i, hi, hindex⟩, hlacks⟩ := mem_tablesLacked.1 hd
  exact mem_tablesLacked.2 ⟨⟨i, by omega, hindex⟩, hlacks⟩

/-- The page tables that the first `n` pages of a range have taken from the pool. -/
structure TablesTaken (addr n : Nat) (s s' : State) : Prop where
  cr3 : s'.cr3 = s.cr3
  kept : ∀ d < 1024, present (s.mem s.cr3 d) = true → present (s'.mem s'.cr3 d) = true
  tables : ∀ i < n, present (s'.mem s'.cr3 (mmuPdIndex (addr + 4096 * i))) = true
  index : s.framesIndex ≤ s'.framesIndex + (tablesLacked s addr n).card

theorem TablesTaken.refl (addr : Nat) (s : State) : TablesTaken addr 0 s s :=
  ⟨rfl, fun _ _ h => h, fun _ hi => absurd hi (by omega), Nat.le_add_right _ _⟩

section Taken
variable {addr n : Nat} {s s₁ : State} (h : TablesTaken addr n s s₁)
include h

theorem TablesTaken.lacks
    (hpde : present (s₁.mem s₁.cr3 (mmuPdIndex (addr + 4096 * n))) = false) :
    (tablesLacked s addr (n + 1)).card = (tablesLacked s addr n).card + 1 := by
  apply card_tablesLacked_succ
  · cases hold : present (s.mem s.cr3 (mmuPdIndex (addr + 4096 * n))) with
    | false => rfl
    | true =>
      rw [h.kept _ (mmuPdIndex_lt _) hold] at hpde
      exact absurd hpde (by simp)
  · intro hmem
    obtain ⟨⟨i, hi, heq⟩, _⟩ := mem_tablesLacked.1 hmem
    rw [← heq, h.tables i hi] at hpde
    exact absurd hpde (by simp)

theorem TablesTaken.room
    (hfit : (tablesLacked s addr (n + 1)).card ≤ s.framesIndex)
    (hpde : present (s₁.mem s₁.cr3 (mmuPdIndex (addr + 4096 * n))) = false) :
    0 < s₁.framesIndex := by
  have hcard := h.lacks hpde
  have hindex := h.index
  omega

theorem TablesTaken.succ {s' : State} (hcr3 : s'.cr3 = s₁.cr3)
    (hkept : ∀ d < 1024, present (s₁.mem s₁.cr3 d) = true → present (s'.mem s'.cr3 d) = true)
    (htable : present (s'.mem s'.cr3 (mmuPdIndex (addr + 4096 * n))) = true)
    (hindex : s'.framesIndex +
      (if present (s₁.mem s₁.cr3 (mmuPdIndex (addr + 4096 * n))) then 0 else 1) =
        s₁.framesIndex) : TablesTaken addr (n + 1) s s' := by
  refine ⟨hcr3.trans h.cr3, fun d hd hold => hkept d hd (h.kept d hd hold), ?_, ?_⟩
  · intro i hi
    rcases Nat.lt_succ_iff_lt_or_eq.1 hi with hlt | heq
    · exact hkept _ (mmuPdIndex_lt _) (h.tables i hlt)
    · rw [heq]
      exact htable
  · have hle := h.index
    cases hpde : present (s₁.mem s₁.cr3 (mmuPdIndex (addr + 4096 * n))) with
    | true =>
      have hcard : (tablesLacked s addr n).card ≤ (tablesLacked s addr (n + 1)).card :=
        card_tablesLacked_mono (Nat.le_succ n)
      rw [hpde, if_pos rfl] at hindex
      omega
    | false =>
      have hcard := h.lacks hpde
      rw [hpde, if_neg (by simp)] at hindex
      omega

end Taken

/-- The directory keeps the page tables it has when the entries that are present are kept. -/
theorem SelfMapped.tables_kept {s s' : State} (hself : SelfMapped s) (hself' : SelfMapped s')
    (hkept : ∀ other, present (entry s other) = true → present (entry s' other) = true) :
    ∀ d < 1024, present (s.mem s.cr3 d) = true → present (s'.mem s'.cr3 d) = true := by
  intro d hd hold
  have hindex : mmuPdIndex (d * 2 ^ 22) = d := by
    unfold mmuPdIndex
    rw [Nat.mul_div_cancel d (by omega), Nat.mod_eq_of_lt (by omega)]
  have hslot := hkept (ptSlot (d * 2 ^ 22))
  rw [hself.entry_ptSlot, hself'.entry_ptSlot, hindex] at hslot
  exact hslot hold

/-! ### Pages on demand -/

theorem ActiveSpace.markPages_demand {k : Kernel} {role : Word → Role} {s : State}
    (h : ActiveSpace k role s) {flag : Word} (hflag : flag &&& mmuPageNoalloc = 0#32) (depth : Nat)
    {addr n : Nat} (hn : n ≤ 2 ^ 20)
    (hfit : ∀ m ≤ n, (tablesLacked s addr m).card ≤ s.framesIndex) (paddr : Word) :
    ∃ role' s', Mmu.markPages (pageFault k (depth + 1)) n addr paddr flag s = some (true, s') ∧
      ActiveSpace k role' s' ∧ TablesTaken addr n s s' ∧
      ∀ i < n, MarkedWith flag (entry s' (addr + 4096 * i)) := by
  induction n with
  | zero => exact ⟨role, s, rfl, h, .refl addr s, fun _ hi => absurd hi (by omega)⟩
  | succ n ih =>
    obtain ⟨role₁, s₁, hrun, h₁, htaken, hpages⟩ := ih (by omega) fun m hm => hfit m (by omega)
    have hroom := htaken.room (hfit (n + 1) (Nat.le_refl _))
    obtain ⟨role', s', hmark, h', hpage⟩ :=
      h₁.mmuMark_pages hflag hroom depth (paddr + BitVec.ofNat 32 (4096 * n))
    have hpde := hpage.table
    rw [h'.self.entry_ptSlot] at hpde
    refine ⟨role', s', (markPages_snoc hrun).trans hmark, h', ?_, ?_⟩
    · refine htaken.succ hpage.cr3 ?_ hpde hpage.index
      exact h₁.self.tables_kept h'.self fun other hold => (hpage.kept other hold).1
    · intro i hi
      rcases Nat.lt_succ_iff_lt_or_eq.1 hi with hlt | heq
      · apply hpage.marks _ _ (range_apart (by omega) (by omega) (by omega))
        exact hpages i hlt
      · rw [heq]
        exact hpage.page

/-! ### Fixed pages -/

theorem present_markEntry {flag : Word} (hflag : flag &&& mmuPageNoalloc ≠ 0#32) (paddr : Word) :
    present (markEntry paddr flag) = true := by
  unfold markEntry
  rw [if_neg hflag, present_or]
  simp [show present mmuProtPresent = true from by decide]

theorem table_of_entry {s : State} {addr : Nat} (h : present (entry s addr) = true) :
    present (s.mem s.cr3 (mmuPdIndex addr)) = true := by
  cases hpde : present (s.mem s.cr3 (mmuPdIndex addr)) with
  | true => rfl
  | false =>
    rw [entry_absent hpde] at h
    exact absurd h (by decide)

theorem set_absent {s : State} {t : Word} {i : Nat} (habsent : present (s.mem t i) = false)
    (w : Word) {g : Word} {j : Nat} (hold : present (s.mem g j) = true) :
    (s.set t i w).mem g j = s.mem g j := by
  rw [set_mem, if_neg]
  rintro ⟨hg, hj⟩
  rw [hg, hj, habsent] at hold
  exact absurd hold (by simp)

theorem entry_set_absent {s : State} {t : Word} {i : Nat} (habsent : present (s.mem t i) = false)
    (w : Word) {other : Nat} (hold : present (entry s other) = true) :
    entry (s.set t i w) other = entry s other := by
  have hpde := table_of_entry hold
  have hnew : (s.set t i w).mem (s.set t i w).cr3 (mmuPdIndex other) =
      s.mem s.cr3 (mmuPdIndex other) := set_absent habsent w hpde
  rw [entry_present hpde] at hold ⊢
  rw [entry_present (hnew ▸ hpde), hnew]
  exact set_absent habsent w hold

/-- What a fixed mapping of a page does to the entries. A page table that is mapped below the
windows is not followed further. -/
structure FixedPage (addr : Nat) (w : Word) (s s' : State) : Prop where
  cr3 : s'.cr3 = s.cr3
  index : s'.framesIndex + (if present (s.mem s.cr3 (mmuPdIndex addr)) then 0 else 1) =
    s.framesIndex
  table : present (s'.mem s'.cr3 (mmuPdIndex addr)) = true
  page : entry s' addr = w
  kept : ∀ other, present (entry s other) = true → entry s' other = entry s other
  others : ∀ other, mmuPdIndex addr < 1022 ∨ 1022 ≤ mmuPdIndex other →
    ¬ SamePage other addr → ¬ SamePage other (ptSlot addr) → entry s' other = entry s other

/-- The windows, where a fixed mapping may have put another page table below them. -/
structure WindowSpace (s : State) : Prop where
  self : SelfMapped s
  poolPresent : present (s.mem s.cr3 1022) = true
  poolApart : frameOf (s.mem s.cr3 1022) ≠ s.cr3

theorem ActiveSpace.windows {k : Kernel} {role : Word → Role} {s : State}
    (h : ActiveSpace k role s) : WindowSpace s :=
  ⟨h.self, h.poolPresent, h.table_ne_active (by omega) h.poolPresent⟩

theorem marked_absent {s : State} {addr : Nat}
    (hpde : present (s.mem s.cr3 (mmuPdIndex addr)) = true)
    (habsent : present (entry s addr) = false) {flag : Word}
    (hflag : flag &&& mmuPageNoalloc ≠ 0#32) (paddr : Word) :
    marked (frameOf (s.mem s.cr3 (mmuPdIndex addr))) (mmuPtIndex addr) addr paddr flag s =
      (true, (s.set (frameOf (s.mem s.cr3 (mmuPdIndex addr))) (mmuPtIndex addr)
        (markEntry paddr flag)).invlpg addr) := by
  rw [entry_present hpde] at habsent
  unfold markEntry
  rw [marked_fixed habsent hflag, if_neg hflag]

theorem SelfMapped.mmuMark_refused {s : State} (h : SelfMapped s) {addr : Nat}
    (hpresent : present (entry s addr) = true) {flag : Word}
    (hflag : flag &&& mmuPageNoalloc ≠ 0#32) (fault : Fault) (paddr : Word) :
    mmuMark fault addr paddr flag s = some (false, s) := by
  have hpde := table_of_entry hpresent
  rw [entry_present hpde] at hpresent
  rw [mmuMark_present fault paddr flag h hpde, marked_refused hpresent hflag]

namespace WindowSpace
variable {s : State} (h : WindowSpace s)
include h

theorem table {d : Nat} (hlow : 1022 ≤ d) (hd : d < 1024) : present (s.mem s.cr3 d) = true := by
  rcases Nat.eq_or_lt_of_le hlow with heq | hlast
  · rw [← heq]
    exact h.poolPresent
  · have heq : d = 1023 := by omega
    rw [heq]
    exact h.self.1

theorem table_inj {d d' : Nat} (hlow : 1022 ≤ d) (hd : d < 1024) (hlow' : 1022 ≤ d')
    (hd' : d' < 1024) (heq : frameOf (s.mem s.cr3 d) = frameOf (s.mem s.cr3 d')) : d = d' := by
  have hpool := h.poolApart
  have hself := h.self.2
  rcases Nat.eq_or_lt_of_le hlow with hfirst | hsecond
  · rcases Nat.eq_or_lt_of_le hlow' with hfirst' | hsecond'
    · omega
    · have hlast : d' = 1023 := by omega
      rw [← hfirst, hlast, hself] at heq
      exact absurd heq hpool
  · have hlast : d = 1023 := by omega
    rcases Nat.eq_or_lt_of_le hlow' with hfirst' | hsecond'
    · rw [← hfirst', hlast, hself] at heq
      exact absurd heq.symm hpool
    · omega

theorem set {t : Word} {i : Nat} (habsent : present (s.mem t i) = false) (w : Word) :
    WindowSpace (s.set t i w) := by
  have hself := set_absent habsent w h.self.1
  have hpool := set_absent habsent w h.poolPresent
  refine ⟨⟨?_, ?_⟩, ?_, ?_⟩
  · exact (congrArg present hself).trans h.self.1
  · exact (congrArg frameOf hself).trans h.self.2
  · exact (congrArg present hpool).trans h.poolPresent
  · intro heq
    exact h.poolApart ((congrArg frameOf hpool).symm.trans heq)

theorem invlpg (addr : Nat) : WindowSpace (s.invlpg addr) := ⟨h.self, h.poolPresent, h.poolApart⟩

end WindowSpace

theorem ActiveSpace.invlpg {k : Kernel} {role : Word → Role} {s : State}
    (h : ActiveSpace k role s) (addr : Nat) : ActiveSpace k role (s.invlpg addr) :=
  ⟨h.self, h.kernel, h.tables, h.poolPresent, h.poolEntry, h.backing, h.slotPage, h.slotFrame,
    h.index⟩

theorem FixedPage.invlpg {addr : Nat} {w : Word} {s s' : State} (h : FixedPage addr w s s') :
    FixedPage addr w s (s'.invlpg addr) :=
  ⟨h.cr3, h.index, h.table, h.page, h.kept, h.others⟩

section Fixed
variable {s : State} {addr : Nat} {flag : Word} (hflag : flag &&& mmuPageNoalloc ≠ 0#32)
  (habsent : present (entry s addr) = false)
include hflag habsent

theorem WindowSpace.mmuMark_fixed (h : WindowSpace s) (hhigh : 1022 ≤ mmuPdIndex addr)
    (fault : Fault)
    (paddr : Word) :
    ∃ s', mmuMark fault addr paddr flag s = some (true, s') ∧ WindowSpace s' ∧
      FixedPage addr (markEntry paddr flag) s s' := by
  have hlt := mmuPdIndex_lt addr
  have hpde := h.table hhigh hlt
  have hmark := mmuMark_present fault paddr flag h.self hpde
  rw [marked_absent hpde habsent hflag] at hmark
  rw [entry_present hpde] at habsent
  have hkept := fun d hlow hd =>
    set_absent habsent (markEntry paddr flag) (h.table (d := d) hlow hd)
  have htable : present ((s.set (frameOf (s.mem s.cr3 (mmuPdIndex addr))) (mmuPtIndex addr)
      (markEntry paddr flag)).mem s.cr3 (mmuPdIndex addr)) = true := by
    rw [hkept _ hhigh hlt]
    exact hpde
  refine ⟨_, hmark, (h.set habsent _).invlpg addr, FixedPage.invlpg ⟨rfl, ?_, htable, ?_, ?_, ?_⟩⟩
  · rw [hpde]
    rfl
  · rw [entry_present htable, set_mem, set_cr3, hkept _ hhigh hlt, if_pos ⟨rfl, rfl⟩]
  · exact fun other hold => entry_set_absent habsent _ hold
  · intro other hwhere hother _
    have hwindow : 1022 ≤ mmuPdIndex other := by omega
    have hlt' := mmuPdIndex_lt other
    have hpde' := h.table hwindow hlt'
    have hnew : present ((s.set (frameOf (s.mem s.cr3 (mmuPdIndex addr))) (mmuPtIndex addr)
        (markEntry paddr flag)).mem s.cr3 (mmuPdIndex other)) = true := by
      rw [hkept _ hwindow hlt']
      exact hpde'
    rw [entry_present hnew, entry_present hpde', set_mem, set_cr3, hkept _ hwindow hlt', if_neg]
    rintro ⟨hframe, hindex⟩
    exact hother ⟨h.table_inj hwindow hlt' hhigh hlt hframe, hindex⟩

theorem ActiveSpace.mmuMark_fixed {k : Kernel} {role : Word → Role} (h : ActiveSpace k role s)
    (hlow : mmuPdIndex addr < 1022)
    (hroom : present (s.mem s.cr3 (mmuPdIndex addr)) = false → 0 < s.framesIndex) (depth : Nat)
    (paddr : Word) :
    ∃ role' s', mmuMark (pageFault k (depth + 1)) addr paddr flag s = some (true, s') ∧
      ActiveSpace k role' s' ∧ FixedPage addr (markEntry paddr flag) s s' := by
  obtain ⟨role', s₁, hmark, h₁, hready⟩ := h.table_ready hroom depth
  have hslot : ¬ SamePage addr (ptSlot addr) := by
    intro hsame
    have hlast := (samePage_ptSlot.1 hsame).1
    omega
  have habsent₁ : present (entry s₁ addr) = false := by
    rw [hready.others addr hslot]
    exact habsent
  obtain ⟨h₂, hentries⟩ := h₁.set_page hlow hready.table (markEntry paddr flag)
  have hpage := hentries addr
  rw [if_pos ⟨rfl, rfl⟩] at hpage
  have hmark₁ := markPte_eq (pageFault k (depth + 1)) paddr flag h₁.self hready.table
  rw [marked_absent hready.table habsent₁ hflag, ← hmark] at hmark₁
  refine ⟨role', _, hmark₁, h₂.invlpg addr,
    FixedPage.invlpg ⟨hready.cr3, hready.index, ?_, hpage, ?_, ?_⟩⟩
  · apply table_of_entry
    rw [hpage]
    exact present_markEntry hflag paddr
  · intro other hold
    have hsame := hready.kept other hold
    rw [hentries, if_neg, hsame]
    intro hpage'
    rw [← hsame, entry_samePage hpage', habsent₁] at hold
    exact absurd hold (by simp)
  · intro other _ hother hslotPage
    rw [hentries, if_neg hother, hready.others other hslotPage]

end Fixed

/-! ### A range of fixed pages -/

/-- What a fixed mapping of the first `n` pages of a range does to the entries. -/
structure FixedRange (addr n : Nat) (paddr flag : Word) (s s' : State) : Prop where
  taken : TablesTaken addr n s s'
  pages : ∀ i < n, entry s' (addr + 4096 * i) = markEntry (paddr + BitVec.ofNat 32 (4096 * i)) flag
  kept : ∀ other, present (entry s other) = true → entry s' other = entry s other
  others : ∀ other, addr / 4096 + n ≤ 0xFF800 ∨ 1022 ≤ mmuPdIndex other →
    (∀ i < n, ¬ SamePage other (addr + 4096 * i)) →
    (∀ i < n, ¬ SamePage other (ptSlot (addr + 4096 * i))) → entry s' other = entry s other

theorem FixedRange.refl (addr : Nat) (paddr flag : Word) (s : State) :
    FixedRange addr 0 paddr flag s s :=
  ⟨.refl addr s, fun _ hi => absurd hi (by omega), fun _ _ => rfl, fun _ _ _ _ => rfl⟩

section Range
variable {s s₁ : State} {addr n : Nat} {paddr flag : Word}

theorem range_pd {i : Nat} (hend : addr / 4096 + i < 2 ^ 20) :
    mmuPdIndex (addr + 4096 * i) = (addr / 4096 + i) / 1024 := by
  unfold mmuPdIndex
  omega

/-- A page that is not refused is not present when the loop comes to it. -/
theorem FixedRange.absent (h : FixedRange addr n paddr flag s s₁) (hend : addr / 4096 + n < 2 ^ 20)
    (hfree : ¬ Refused s addr n) : present (entry s₁ (addr + 4096 * n)) = false := by
  have hold : present (entry s (addr + 4096 * n)) = false := by
    cases hcase : present (entry s (addr + 4096 * n)) with
    | false => rfl
    | true => exact absurd (.inl hcase) hfree
  rw [h.others, hold]
  · rw [range_pd hend]
    omega
  · intro i hi
    exact range_apart (by omega) (by omega) (by omega)
  · intro i hi hsame
    exact hfree (.inr ⟨i, hi, hsame⟩)

theorem FixedRange.present (h : FixedRange addr n paddr flag s s₁) (hself : SelfMapped s₁)
    (hrefused : Refused s addr n) : present (entry s₁ (addr + 4096 * n)) = true := by
  rcases hrefused with hold | ⟨j, hj, hsame⟩
  · rw [h.kept _ hold]
    exact hold
  · rw [entry_samePage hsame, hself.entry_ptSlot]
    exact h.taken.tables j hj

theorem FixedRange.succ (h : FixedRange addr n paddr flag s s₁) (hself : SelfMapped s₁)
    (hflag : flag &&& mmuPageNoalloc ≠ 0#32) (hend : addr / 4096 + n < 2 ^ 20) {s' : State}
    (hself' : SelfMapped s')
    (hpage : FixedPage (addr + 4096 * n)
      (markEntry (paddr + BitVec.ofNat 32 (4096 * n)) flag) s₁ s') :
    FixedRange addr (n + 1) paddr flag s s' := by
  have hkept : ∀ other, PageEntry.present (entry s₁ other) = true →
      PageEntry.present (entry s' other) = true := by
    intro other hold
    rw [hpage.kept other hold]
    exact hold
  refine ⟨h.taken.succ hpage.cr3 (hself.tables_kept hself' hkept) hpage.table hpage.index,
    ?_, ?_, ?_⟩
  · intro i hi
    rcases Nat.lt_succ_iff_lt_or_eq.1 hi with hlt | heq
    · have hold := h.pages i hlt
      rw [hpage.kept, hold]
      rw [hold]
      exact present_markEntry hflag _
    · rw [heq]
      exact hpage.page
  · intro other hold
    have hsame := h.kept other hold
    rw [hpage.kept, hsame]
    rw [hsame]
    exact hold
  · intro other hwhere hpages hslots
    rw [hpage.others, h.others]
    · omega
    · exact fun i hi => hpages i (by omega)
    · exact fun i hi => hslots i (by omega)
    · rw [range_pd hend]
      omega
    · exact hpages n (Nat.lt_succ_self n)
    · exact hslots n (Nat.lt_succ_self n)

end Range

/-- The last page is present, so a fixed mapping does not go round the address space. -/
theorem SelfMapped.range_end {s : State} (h : SelfMapped s) {addr n : Nat} (haddr : addr < 2 ^ 32)
    (hfree : ∀ i < n, ¬ Refused s addr i) : addr / 4096 + n < 2 ^ 20 := by
  apply Nat.lt_of_not_ge
  intro hge
  have hlast : present (entry s (addr + 4096 * (0xFFFFF - addr / 4096))) = true := by
    have hd : mmuPdIndex (addr + 4096 * (0xFFFFF - addr / 4096)) = 1023 := by
      unfold mmuPdIndex
      omega
    have hi : mmuPtIndex (addr + 4096 * (0xFFFFF - addr / 4096)) = 1023 := by
      unfold mmuPtIndex
      omega
    rw [entry_present (by rw [hd]; exact h.1), hd, hi, h.2]
    exact h.1
  exact hfree (0xFFFFF - addr / 4096) (by omega) (.inl hlast)

theorem ActiveSpace.markPages_fixed {k : Kernel} {role : Word → Role} {s : State}
    (h : ActiveSpace k role s) {flag : Word} (hflag : flag &&& mmuPageNoalloc ≠ 0#32) (depth : Nat)
    {addr n : Nat} (haddr : addr < 2 ^ 32) (hfree : ∀ i < n, ¬ Refused s addr i)
    (hfit : ∀ m ≤ n, (tablesLacked s addr m).card ≤ s.framesIndex) (paddr : Word) :
    ∃ s', Mmu.markPages (pageFault k (depth + 1)) n addr paddr flag s = some (true, s') ∧
      WindowSpace s' ∧ (addr / 4096 + n ≤ 0xFF800 → ∃ role', ActiveSpace k role' s') ∧
      FixedRange addr n paddr flag s s' := by
  induction n with
  | zero => exact ⟨s, rfl, h.windows, fun _ => ⟨role, h⟩, .refl addr paddr flag s⟩
  | succ n ih =>
    obtain ⟨s₁, hrun, hwindows, hspace, hrange⟩ :=
      ih (fun i hi => hfree i (by omega)) fun m hm => hfit m (by omega)
    have hend := h.self.range_end haddr hfree
    have habsent := hrange.absent (by omega) (hfree n (Nat.lt_succ_self n))
    have hsucc := fun s' (hself' : SelfMapped s') hpage =>
      hrange.succ hwindows.self hflag (by omega) hself' hpage
    cases Nat.lt_or_ge (addr / 4096 + n) 0xFF800 with
    | inl hlow =>
      obtain ⟨role₁, h₁⟩ := hspace (Nat.le_of_lt hlow)
      have hd : mmuPdIndex (addr + 4096 * n) < 1022 := by
        rw [range_pd (by omega)]
        omega
      obtain ⟨role', s', hmark, h', hpage⟩ := h₁.mmuMark_fixed hflag habsent hd
        (hrange.taken.room (hfit (n + 1) (Nat.le_refl _))) depth
        (paddr + BitVec.ofNat 32 (4096 * n))
      exact ⟨s', (markPages_snoc hrun).trans hmark, h'.windows, fun _ => ⟨role', h'⟩,
        hsucc s' h'.self hpage⟩
    | inr hhigh =>
      have hd : 1022 ≤ mmuPdIndex (addr + 4096 * n) := by
        rw [range_pd (by omega)]
        omega
      obtain ⟨s', hmark, hwindows', hpage⟩ := hwindows.mmuMark_fixed hflag habsent hd
        (pageFault k (depth + 1)) (paddr + BitVec.ofNat 32 (4096 * n))
      exact ⟨s', (markPages_snoc hrun).trans hmark, hwindows', fun hle => absurd hle (by omega),
        hsucc s' hwindows'.self hpage⟩

/-- The loop stops at the first page that is refused and leaves the pages before it mapped. -/
theorem ActiveSpace.markPages_refused {k : Kernel} {role : Word → Role} {s : State}
    (h : ActiveSpace k role s) {flag : Word} (hflag : flag &&& mmuPageNoalloc ≠ 0#32) (depth : Nat)
    {addr m n : Nat} (haddr : addr < 2 ^ 32) (hm : m < n) (hrefused : Refused s addr m)
    (hfree : ∀ i < m, ¬ Refused s addr i)
    (hfit : ∀ i ≤ m, (tablesLacked s addr i).card ≤ s.framesIndex) (paddr : Word) :
    ∃ s', Mmu.markPages (pageFault k (depth + 1)) n addr paddr flag s = some (false, s') ∧
      FixedRange addr m paddr flag s s' := by
  obtain ⟨s', hrun, hwindows, _, hrange⟩ := h.markPages_fixed hflag depth haddr hfree hfit paddr
  have hmark := hwindows.self.mmuMark_refused (hrange.present hwindows.self hrefused) hflag
    (pageFault k (depth + 1)) (paddr + BitVec.ofNat 32 (4096 * m))
  have hstop := markPages_stop ((markPages_snoc hrun).trans hmark) (n - (m + 1))
  rw [Nat.add_sub_cancel' hm] at hstop
  exact ⟨s', hstop, hrange⟩

/-! ### `mmu_mmap` -/

theorem refused_first {s : State} {addr : Nat} :
    Refused s addr 0 ↔ present (entry s addr) = true := by
  unfold Refused
  rw [Nat.mul_zero, Nat.add_zero]
  constructor
  · rintro (hpresent | ⟨j, hj, _⟩)
    · exact hpresent
    · exact absurd hj (by omega)
  · exact .inl

theorem pageCount_aligned {size : Nat} (hsize : size < 2 ^ 32) (haligned : size % 4096 = 0) :
    pageCount size = some (size / 4096) := by
  unfold pageCount
  rw [if_pos (by omega), Option.some.injEq]
  omega

theorem SelfMapped.markPages_first {s : State} (h : SelfMapped s) {addr n : Nat}
    (hpresent : present (entry s addr) = true) {flag : Word}
    (hflag : flag &&& mmuPageNoalloc ≠ 0#32) (hn : 0 < n) (fault : Fault) (paddr : Word) :
    markPages fault n addr paddr flag s = some (false, s) := by
  cases n with
  | zero => omega
  | succ n =>
    rw [markPages, h.mmuMark_refused hpresent hflag, Option.bind_eq_bind, Option.bind_some]
    rfl

/-- A call that fails has changed nothing, unless it has begun a fixed mapping. -/
theorem mmu_mmap_all_or_nothing_iff {k : Kernel} {role : Word → Role} {s : State}
    (h : ActiveSpace k role s) (depth : Nat) {mem size : Nat} (hmem : mem < 2 ^ 32)
    (hsize : size < 2 ^ 32) (haligned : size % 4096 = 0) (paddr flag : Word)
    (hfit : TablesFit flag s mem (size / 4096)) :
    ∃ r, mmuMmap (pageFault k (depth + 1)) mem paddr size flag s = some r ∧
      (AllOrNothing mem paddr flag (size / 4096) s r ↔ NotAbandoned mem flag (size / 4096) s) := by
  unfold mmuMmap
  rw [pageCount_aligned hsize haligned]
  have hcount : size / 4096 ≤ 2 ^ 20 := by omega
  generalize size / 4096 = n at hfit hcount
  cases Classical.em (flag &&& mmuPageNoalloc = 0#32) with
  | inl hdemand =>
    obtain ⟨_, s', hrun, _, _, hpages⟩ :=
      h.markPages_demand hdemand depth hcount (fun m hm => hfit m hm (.inl hdemand)) paddr
    refine ⟨(true, s'), hrun, fun _ => .inl hdemand, fun _ => ⟨fun hfalse => ?_, ?_⟩⟩
    · exact absurd hfalse (by simp)
    · intro _ i hi
      unfold AsRequested
      rw [if_pos hdemand]
      exact hpages i hi
  | inr hflag =>
    cases Classical.em (∀ i < n, ¬ Refused s mem i) with
    | inl hfree =>
      obtain ⟨s', hrun, _, _, hrange⟩ := h.markPages_fixed hflag depth hmem hfree
        (fun m hm => hfit m hm (.inr fun i hi => hfree i (by omega))) paddr
      refine ⟨(true, s'), hrun, fun _ => .inr (.inr (.inr hfree)), fun _ => ⟨fun hfalse => ?_, ?_⟩⟩
      · exact absurd hfalse (by simp)
      · intro _ i hi
        unfold AsRequested
        rw [if_neg hflag]
        exact hrange.pages i hi
    | inr hsome =>
      have hexists : ∃ m, m < n ∧ Refused s mem m := by
        apply Classical.byContradiction
        intro hnone
        exact hsome fun i hi hrefused => hnone ⟨i, hi, hrefused⟩
      obtain ⟨hm, hrefused⟩ := Nat.find_spec hexists
      cases hpresent : present (entry s mem) with
      | true =>
        have hrun := h.self.markPages_first hpresent hflag (show 0 < n by omega)
          (pageFault k (depth + 1)) paddr
        refine ⟨(false, s), hrun, fun _ => .inr (.inr (.inl hpresent)), fun _ =>
          ⟨fun _ _ _ => rfl, fun htrue => ?_⟩⟩
        exact absurd htrue (by simp)
      | false =>
        -- The first page is mapped before the loop comes to the one that is refused.
        have hfree : ∀ i < Nat.find hexists, ¬ Refused s mem i :=
          fun i hi hearlier => Nat.find_min hexists hi ⟨by omega, hearlier⟩
        have hpos : 0 < Nat.find hexists := by
          apply Nat.pos_of_ne_zero
          intro hzero
          rw [hzero, refused_first, hpresent] at hrefused
          exact absurd hrefused (by simp)
        obtain ⟨s', hrun, hrange⟩ := h.markPages_refused hflag depth hmem hm hrefused hfree
          (fun i hi => hfit i (by omega) (.inr fun j hj => hfree j (by omega))) paddr
        refine ⟨(false, s'), hrun, ?_⟩
        constructor
        · intro hwanted
          exfalso
          have hold := hwanted.1 rfl 0 (by omega)
          rw [hrange.pages 0 hpos, Nat.mul_zero, Nat.add_zero] at hold
          rw [← hold, present_markEntry hflag] at hpresent
          exact absurd hpresent (by simp)
        · rintro (hdemand | hzero | hfirst | hall)
          · exact absurd hdemand hflag
          · omega
          · rw [hpresent] at hfirst
            exact absurd hfirst (by simp)
          · exact absurd hall hsome

/-! ### The small machine -/

/-- Of two pages before and in the image the second is present. -/
def smallAbandoned : Bool × State :=
  (mmuMmap (pageFault smallKernel 4) kaddrClondpd 0x200000#32 8192 mmuPageNoalloc smallStart).get
    (by decide +kernel)

theorem smallStart_space : ∃ role, ActiveSpace smallKernel role smallStart := by
  have hinit : smallInit [smallRam 4] = some smallStart := (Option.some_get _).symm
  have hdistinct : (usableFrames smallKernel [smallRam 4]).Nodup := by decide +kernel
  obtain ⟨ptIndex, hfilling, hlow⟩ := mmuInit_filling hdistinct hinit
  have hpool : ∀ f ∈ usableFrames smallKernel [smallRam 4], PoolFrame smallKernel f :=
    usableFrames_poolFrame
  obtain ⟨role, hroles⟩ :=
    hfilling.start_roles hpool hdistinct hlow (fun _ => True) fun _ _ => True.intro
  exact ⟨role, hroles.activeSpace (by decide +kernel)⟩

/-- The second page of the range is refused, and the first stays mapped. -/
theorem mmap_leaves_first_page : (∃ role, ActiveSpace smallKernel role smallStart) ∧
    mmuMmap (pageFault smallKernel 4) kaddrClondpd 0x200000#32 8192 mmuPageNoalloc smallStart =
      some smallAbandoned ∧
    smallAbandoned.1 = false ∧ entry smallStart kaddrClondpd = 0#32 ∧
    entry smallAbandoned.2 kaddrClondpd = 0x200001#32 ∧
    ¬ AllOrNothing kaddrClondpd 0x200000#32 mmuPageNoalloc 2 smallStart smallAbandoned := by
  have hfalse : smallAbandoned.1 = false := by decide +kernel
  have hold : entry smallStart kaddrClondpd = 0#32 := by decide +kernel
  have hnew : entry smallAbandoned.2 kaddrClondpd = 0x200001#32 := by decide +kernel
  refine ⟨smallStart_space, (Option.some_get _).symm, hfalse, hold, hnew, ?_⟩
  intro hwanted
  have hsame := hwanted.1 hfalse 0 (by omega)
  rw [Nat.mul_zero, Nat.add_zero, hold, hnew] at hsame
  exact absurd hsame (by decide)

/-- The first page of the image is present, so that the call is refused at once; a range without a
page in it is mapped as a whole. -/
theorem mmu_mmap_all_or_nothing_small :
    (∃ r, mmuMmap (pageFault smallKernel 4) 0xF0000000 0x200000#32 8192 mmuPageNoalloc smallStart =
      some r ∧ r.1 = false ∧ AllOrNothing 0xF0000000 0x200000#32 mmuPageNoalloc 2 smallStart r) ∧
    ∃ r, mmuMmap (pageFault smallKernel 4) 0x3FF000 0x200000#32 8192 mmuPageNoalloc smallStart =
      some r ∧ r.1 = true ∧ AllOrNothing 0x3FF000 0x200000#32 mmuPageNoalloc 2 smallStart r := by
  obtain ⟨role, h⟩ := smallStart_space
  have hfit : ∀ mem, (tablesLacked smallStart mem 2).card ≤ smallStart.framesIndex →
      TablesFit mmuPageNoalloc smallStart mem 2 := by
    intro mem hcard m hm _
    exact Nat.le_trans (card_tablesLacked_mono hm) hcard
  constructor
  · obtain ⟨r, hr, hiff⟩ := mmu_mmap_all_or_nothing_iff h 3 (by decide : 0xF0000000 < 2 ^ 32)
      (by omega : 8192 < 2 ^ 32) (by omega) 0x200000#32 mmuPageNoalloc (hfit _ (by decide +kernel))
    have hresult : (mmuMmap (pageFault smallKernel 4) 0xF0000000 0x200000#32 8192 mmuPageNoalloc
        smallStart).map Prod.fst = some false := by decide +kernel
    rw [hr] at hresult
    exact ⟨r, hr, Option.some.inj hresult, hiff.2 (.inr (.inr (.inl (by decide +kernel))))⟩
  · obtain ⟨r, hr, hiff⟩ := mmu_mmap_all_or_nothing_iff h 3 (by decide : 0x3FF000 < 2 ^ 32)
      (by omega : 8192 < 2 ^ 32) (by omega) 0x200000#32 mmuPageNoalloc (hfit _ (by decide +kernel))
    have hresult : (mmuMmap (pageFault smallKernel 4) 0x3FF000 0x200000#32 8192 mmuPageNoalloc
        smallStart).map Prod.fst = some true := by decide +kernel
    have hfree : ∀ i < 2, ¬ Refused smallStart 0x3FF000 i := by decide +kernel
    rw [hr] at hresult
    exact ⟨r, hr, Option.some.inj hresult, hiff.2 (.inr (.inr (.inr hfree)))⟩

end OsdevCourse.Mmu
