import OsdevCourse.MmuAlike

/-!
# What a step writes

A step of the memory manager writes to the frames of the pool, to the slots of the pool array, to
an entry of a directory and to an entry of a page table. A frame that is none of those keeps what
it holds in every run: device memory and the modules that the boot loader has left.
-/

namespace OsdevCourse.Mmu

set_option autoImplicit false

open PageEntry

/-- The step is about the page of the address. -/
def Spaces.Touches : Spaces.Op → Nat → Prop
  | .mark a _ _, addr => a = addr
  | .unmap a _, addr => a = addr
  | .fault a, addr => a = addr
  | .clone, addr => addr = kaddrClondpd
  | _, _ => False

/-- The words that a step may write, and what it leaves there: a missing page table comes from the
pool and is empty but for the page of the step, the kernel half of `MMU_PD` takes over an entry that
the windows show, and `mmu_mark` keeps the frame of a page that is present. -/
inductive Writes {k : Kernel} (L : Pool k) (role : Word → Role) (x : Spaces)
    (op : Spaces.Op) (s : State) :
    Word → Nat → Prop where
  | data {g : Word} {j : Nat} : (role g).IsData → Writes L role x op s g j
  | slot {b j : Nat} : b < 1024 → present (L.entries b) = true →
      Writes L role x op s (frameOf (L.entries b)) j
  | self : Writes L role x op s k.pd 1023
  | table {addr : Nat} : Spaces.Touches op addr →
      present (x.state.mem (shown x.state) (mmuPdIndex addr)) = false →
      frameOf (s.mem (shown x.state) (mmuPdIndex addr)) ∈ L.frames →
      (∀ i, i ≠ mmuPtIndex addr →
        s.mem (frameOf (s.mem (shown x.state) (mmuPdIndex addr))) i = 0#32) →
      Writes L role x op s (shown x.state) (mmuPdIndex addr)
  | shared {addr : Nat} : 512 ≤ mmuPdIndex addr →
      s.mem k.pd (mmuPdIndex addr) = x.state.mem (shown x.state) (mmuPdIndex addr) →
      Writes L role x op s k.pd (mmuPdIndex addr)
  | marked {addr : Nat} {paddr flag : Word} : op = .mark addr paddr flag →
      present (x.state.mem (shown x.state) (mmuPdIndex addr)) = true →
      (present (x.state.mem (windowTable x.state addr) (mmuPtIndex addr)) = true →
        present (s.mem (windowTable x.state addr) (mmuPtIndex addr)) = true ∧
          frameOf (s.mem (windowTable x.state addr) (mmuPtIndex addr)) =
            frameOf (x.state.mem (windowTable x.state addr) (mmuPtIndex addr))) →
      Writes L role x op s (windowTable x.state addr) (mmuPtIndex addr)
  | filled {addr : Nat} : op = .fault addr →
      present (x.state.mem (shown x.state) (mmuPdIndex addr)) = true →
      present (x.state.mem (windowTable x.state addr) (mmuPtIndex addr)) = false →
      Writes L role x op s (windowTable x.state addr) (mmuPtIndex addr)
  | cleared {addr : Nat} : (∃ flag, op = .unmap addr flag) ∨ op = .clone ∧ addr = kaddrClondpd →
      present (x.state.mem (shown x.state) (mmuPdIndex addr)) = true →
      Writes L role x op s (windowTable x.state addr) (mmuPtIndex addr)

namespace Roles
variable {k : Kernel} {L : Pool k} {role : Word → Role} {x : Spaces} (h : Roles L role x)
include h

theorem top_data (hpos : 0 < x.state.framesIndex) : (role (top k x.state)).IsData := by
  rw [h.top_role hpos]
  exact True.intro

/-- The page table that `mmu_mark` has is the one that was there, or it was free and is empty. -/
theorem withTable_place {addr : Nat} (hd : mmuPdIndex addr < 1022)
    (htable : HasTable x.state addr) :
    let t := frameOf ((withTable k addr x.state).mem (shown x.state) (mmuPdIndex addr))
    present (x.state.mem (shown x.state) (mmuPdIndex addr)) = true ∧ t = windowTable x.state addr ∧
        withTable k addr x.state = x.state ∨
      present (x.state.mem (shown x.state) (mmuPdIndex addr)) = false ∧ 0 < x.state.framesIndex ∧
        t = top k x.state ∧ ∀ j, (withTable k addr x.state).mem t j = 0#32 := by
  intro t
  by_cases hpresent : present (x.state.mem (shown x.state) (mmuPdIndex addr)) = true
  · have hsame : withTable k addr x.state = x.state := if_pos hpresent
    refine .inl ⟨hpresent, ?_, hsame⟩
    show frameOf ((withTable k addr x.state).mem _ _) = _
    rw [hsame]
    rfl
  · have hpos := htable.resolve_left hpresent
    have hentry := h.withTable_mem hd htable (shown x.state) (mmuPdIndex addr)
    rw [if_neg hpresent, if_pos ⟨rfl, rfl⟩] at hentry
    have htop : t = top k x.state :=
      (congrArg frameOf hentry).trans (frameOf_installed _ (L.isFrame _ (h.top_mem hpos)))
    refine .inr ⟨by simpa using hpresent, hpos, htop, fun j => ?_⟩
    have hshown := h.top_ne_dir hpos h.shown_mem
    have hpd := h.top_ne_dir hpos (List.mem_cons_self ..)
    rw [htop, h.withTable_mem hd htable, if_neg hpresent, if_neg fun hand => hshown hand.1,
      if_neg fun hand => hpd hand.1, if_pos rfl]

/-- What getting a page table writes, where the rest of the step keeps the directory and the
table. -/
theorem withTable_writes {op : Spaces.Op} {s : State} {addr : Nat} (htouch : Spaces.Touches op addr)
    (hd : mmuPdIndex addr < 1022) (htable : HasTable x.state addr)
    (hdir : s.mem (shown x.state) (mmuPdIndex addr) =
      (withTable k addr x.state).mem (shown x.state) (mmuPdIndex addr))
    (hrest : ∀ i, i ≠ mmuPtIndex addr →
    present (x.state.mem (shown x.state) (mmuPdIndex addr)) = false →
      s.mem (top k x.state) i = (withTable k addr x.state).mem (top k x.state) i)
        (g : Word) (j : Nat) :
    Writes L role x op s g j ∨ (withTable k addr x.state).mem g j = x.state.mem g j := by
  rcases h.withTable_place hd htable with ⟨_, _, hsame⟩ | ⟨habsent, hpos, htop, hzero⟩
  · rw [hsame]
    exact .inr rfl
  · have hnot : ¬ present (x.state.mem (shown x.state) (mmuPdIndex addr)) =
      true := by simp [habsent]
    rw [h.withTable_mem hd htable, if_neg hnot]
    by_cases hslot : g = shown x.state ∧ j = mmuPdIndex addr
    · obtain ⟨rfl, rfl⟩ := hslot
      refine .inl (.table htouch habsent ?_ ?_)
      · rw [hdir, htop]
        exact h.top_mem hpos
      · intro i hi
        rw [hdir, htop, hrest i hi habsent, ← htop]
        exact hzero i
    · rw [if_neg hslot]
      by_cases hself : g = k.pd ∧ j = 1023
      · obtain ⟨rfl, rfl⟩ := hself
        exact .inl .self
      · rw [if_neg hself]
        by_cases hfree : g = top k x.state
        · rw [hfree]
          exact .inl (.data (h.top_data hpos))
        · right
          rw [if_neg hfree]

theorem slot_writes {op : Spaces.Op} {s : State} (hlt : x.state.framesIndex < L.frames.length)
    (j : Nat) :
    Writes L role x op s (poolPage k x.state (x.state.framesIndex / 1024)) j := by
  obtain ⟨hb, hbacked⟩ := L.slot_backed hlt
  unfold poolPage
  rw [h.slots.poolTable]
  exact .slot hb hbacked

omit h in
theorem marked_frame {t : Word} {i addr : Nat} {paddr flag : Word} {s : State}
    (hpresent : present (s.mem t i) = true) :
    present ((marked t i addr paddr flag s).2.mem t i) = true ∧
      frameOf ((marked t i addr paddr flag s).2.mem t i) = frameOf (s.mem t i) := by
  by_cases hflag : flag &&& mmuPageNoalloc = 0#32
  · rw [marked_reprotected hpresent hflag, set_mem_same]
    exact ⟨(present_reprotected _ _).trans hpresent, frameOf_reprotected _ _⟩
  · rw [marked_refused hpresent hflag]
    exact ⟨hpresent, rfl⟩

theorem mark_writes {addr : Nat} {paddr flag : Word} (hd : mmuPdIndex addr < 1022)
    (htable : HasTable x.state addr) (g : Word) (j : Nat) :
    Writes L role x (.mark addr paddr flag) (markAt k addr paddr flag x.state).2 g j ∨
      (markAt k addr paddr flag x.state).2.mem g j = x.state.mem g j := by
  obtain ⟨role', htabled⟩ := h.withTable_tabled hd htable
  have ht := htabled.roles.table_role htabled.mem_dirs hd htabled.present_pde
  have hdir := htabled.roles.table_ne_dir h.shown_mem ht
  have hplace := h.withTable_place hd htable
  unfold markAt
  generalize hplaced : frameOf ((withTable k addr x.state).mem (shown x.state) (mmuPdIndex addr)) =
    t at hplace hdir ⊢
  by_cases hand : g = t ∧ j = mmuPtIndex addr
  · left
    obtain ⟨rfl, rfl⟩ := hand
    rcases hplace with ⟨hpresent, rfl, hsame⟩ | ⟨_, hpos, htop, _⟩
    · rw [hsame]
      exact .marked rfl hpresent marked_frame
    · rw [htop]
      exact .data (h.top_data hpos)
  · have htouch : Spaces.Touches (.mark addr paddr flag) addr := rfl
    rw [marked_mem_other hand]
    refine h.withTable_writes htouch hd htable (marked_mem_frame hdir.symm _) ?_ g j
    intro i hi habsent
    exact marked_mem_other fun hentry => hi hentry.2

theorem unmap_writes {addr : Nat} {flag : Word} (hd : mmuPdIndex addr < 1022)
    (hpresent : present (x.state.mem (shown x.state) (mmuPdIndex addr)) = true)
    (hallowed : flag &&& mmuMunmapNorelease = 0#32 →
      ∀ t i, slot x.state addr = some (t, i) → ¬ x.fixed t i) (g : Word) (j : Nat) :
    Writes L role x (.unmap addr flag) (unmapAt k addr flag x.state) g j ∨
      (unmapAt k addr flag x.state).mem g j = x.state.mem g j := by
  rw [h.unmapAt_mem hd hpresent]
  split
  · rename_i hslot
    obtain ⟨hreleases, rfl, _⟩ := hslot
    exact .inl (h.slot_writes (h.released hd hpresent hallowed hreleases).2 j)
  · split
    · rename_i hentry
      obtain ⟨rfl, rfl⟩ := hentry
      exact .inl (.cleared (.inl ⟨flag, rfl⟩) hpresent)
    · exact .inr rfl

theorem fault_writes {addr : Nat} (hpos : 0 < x.state.framesIndex)
    (hpresent : present (x.state.mem (shown x.state) (mmuPdIndex addr)) = true)
    (habsent : present (x.state.mem (windowTable x.state addr) (mmuPtIndex addr)) = false)
    (g : Word) (j : Nat) :
    Writes L role x (.fault addr) (faultAt k addr x.state) g j ∨
      (faultAt k addr x.state).mem g j = x.state.mem g j := by
  have hmem := putInto_mem k (shown x.state) addr (top k x.state)
    { x.state with framesIndex := x.state.framesIndex - 1 }
  by_cases hshared : 512 ≤ mmuPdIndex addr ∧ g = k.pd ∧ j = mmuPdIndex addr
  · obtain ⟨hkernel, rfl, rfl⟩ := hshared
    exact .inl (.shared hkernel ((hmem _ _).trans (if_pos ⟨hkernel, rfl, rfl⟩)))
  · by_cases htop : g = top k x.state
    · rw [htop]
      exact .inl (.data (h.top_data hpos))
    · by_cases hentry : g = windowTable x.state addr ∧ j = mmuPtIndex addr
      · obtain ⟨rfl, rfl⟩ := hentry
        exact .inl (.filled rfl hpresent habsent)
      · right
        refine (hmem g j).trans ?_
        rw [if_neg hshared, if_neg htop]
        exact if_neg hentry

theorem store_writes {addr : Nat} {w : Word} (hd : mmuPdIndex addr < 1022)
    (hdemand : ¬ x.fixed (Spaces.tableOf x.state x.state.cr3 addr) (mmuPtIndex addr))
    (g : Word) (j : Nat) :
    Writes L role x (.store addr w) (storeAt addr w x.state) g j ∨
      (storeAt addr w x.state).mem g j = x.state.mem g j := by
  unfold storeAt
  cases hplace : translate x.state addr with
  | none => exact .inr rfl
  | some place =>
    have hrole := h.stored_role hd hdemand hplace
    by_cases hg : g = place.1
    · rw [hg]
      refine .inl (.data ?_)
      rw [hrole]
      exact True.intro
    · exact .inr (set_mem_frame _ _ _ _ hg j)

theorem clone_writes (hready : x.Ready .clone) (g : Word) (j : Nat) :
    Writes L role x .clone (x.after k .clone).state g j ∨
      (x.after k .clone).state.mem g j = x.state.mem g j := by
  by_cases hempty : x.state.framesIndex = 0
  · right
    simp only [Spaces.after, cloneAt, if_pos hempty, Spaces.afterClone]
  · have hpos : 0 < x.state.framesIndex := by omega
    have htable := hready hpos
    have hd : mmuPdIndex kaddrClondpd < 1022 := by decide
    have htouch : Spaces.Touches .clone kaddrClondpd := rfl
    obtain ⟨hpopped, hloose, role', htabled⟩ := h.popped_tabled hpos htable
    have hloose' := (htabled.kept _ (by rw [hloose]; simp)).trans hloose
    have hpde : present ((withTable k kaddrClondpd
        { x.state with framesIndex := x.state.framesIndex - 1 }).mem (shown x.state) 959) = true :=
      htabled.present_pde
    have ht := htabled.roles.table_role htabled.mem_dirs hd htabled.present_pde
    have hplace := hpopped.withTable_place hd htable
    -- what is written after the pop is written by the step
    have hback : ∀ {s g j}, Writes L (Function.update role (top k x.state) .loose)
        { x with state := { x.state with framesIndex := x.state.framesIndex - 1 } } .clone s g j →
          Writes L role x .clone s g j := by
      intro s g j hwrites
      cases hwrites with
      | data hdata =>
        by_cases hg : g = top k x.state
        · rw [hg]
          exact .data (h.top_data hpos)
        · rw [Function.update_of_ne hg] at hdata
          exact .data hdata
      | slot hb hbacked => exact .slot hb hbacked
      | self => exact .self
      | table htouch habsent hframe hzero => exact .table htouch habsent hframe hzero
      | shared hkernel heq => exact .shared hkernel heq
      | marked hop => cases hop
      | filled hop => cases hop
      | cleared hop hpresent => exact .cleared hop hpresent
    -- a new page table is the frame that is popped next
    have hnew : present (x.state.mem (shown x.state) 959) = false →
        top k { x.state with framesIndex := x.state.framesIndex - 1 } =
          frameOf ((withTable k kaddrClondpd
            { x.state with framesIndex := x.state.framesIndex - 1 }).mem (shown x.state) 959) := by
      intro habsent
      rcases hplace with ⟨hpresent, _⟩ | ⟨_, _, heq, _⟩
      · exact absurd (habsent.symm.trans hpresent) (by simp)
      · exact heq.symm
    simp only [Spaces.after, cloneAt_of hempty rfl rfl rfl, Spaces.afterClone]
    by_cases htop : g = top k x.state
    · rw [htop]
      exact .inl (.data (h.top_data hpos))
    · split
      · -- the frame in hand is given back
        have hoff : ∀ g, (∀ b, role' g ≠ .backing b) → ∀ j, _ :=
          fun g hg j => htabled.roles.freed_mem_other hloose' hg j
        by_cases hslot : ∃ b < 1024, present (L.entries b) = true ∧ g = frameOf (L.entries b)
        · obtain ⟨b, hb, hbacked, rfl⟩ := hslot
          exact .inl (.slot hb hbacked)
        · have hfreed : ∀ j, (freed k (top k x.state) (withTable k kaddrClondpd
              { x.state with framesIndex := x.state.framesIndex - 1 })).mem g j =
              (withTable k kaddrClondpd { x.state with framesIndex := x.state.framesIndex - 1 }).mem
                  g j := by
            intro j
            apply freed_agree
            rintro rfl
            have hlt := htabled.roles.framesIndex_lt (h.top_mem hpos) (by rw [hloose']; simp)
            obtain ⟨hb, hbacked⟩ := L.slot_backed hlt
            refine hslot ⟨_, hb, hbacked, ?_⟩
            unfold poolPage
            rw [htabled.roles.slots.poolTable]
          rw [hfreed]
          have hkept := hpopped.withTable_writes htouch hd htable (hoff _ ?_ _) ?_ g j
          · exact hkept.imp hback id
          · intro b hrole
            have hshown : role' (shown x.state) = .directory := htabled.roles.named.dir h.shown_mem
            exact Role.noConfusion (hshown.symm.trans hrole)
          · intro i _ habsent
            apply hoff
            intro b hrole
            rw [hnew habsent] at hrole
            rw [show mmuPdIndex kaddrClondpd = 959 from rfl, hrole] at ht
            exact ht
      · obtain ⟨_, htf, _⟩ := window_table htabled.roles htabled.mem_dirs hpde rfl hloose'
        have hmem : ∀ {g}, g ≠ top k x.state → ∀ j, _ :=
          fun hg j => window_mem htabled.roles htabled.mem_dirs hpde rfl hloose' hg j
        rw [hmem htop]
        split
        · rename_i hwindow
          obtain ⟨rfl, rfl⟩ := hwindow
          left
          rcases hplace with ⟨hpresent, heq, _⟩ | ⟨_, hpos', heq, _⟩
          · exact heq.symm ▸ (.cleared (.inr ⟨rfl, rfl⟩) hpresent : Writes L role x .clone _
              (windowTable x.state kaddrClondpd) (mmuPtIndex kaddrClondpd))
          · exact heq.symm ▸ hback (.data (hpopped.top_data hpos'))
        · have hkept := hpopped.withTable_writes htouch hd htable
            (window_dirs htabled.roles htabled.mem_dirs hpde rfl hloose' h.shown_mem 959) ?_ g j
          · exact hkept.imp hback id
          · intro i hi habsent
            refine (hmem ?_ i).trans (if_neg fun hand => hi hand.2)
            rw [hnew habsent]
            exact htf

theorem after_writes {op : Spaces.Op} (hready : x.Ready op)
    (hallowed : Spaces.Allowed k L.outside x op)
    (g : Word) (j : Nat) :
    Writes L role x op (x.after k op).state g j ∨ (x.after k op).state.mem g j =
      x.state.mem g j := by
  cases op with
  | mark addr paddr flag => exact h.mark_writes (Spaces.pdIndex_below hallowed.1) hready g j
  | unmap addr flag => exact h.unmap_writes (Spaces.pdIndex_below hallowed.1) hready hallowed.2 g j
  | fault addr => exact h.fault_writes hready.1 hready.2.2.1 hready.2.2.2 g j
  | store addr w => exact h.store_writes (Spaces.pdIndex_below hallowed.1) hallowed.2 g j
  | clone => exact h.clone_writes hready g j
  | switch pd => exact .inr rfl

end Roles

/-! ### Frames that are nobody's -/

/-- The page tables are the boot table and frames of the pool. -/
def TableFrames {k : Kernel} (L : Pool k) (x : Spaces) : Prop :=
  ∀ a ∈ x.dirs k, ∀ d < 1022, present (x.state.mem a d) = true →
    frameOf (x.state.mem a d) = k.pt ∨ frameOf (x.state.mem a d) ∈ L.frames

/-- The memory manager has no use for the frame. -/
structure Foreign {k : Kernel} (L : Pool k) (f : Word) : Prop where
  pd : f ≠ k.pd
  pt : f ≠ k.pt
  backing : ∀ b < 1024, present (L.entries b) = true → f ≠ frameOf (L.entries b)
  pool : f ∉ L.frames

namespace Roles
variable {k : Kernel} {L : Pool k} {role : Word → Role} {x : Spaces} (h : Roles L role x)
include h

theorem dir_not_data {a : Word} (ha : a ∈ x.dirs k) : ¬ (role a).IsData := by
  rw [h.named.dir ha]
  exact id

theorem dir_ne_slot {a : Word} (ha : a ∈ x.dirs k) {b : Nat} (hb : b < 1024)
    (hbacked : present (L.entries b) = true) : a ≠ frameOf (L.entries b) := by
  rintro rfl
  exact Role.noConfusion ((h.named.dir ha).symm.trans (h.named.backing b hb hbacked))

theorem dir_ne_table {a : Word} (ha : a ∈ x.dirs k) {addr : Nat} (hd : mmuPdIndex addr < 1022)
    (hpresent : present (x.state.mem (shown x.state) (mmuPdIndex addr)) = true) :
    a ≠ windowTable x.state addr :=
  (h.table_ne_dir ha (h.table_role h.shown_mem hd hpresent)).symm

theorem after_dir {op : Spaces.Op} (hready : x.Ready op)
    (hallowed : Spaces.Allowed k L.outside x op)
    {a : Word} (ha : a ∈ x.dirs k) {d : Nat} (hd : d < 1022) :
    (x.after k op).state.mem a d = x.state.mem a d ∨
      (a = shown x.state ∧ present (x.state.mem a d) = false ∧
        frameOf ((x.after k op).state.mem a d) ∈ L.frames) ∨
      512 ≤ d ∧ (x.after k op).state.mem a d = x.state.mem (shown x.state) d := by
  have hfault : ∀ {addr}, op = .fault addr → mmuPdIndex addr < 1022 := by
    rintro addr rfl
    exact hready.2.1
  have hbelow : ∀ {addr}, (∃ paddr flag, op = .mark addr paddr flag) ∨
    (∃ flag, op = .unmap addr flag) ∨
      op = .clone ∧ addr = kaddrClondpd → mmuPdIndex addr < 1022 := by
    rintro addr (⟨paddr, flag, rfl⟩ | ⟨flag, rfl⟩ | ⟨_, rfl⟩)
    · exact Spaces.pdIndex_below hallowed.1
    · exact Spaces.pdIndex_below hallowed.1
    · decide
  rcases h.after_writes hready hallowed a d with hwrites | hsame
  · right
    cases hwrites with
    | data hdata => exact absurd hdata (h.dir_not_data ha)
    | slot hb hbacked => exact absurd rfl (h.dir_ne_slot ha hb hbacked)
    | self => omega
    | table _ habsent hframe _ => exact .inl ⟨rfl, habsent, hframe⟩
    | shared hkernel heq => exact .inr ⟨hkernel, heq⟩
    | marked hop hpresent _ =>
      exact absurd rfl (h.dir_ne_table ha (hbelow (.inl ⟨_, _, hop⟩)) hpresent)
    | filled hop hpresent _ => exact absurd rfl (h.dir_ne_table ha (hfault hop) hpresent)
    | cleared hop hpresent => exact absurd rfl (h.dir_ne_table ha (hbelow (.inr hop)) hpresent)
  · exact .inl hsame

/-- A new directory has the kernel half of `MMU_PD` and an empty user half. -/
theorem after_dirs {op : Spaces.Op} (hready : x.Ready op) {a : Word}
    (ha : a ∈ (x.after k op).dirs k) :
    a ∈ x.dirs k ∨ ∀ d < 1022, (x.after k op).state.mem a d =
      if 512 ≤ d then (x.after k op).state.mem k.pd d else 0#32 := by
  cases op with
  | mark addr paddr flag => exact .inl ha
  | unmap addr flag => exact .inl ha
  | fault addr => exact .inl ha
  | store addr w => exact .inl ha
  | switch pd => exact .inl ha
  | clone =>
    by_cases hempty : x.state.framesIndex = 0
    · simp only [Spaces.after, cloneAt, if_pos hempty, Spaces.afterClone, if_true] at ha
      exact .inl ha
    · have hpos : 0 < x.state.framesIndex := by omega
      have htable := hready hpos
      obtain ⟨hpopped, hloose, role', htabled⟩ := h.popped_tabled hpos htable
      have hloose' := (htabled.kept _ (by rw [hloose]; simp)).trans hloose
      have hpde : present ((withTable k kaddrClondpd
          { x.state with framesIndex := x.state.framesIndex - 1 }).mem (shown x.state) 959) =
        true :=
        htabled.present_pde
      simp only [Spaces.after, cloneAt_of hempty rfl rfl rfl, Spaces.afterClone] at ha ⊢
      split at ha
      · exact .inl ha
      · rename_i hwindow
        rw [if_neg hwindow]
        by_cases hnew : a = top k x.state
        · right
          intro d hd
          have hpd := window_dirs htabled.roles htabled.mem_dirs hpde rfl hloose'
            (List.mem_cons_self ..) d
          have hword := window_directory htabled.roles htabled.mem_dirs hpde rfl hloose' d
          rw [hnew]
          refine hword.trans ?_
          rw [if_neg (by omega)]
          by_cases hkernel : 512 ≤ d
          · rw [if_pos ⟨hkernel, by omega⟩, if_pos hkernel]
            exact hpd.symm
          · rw [if_neg fun hand => hkernel hand.1, if_neg hkernel]
        · left
          rcases List.mem_cons.1 ha with heq | hclone
          · exact List.mem_cons.2 (.inl heq)
          · simp only [if_neg (L.ne_zero (h.top_mem hpos))] at hclone
            rcases List.mem_append.1 hclone with hold | hlast
            · exact List.mem_cons_of_mem _ hold
            · exact absurd (List.mem_singleton.1 hlast) hnew

theorem after_tableFrames (ht : TableFrames L x) {op : Spaces.Op} (hready : x.Ready op)
    (hallowed : Spaces.Allowed k L.outside x op) : TableFrames L (x.after k op) := by
  have hold : ∀ a ∈ x.dirs k, ∀ d < 1022, present ((x.after k op).state.mem a d) = true →
      frameOf ((x.after k op).state.mem a d) = k.pt ∨
          frameOf ((x.after k op).state.mem a d) ∈ L.frames := by
    intro a ha d hd hpresent
    rcases h.after_dir hready hallowed ha hd with hsame | ⟨_, _, hframe⟩ | ⟨_, hshared⟩
    · rw [hsame] at hpresent ⊢
      exact ht a ha d hd hpresent
    · exact .inr hframe
    · rw [hshared] at hpresent ⊢
      exact ht _ h.shown_mem d hd hpresent
  intro a ha d hd hpresent
  rcases h.after_dirs hready ha with hmem | hnew
  · exact hold a hmem d hd hpresent
  · rw [hnew d hd] at hpresent ⊢
    split at hpresent
    · rename_i hkernel
      rw [if_pos hkernel]
      exact hold k.pd (List.mem_cons_self ..) d hd hpresent
    · exact absurd hpresent (by simp [not_present_zero])

theorem after_foreign (ht : TableFrames L x) {op : Spaces.Op} (hready : x.Ready op)
    (hallowed : Spaces.Allowed k L.outside x op) {f : Word} (hf : Foreign L f) (j : Nat) :
    (x.after k op).state.mem f j = x.state.mem f j := by
  have hdir : f ∉ x.dirs k := by
    intro hmem
    rcases List.mem_cons.1 hmem with heq | hclone
    · exact hf.pd heq
    · exact hf.pool (h.named.clone f hclone).2
  have htable : ∀ {addr}, mmuPdIndex addr < 1022 →
      present (x.state.mem (shown x.state) (mmuPdIndex addr)) = true →
          f ≠ windowTable x.state addr := by
    rintro addr hd hpresent rfl
    rcases ht _ h.shown_mem _ hd hpresent with heq | hmem
    · exact hf.pt heq
    · exact hf.pool hmem
  rcases h.after_writes hready hallowed f j with hwrites | hsame
  · exfalso
    cases hwrites with
    | data hdata => exact hf.pool (h.named.data f hdata)
    | slot hb hbacked => exact hf.backing _ hb hbacked rfl
    | self => exact hf.pd rfl
    | table _ _ _ _ => exact hdir h.shown_mem
    | shared _ _ => exact hf.pd rfl
    | marked hop hpresent _ =>
      subst hop
      exact htable (Spaces.pdIndex_below hallowed.1) hpresent rfl
    | filled hop hpresent _ =>
      subst hop
      exact htable hready.2.1 hpresent rfl
    | cleared hop hpresent =>
      rcases hop with ⟨flag, rfl⟩ | ⟨_, rfl⟩
      · exact htable (Spaces.pdIndex_below hallowed.1) hpresent rfl
      · exact htable (by decide) hpresent rfl
  · exact hsame

end Roles

/-- The memory manager as its calls keep it, and the frames that are nobody's. -/
structure Settled {k : Kernel} (L : Pool k) (x : Spaces) : Prop where
  roles : ∃ role, Roles L role x
  tables : TableFrames L x

theorem Spaces.Step.settled {k : Kernel} {L : Pool k} {x y : Spaces} {op : Spaces.Op}
    (hstep : Spaces.Step k (pageFaultFed k) x op y) (hallowed : Spaces.Allowed k L.outside x op)
    (h : Settled L x) : Settled L y ∧ ∀ f, Foreign L f → ∀ j,
    y.state.mem f j = x.state.mem f j := by
  obtain ⟨role, hroles⟩ := h.roles
  have hnext := hstep.roles hallowed hroles
  obtain ⟨hready, rfl⟩ := hstep.effect hallowed hroles
  exact ⟨⟨hnext, hroles.after_tableFrames h.tables hready hallowed⟩,
    fun f hf j => hroles.after_foreign h.tables hready hallowed hf j⟩

/-- In every run a frame that the memory manager has no use for keeps what it holds. -/
theorem reachable_settled {k : Kernel} {L : Pool k} {x y : Spaces}
    (hrun : Reachable
      (Guarded (Spaces.Step k (pageFaultFed k)) (Spaces.Allowed k L.outside)) x y)
    (h : Settled L x) : Settled L y ∧ ∀ f, Foreign L f → ∀ j,
    y.state.mem f j = x.state.mem f j := by
  refine hrun.invariant (fun z => Settled L z ∧ ∀ f, Foreign L f → ∀ j,
    z.state.mem f j = x.state.mem f j)
    ?_ ⟨h, fun _ _ _ => rfl⟩
  rintro z op z' ⟨hsettled, hkept⟩ ⟨hallowed, hstep⟩
  obtain ⟨hnext, hsame⟩ := hstep.settled hallowed hsettled
  exact ⟨hnext, fun f hf j => (hsame f hf j).trans (hkept f hf j)⟩

end OsdevCourse.Mmu
