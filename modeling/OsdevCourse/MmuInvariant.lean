import OsdevCourse.MmuTranslate
import OsdevCourse.Ownership

/-!
# Every frame has one owner

The invariant of the memory manager once `mmu_init` has returned. A frame of the pool is in a
free slot of `MMU_frames`, a page filled in on demand, a page table, the directory of a
process, or in the hands of the code that has just popped it. The kernel halves of all
directories are equal.

The history variables follow the run: `uses`, what a page was last mapped as; `clones`, the
directories `mmu_clone_pagedir` has returned; `hand` and `aside`, the frames the running
functions have taken and not yet put anywhere.
-/

namespace OsdevCourse.Mmu

set_option autoImplicit false

open PageEntry

/-! ### The entries the code writes -/

section Entries
variable {f : Word} (e flag : Word)

theorem and_present_eq_zero : e &&& mmuProtPresent = 0#32 ↔ present e = false := by
  unfold present mmuProtPresent
  simp

theorem isFlags_prot : IsFlags (flag &&& mmuProtMask) := IsFlags.and flag (by decide)

theorem present_prot : present (flag &&& mmuProtMask) = false := by
  rw [present_and, show present mmuProtMask = false from by decide, Bool.and_false]

variable {e}

theorem frameOf_installed (hf : IsFrame f) :
    frameOf (f ||| (flag &&& mmuProtMask) ||| mmuProtPresent) = f := by
  rw [BitVec.or_assoc]
  exact frameOf_or_flags hf ((isFlags_prot flag).or (by decide))

theorem present_installed (f : Word) :
    present (f ||| (flag &&& mmuProtMask) ||| mmuProtPresent) = true := by
  rw [present_or, show present mmuProtPresent = true from by decide, Bool.or_true]

theorem installed_not_ondemand (hf : IsFrame f) :
    (f ||| (flag &&& mmuProtMask) ||| mmuProtPresent) &&& mmuPageOndemand = 0#32 := by
  rw [BitVec.and_or_distrib_right, BitVec.and_or_distrib_right,
    isFrame_and_flags hf (show IsFlags mmuPageOndemand from by decide), BitVec.and_assoc,
    show mmuProtMask &&& mmuPageOndemand = 0#32 from by decide,
    show mmuProtPresent &&& mmuPageOndemand = 0#32 from by decide, BitVec.and_zero]
  decide

theorem not_present_ondemand : present (mmuPageOndemand ||| (flag &&& mmuProtMask)) = false := by
  rw [present_or, present_prot, show present mmuPageOndemand = false from by decide]
  rfl

variable (e)

theorem frameOf_reprotected :
    frameOf ((e &&& ~~~mmuProtMask) ||| (flag &&& mmuProtMask)) = frameOf e := by
  rw [frameOf_or, isFlags_prot flag, BitVec.or_zero]
  exact frameOf_and_not e (by decide)

theorem present_reprotected :
    present ((e &&& ~~~mmuProtMask) ||| (flag &&& mmuProtMask)) = present e := by
  rw [present_or, present_prot, present_and, Bool.or_false,
    show present (~~~mmuProtMask) = true from by decide, Bool.and_true]

theorem reprotected_and_ondemand :
    ((e &&& ~~~mmuProtMask) ||| (flag &&& mmuProtMask)) &&& mmuPageOndemand =
      e &&& mmuPageOndemand := by
  rw [BitVec.and_or_distrib_right, BitVec.and_assoc, BitVec.and_assoc,
    show ~~~mmuProtMask &&& mmuPageOndemand = mmuPageOndemand from by decide,
    show mmuProtMask &&& mmuPageOndemand = 0#32 from by decide, BitVec.and_zero, BitVec.or_zero]

end Entries

namespace Kernel
variable (k : Kernel)

def statics : List Word := [k.pd, k.pt, k.framepoolPt, k.framepoolFirstpage]

theorem isFrame_pd : IsFrame k.pd := k.isFrame _ (by simp)
theorem isFrame_pt : IsFrame k.pt := k.isFrame _ (by simp)
theorem isFrame_framepoolPt : IsFrame k.framepoolPt := k.isFrame _ (by simp)
theorem isFrame_framepoolFirstpage : IsFrame k.framepoolFirstpage := k.isFrame _ (by simp)

theorem pd_ne_pt : k.pd ≠ k.pt := by
  have hnodup := k.nodup
  simp only [List.nodup_cons, List.mem_cons, not_or] at hnodup
  exact hnodup.1.1

theorem pd_ne_framepoolPt : k.pd ≠ k.framepoolPt := by
  have hnodup := k.nodup
  simp only [List.nodup_cons, List.mem_cons, not_or] at hnodup
  exact hnodup.1.2.1

theorem pd_ne_framepoolFirstpage : k.pd ≠ k.framepoolFirstpage := by
  have hnodup := k.nodup
  simp only [List.nodup_cons, List.mem_cons, not_or] at hnodup
  exact hnodup.1.2.2.1

theorem pt_ne_framepoolPt : k.pt ≠ k.framepoolPt := by
  have hnodup := k.nodup
  simp only [List.nodup_cons, List.mem_cons, not_or] at hnodup
  exact hnodup.2.1.1

theorem pt_ne_framepoolFirstpage : k.pt ≠ k.framepoolFirstpage := by
  have hnodup := k.nodup
  simp only [List.nodup_cons, List.mem_cons, not_or] at hnodup
  exact hnodup.2.1.2.1

theorem framepoolPt_ne_framepoolFirstpage : k.framepoolPt ≠ k.framepoolFirstpage := by
  have hnodup := k.nodup
  simp only [List.nodup_cons, List.mem_cons, not_or] at hnodup
  exact hnodup.2.2.1.1

end Kernel

section StaticEntries
variable {f : Word} (hf : IsFrame f)
include hf

theorem present_static : present (f + 3#32) = true := by
  rw [add_flags hf (show IsFlags 3#32 from by decide), present_or]
  simp [show present 3#32 = true from by decide]

theorem frameOf_static : frameOf (f + 3#32) = f := by
  rw [add_flags hf (show IsFlags 3#32 from by decide)]
  exact frameOf_or_flags hf (by decide)

end StaticEntries

/-! ### The state as the directory `MMU_PD` shows it -/

section Views
variable (k : Kernel) (s : State)

def pde (d : Nat) : Word := s.mem k.pd d

/-- The page table of a directory entry. -/
def table (d : Nat) : Word := frameOf (pde k s d)

/-- The page table entry of a page, given by its number. -/
def pte (p : Nat) : Word := s.mem (table k s (p / 1024)) (p % 1024)

def mapped (p : Nat) : Bool := present (pde k s (p / 1024)) && present (pte k s p)

/-- The frame behind a page of the pool array. -/
def poolPage (j : Nat) : Word := frameOf (s.mem k.framepoolPt j)

/-- `MMU_frames[i]` -/
def poolWord (i : Nat) : Word := s.mem (poolPage k s (i / 1024)) (i % 1024)

end Views

inductive Use where
  | free | demand | fixed
  deriving DecidableEq

structure Machine where
  state : State
  uses : Nat → Use
  clones : List Word
  hand : Option Word
  aside : Option Word

inductive Place where
  | pool (i : Nat)
  | page (p : Nat)
  | table (d : Nat)
  | backing (j : Nat)
  | directory (n : Nat)
  | hand
  | aside
  deriving DecidableEq

/-- The pages below the pool array, which `mmu_mmap` is called for. -/
def pageLimit : Nat := mmuFramepoolVma / 4096

def holds (k : Kernel) (m : Machine) : Place → Option Word
  | .pool i => if i < m.state.framesIndex then some (poolWord k m.state i) else none
  | .page p =>
    if p < pageLimit ∧ m.uses p = .demand ∧ mapped k m.state p = true then
      some (frameOf (pte k m.state p))
    else none
  | .table d =>
    if d < 1024 ∧ present (pde k m.state d) = true then some (table k m.state d) else none
  | .backing j =>
    if 0 < j ∧ j < 1024 ∧ present (m.state.mem k.framepoolPt j) = true then
      some (poolPage k m.state j)
    else none
  | .directory n => m.clones[n]?
  | .hand => m.hand
  | .aside => m.aside

/-- What `mmu_init` leaves: the frames in the pool, the table of the pool array, and all
frames it has put in the pool, those behind the array among them; and what is known of the
frames that are mapped without allocation. -/
structure Pool (k : Kernel) where
  frames : List Word
  entries : Nat → Word
  put : List Word
  outside : Word → Prop
  nodup : frames.Nodup
  isFrame : ∀ f ∈ frames, IsFrame f
  aboveImage : ∀ f ∈ frames, k.kend ≤ f.toNat
  length_le : frames.length ≤ 2 ^ 20
  populated : ∀ i < frames.length, present (entries (i / 1024)) = true
  settled : ∀ j, present (entries j) = true ∨ entries j = 0#32
  injective : ∀ i < 1024, ∀ j < 1024, present (entries i) = true → present (entries j) = true →
    frameOf (entries i) = frameOf (entries j) → i = j
  apart : ∀ j < 1024, present (entries j) = true →
    frameOf (entries j) ∉ frames ∧ frameOf (entries j) ∉ [k.pd, k.pt, k.framepoolPt]
  mem_put : ∀ f, f ∈ put ↔ f ∈ frames ∨
    ∃ j, 0 < j ∧ j < 1024 ∧ present (entries j) = true ∧ frameOf (entries j) = f

structure Inv {k : Kernel} (L : Pool k) (m : Machine) : Prop where
  cr3 : m.state.cr3 = k.pd ∨ m.state.cr3 ∈ m.clones
  selfEntry : pde k m.state 1023 = k.pd + 3#32
  poolEntry : pde k m.state 1022 = k.framepoolPt + 3#32
  bootEntry : pde k m.state 960 = k.pt + 3#32
  poolTable : ∀ j, m.state.mem k.framepoolPt j = L.entries j
  own : ∀ f ∈ L.frames, OwnedOnce (holds k m) f
  inPool : ∀ i < m.state.framesIndex, poolWord k m.state i ∈ L.frames
  inTables : ∀ d < 1022, d ≠ 960 → present (pde k m.state d) = true → table k m.state d ∈ L.frames
  settled : ∀ d < 1022, present (pde k m.state d) = true ∨ pde k m.state d = 0#32
  demand : ∀ p < pageLimit, m.uses p = .demand → mapped k m.state p = true →
    frameOf (pte k m.state p) ∈ L.frames
  notDemand : ∀ p < pageLimit, m.uses p ≠ .demand → mapped k m.state p = true →
    L.outside (frameOf (pte k m.state p))
  inUse : ∀ p < pageLimit, mapped k m.state p = true → m.uses p ≠ .free
  ondemand : ∀ p < pageLimit, present (pde k m.state (p / 1024)) = true →
    pte k m.state p &&& mmuPageOndemand ≠ 0#32 → m.uses p = .demand
  inClones : ∀ c ∈ m.clones, c ∈ L.frames
  inHand : ∀ f, m.hand = some f → f ∈ L.frames
  inAside : ∀ f, m.aside = some f → f ∈ L.frames
  cloneUser : ∀ c ∈ m.clones, ∀ d < 512, m.state.mem c d = 0#32
  cloneKernel : ∀ c ∈ m.clones, ∀ d, 512 ≤ d → d < 1023 → m.state.mem c d = pde k m.state d
  cloneSelf : ∀ c ∈ m.clones, m.state.mem c 1023 = c + 3#32
  clondpd : m.clones ≠ [] → present (pde k m.state (mmuPdIndex kaddrClondpd)) = true

namespace Pool
variable {k : Kernel} (L : Pool k) {f : Word}

theorem ne_static (hf : f ∈ L.frames) : f ∉ k.statics := by
  intro hmem
  have hbelow := (k.inImage f hmem).2
  have habove := L.aboveImage f hf
  unfold Kernel.kend at habove
  omega

theorem ne_pd (hf : f ∈ L.frames) : f ≠ k.pd := by
  intro heq
  exact L.ne_static hf (by simp [heq, Kernel.statics])

theorem ne_pt (hf : f ∈ L.frames) : f ≠ k.pt := by
  intro heq
  exact L.ne_static hf (by simp [heq, Kernel.statics])

theorem ne_framepoolPt (hf : f ∈ L.frames) : f ≠ k.framepoolPt := by
  intro heq
  exact L.ne_static hf (by simp [heq, Kernel.statics])

theorem ne_zero (hf : f ∈ L.frames) : f ≠ 0#32 := by
  intro heq
  have habove := L.aboveImage f hf
  rw [heq] at habove
  unfold Kernel.kend at habove
  simp only [BitVec.toNat_ofNat] at habove
  omega

/-- The page of the pool array that holds a slot below the size of the pool. -/
theorem slot_backed {i : Nat} (hi : i < L.frames.length) :
    i / 1024 < 1024 ∧ present (L.entries (i / 1024)) = true := by
  have hle := L.length_le
  exact ⟨by omega, L.populated i hi⟩

theorem put_of_mem (hf : f ∈ L.frames) : f ∈ L.put := (L.mem_put f).2 (.inl hf)

end Pool

section Holds
variable {k : Kernel} {m : Machine} {f : Word}

theorem holds_pool {i : Nat} :
    holds k m (.pool i) = some f ↔ i < m.state.framesIndex ∧ poolWord k m.state i = f := by
  simp only [holds, Option.ite_none_right_eq_some, Option.some.injEq]

theorem holds_page {p : Nat} :
    holds k m (.page p) = some f ↔
      p < pageLimit ∧ m.uses p = .demand ∧ mapped k m.state p = true ∧
        frameOf (pte k m.state p) = f := by
  simp only [holds, Option.ite_none_right_eq_some, Option.some.injEq, and_assoc]

theorem holds_table {d : Nat} :
    holds k m (.table d) = some f ↔
      d < 1024 ∧ present (pde k m.state d) = true ∧ table k m.state d = f := by
  simp only [holds, Option.ite_none_right_eq_some, Option.some.injEq, and_assoc]

theorem holds_backing {j : Nat} :
    holds k m (.backing j) = some f ↔
      (0 < j ∧ j < 1024 ∧ present (m.state.mem k.framepoolPt j) = true) ∧
        poolPage k m.state j = f := by
  simp only [holds, Option.ite_none_right_eq_some, Option.some.injEq, and_assoc]

theorem mapped_iff {s : State} {p : Nat} :
    mapped k s p = true ↔
      present (pde k s (p / 1024)) = true ∧ present (pte k s p) = true := by
  unfold mapped
  exact Bool.and_eq_true_iff

end Holds

/-! ### Frames that are apart -/

namespace Inv
variable {k : Kernel} {L : Pool k} {m : Machine} (h : Inv L m)
include h

theorem place_eq {f : Word} (hf : f ∈ L.frames) {p q : Place} (hp : holds k m p = some f)
    (hq : holds k m q = some f) : p = q :=
  (h.own f hf).eq_place hp hq

section Tables
variable {d : Nat} (hd : d < 1022) (hpresent : present (pde k m.state d) = true)
include hd hpresent

theorem table_cases : table k m.state d = k.pt ∨ table k m.state d ∈ L.frames := by
  cases Nat.decEq d 960 with
  | isTrue heq =>
    left
    rw [heq, table, h.bootEntry, frameOf_static k.isFrame_pt]
  | isFalse hne => exact .inr (h.inTables d hd hne hpresent)

theorem table_ne_pd : table k m.state d ≠ k.pd := by
  cases h.table_cases hd hpresent with
  | inl heq => rw [heq]; exact k.pd_ne_pt.symm
  | inr hmem => exact L.ne_pd hmem

theorem table_ne_framepoolPt : table k m.state d ≠ k.framepoolPt := by
  cases h.table_cases hd hpresent with
  | inl heq => rw [heq]; exact k.pt_ne_framepoolPt
  | inr hmem => exact L.ne_framepoolPt hmem

theorem table_ne_poolPage {j : Nat} (hj : j < 1024) (hbacked : present (L.entries j) = true) :
    table k m.state d ≠ poolPage k m.state j := by
  obtain ⟨hframes, hstatic⟩ := L.apart j hj hbacked
  unfold poolPage
  rw [h.poolTable j]
  cases h.table_cases hd hpresent with
  | inl heq =>
    intro hpage
    rw [← hpage, heq] at hstatic
    exact hstatic (by simp)
  | inr hmem =>
    intro hpage
    rw [hpage] at hmem
    exact hframes hmem

/-- A frame of the pool held by a place that is no table is not a table's frame. -/
theorem table_ne_held {f : Word} {p : Place} (hf : f ∈ L.frames) (hp : holds k m p = some f)
    (hplace : p ≠ .table d) : table k m.state d ≠ f := by
  intro heq
  apply hplace
  exact h.place_eq hf hp (holds_table.2 ⟨by omega, hpresent, heq⟩)

theorem table_injective {e : Nat} (he : e < 1022) (hpresent' : present (pde k m.state e) = true)
    (heq : table k m.state d = table k m.state e) : d = e := by
  cases h.table_cases hd hpresent with
  | inr hmem =>
    have hplace := h.place_eq hmem (holds_table.2 ⟨by omega, hpresent, rfl⟩)
      (holds_table.2 ⟨by omega, hpresent', heq.symm⟩)
    exact Place.table.inj hplace
  | inl hpt =>
    -- Both are the boot table, which only the entry 960 refers to.
    cases Nat.decEq d 960 with
    | isFalse hne => exact absurd hpt (L.ne_pt (h.inTables d hd hne hpresent))
    | isTrue hd960 =>
      cases Nat.decEq e 960 with
      | isFalse hne => exact absurd (heq.symm.trans hpt) (L.ne_pt (h.inTables e he hne hpresent'))
      | isTrue he960 => rw [hd960, he960]

theorem table_not_clone : table k m.state d ∉ m.clones := by
  intro hmem
  obtain ⟨n, hn⟩ := List.mem_iff_getElem?.1 hmem
  exact h.table_ne_held hd hpresent (h.inClones _ hmem) (p := .directory n) hn (by simp) rfl

theorem table_ne_hand {f : Word} (hhand : m.hand = some f) : table k m.state d ≠ f :=
  h.table_ne_held hd hpresent (h.inHand f hhand) (p := .hand) hhand (by simp)

end Tables

theorem hand_not_clone {f : Word} (hhand : m.hand = some f) : f ∉ m.clones := by
  intro hmem
  obtain ⟨n, hn⟩ := List.mem_iff_getElem?.1 hmem
  have hplace := h.place_eq (h.inHand f hhand) (p := .hand) (q := .directory n) hhand hn
  exact Place.noConfusion hplace

theorem poolPage_ne_frame {j : Nat} (hj : j < 1024) (hbacked : present (L.entries j) = true)
    {f : Word} (hf : f ∈ L.frames) : poolPage k m.state j ≠ f := by
  intro heq
  apply (L.apart j hj hbacked).1
  rw [← h.poolTable j]
  rw [← heq] at hf
  exact hf

theorem poolPage_ne_static {j : Nat} (hj : j < 1024) (hbacked : present (L.entries j) = true) :
    poolPage k m.state j ∉ [k.pd, k.pt, k.framepoolPt] := by
  have hapart := (L.apart j hj hbacked).2
  rw [← h.poolTable j] at hapart
  exact hapart

/-- The pool never holds more than `mmu_init` left in it. -/
theorem framesIndex_le : m.state.framesIndex ≤ L.frames.length :=
  slots_le_length Place.pool (fun _ _ heq => Place.pool.inj heq)
    (fun i hi => ⟨_, h.inPool i hi, holds_pool.2 ⟨hi, rfl⟩⟩) h.own

theorem framesIndex_lt_of_held {f : Word} {p : Place} (hf : f ∈ L.frames)
    (hp : holds k m p = some f) (hplace : ∀ i, Place.pool i ≠ p) :
    m.state.framesIndex < L.frames.length :=
  slots_lt_length Place.pool (fun _ _ heq => Place.pool.inj heq)
    (fun i hi => ⟨_, h.inPool i hi, holds_pool.2 ⟨hi, rfl⟩⟩) h.own hf hp (fun i _ => hplace i)

end Inv

end OsdevCourse.Mmu
