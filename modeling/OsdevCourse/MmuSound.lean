import OsdevCourse.MmuCalls
import Mathlib.Data.Finset.Card

/-!
# What the page tables need

Less than the invariant of frame ownership is enough for the page tables to stay what they
are: in one directory, that the free frames, the page tables and the manager's own frames are
apart. Which frames are behind the pages does not matter, so pages may be mapped, remapped and
unmapped in any way that gives no such frame back to the pool.
-/

namespace OsdevCourse.Mmu

set_option autoImplicit false

open PageEntry

/-- A frame the memory manager itself is in. -/
def Reserved (k : Kernel) (s : State) (f : Word) : Prop :=
  f = k.pd ∨ f = k.framepoolPt ∨
    ∃ j < 1024, present (s.mem k.framepoolPt j) = true ∧ poolPage k s j = f

/-- A frame that is neither the manager's own nor a page table. -/
structure Spare (k : Kernel) (s : State) (f : Word) : Prop where
  isFrame : IsFrame f
  ne_zero : f ≠ 0#32
  reserved : ¬ Reserved k s f
  tables : ∀ d < 1022, present (pde k s d) = true → table k s d ≠ f

structure Sound (k : Kernel) (s : State) : Prop where
  cr3 : s.cr3 = k.pd
  selfEntry : pde k s 1023 = k.pd + 3#32
  poolEntry : pde k s 1022 = k.framepoolPt + 3#32
  settled : ∀ d < 1022, present (pde k s d) = true ∨ pde k s d = 0#32
  tables : ∀ d < 1022, present (pde k s d) = true → ¬ Reserved k s (table k s d)
  tables_ne_zero : ∀ d < 1022, present (pde k s d) = true → table k s d ≠ 0#32
  tables_inj : ∀ d < 1022, ∀ e < 1022, present (pde k s d) = true → present (pde k s e) = true →
    table k s d = table k s e → d = e
  reserved_ne_zero : ∀ f, Reserved k s f → f ≠ 0#32
  poolSettled : ∀ j < 1024, present (s.mem k.framepoolPt j) = true ∨ s.mem k.framepoolPt j = 0#32
  poolPages : ∀ j < 1024, present (s.mem k.framepoolPt j) = true →
    poolPage k s j ≠ k.pd ∧ poolPage k s j ≠ k.framepoolPt
  poolPages_inj : ∀ i < 1024, ∀ j < 1024, present (s.mem k.framepoolPt i) = true →
    present (s.mem k.framepoolPt j) = true → poolPage k s i = poolPage k s j → i = j
  slots : ∀ i < s.framesIndex, i < 2 ^ 20 → present (s.mem k.framepoolPt (i / 1024)) = true
  spare : ∀ i < s.framesIndex, Spare k s (poolWord k s i)
  spare_inj : ∀ i < s.framesIndex, ∀ j < s.framesIndex,
    poolWord k s i = poolWord k s j → i = j

theorem reserved_congr {k : Kernel} {s s' : State}
    (h : ∀ j, s'.mem k.framepoolPt j = s.mem k.framepoolPt j) (f : Word) :
    Reserved k s' f ↔ Reserved k s f := by
  unfold Reserved poolPage
  simp only [h]

namespace Sound
variable {k : Kernel} {s : State} (h : Sound k s)
include h

theorem selfMapped : SelfMapped s := by
  unfold SelfMapped
  rw [h.cr3, show s.mem k.pd 1023 = k.pd + 3#32 from h.selfEntry]
  exact ⟨present_static k.isFrame_pd, frameOf_static k.isFrame_pd⟩

theorem active_pool : s.mem s.cr3 1022 = k.framepoolPt + 3#32 := by
  rw [h.cr3]
  exact h.poolEntry

theorem table_ne_pd {d : Nat} (hd : d < 1022) (hpresent : present (pde k s d) = true) :
    table k s d ≠ k.pd := fun heq => h.tables d hd hpresent (.inl heq)

/-- The frames of the slots are pairwise different, so there are fewer than frames. -/
theorem framesIndex_lt : s.framesIndex < 2 ^ 20 := by
  have himage : ∀ i ∈ Finset.range s.framesIndex,
      (poolWord k s i).toNat / 4096 ∈ (Finset.range (2 ^ 20)).erase (k.pd.toNat / 4096) := by
    intro i hi
    have hspare := h.spare i (Finset.mem_range.1 hi)
    have hlt := (poolWord k s i).isLt
    rw [Finset.mem_erase, Finset.mem_range]
    refine ⟨?_, by omega⟩
    intro heq
    apply hspare.reserved
    left
    have hframe := isFrame_iff.1 hspare.isFrame
    have hpd := isFrame_iff.1 k.isFrame_pd
    apply BitVec.eq_of_toNat_eq
    omega
  have hinjective : Set.InjOn (fun i => (poolWord k s i).toNat / 4096)
      (Finset.range s.framesIndex : Finset Nat) := by
    intro i hi j hj heq
    have hi' := Finset.mem_range.1 (Finset.mem_coe.1 hi)
    have hj' := Finset.mem_range.1 (Finset.mem_coe.1 hj)
    have hiframe := isFrame_iff.1 (h.spare i hi').isFrame
    have hjframe := isFrame_iff.1 (h.spare j hj').isFrame
    simp only at heq
    apply h.spare_inj i hi' j hj'
    apply BitVec.eq_of_toNat_eq
    omega
  have hle := Finset.card_le_card_of_injOn _ himage hinjective
  have hpd : k.pd.toNat / 4096 ∈ Finset.range (2 ^ 20) := by
    have hlt := k.pd.isLt
    rw [Finset.mem_range]
    omega
  rw [Finset.card_range, Finset.card_erase_of_mem hpd, Finset.card_range] at hle
  omega

theorem slot_present {i : Nat} (hi : i < s.framesIndex) :
    i / 1024 < 1024 ∧ present (s.mem k.framepoolPt (i / 1024)) = true := by
  have hlt := h.framesIndex_lt
  exact ⟨by omega, h.slots i hi (by omega)⟩

theorem reserved_page {i : Nat} (hi : i < s.framesIndex) :
    Reserved k s (poolPage k s (i / 1024)) := by
  obtain ⟨hj, hpresent⟩ := h.slot_present hi
  exact .inr (.inr ⟨_, hj, hpresent, rfl⟩)

/-- The slots in use are read the same after a change in a frame that is not the manager's. -/
theorem poolWord_off {s' : State} {g : Word} (hg : ¬ Reserved k s g)
    (hagree : ∀ f, f ≠ g → ∀ j, s'.mem f j = s.mem f j) {i : Nat} (hi : i < s.framesIndex) :
    poolWord k s' i = poolWord k s i := by
  refine poolWord_agree hagree (fun heq => hg (.inr (.inl heq))) ?_
  intro heq
  apply hg
  rw [← heq]
  exact h.reserved_page hi

omit h in
theorem spare_congr {s' : State} (hpd : ∀ d, pde k s' d = pde k s d)
    (hpt : ∀ j, s'.mem k.framepoolPt j = s.mem k.framepoolPt j) {f : Word} (hf : Spare k s f) :
    Spare k s' f := by
  refine ⟨hf.isFrame, hf.ne_zero, ?_, ?_⟩
  · rw [reserved_congr hpt]
    exact hf.reserved
  · intro d hd hpresent
    unfold table
    rw [hpd] at hpresent ⊢
    exact hf.tables d hd hpresent

theorem of_kept {s' : State} (hpd : ∀ d, pde k s' d = pde k s d)
    (hpt : ∀ j, s'.mem k.framepoolPt j = s.mem k.framepoolPt j) (hcr3 : s'.cr3 = s.cr3)
    (hslots : ∀ i < s'.framesIndex, i < 2 ^ 20 → present (s.mem k.framepoolPt (i / 1024)) = true)
    (hspare : ∀ i < s'.framesIndex, Spare k s (poolWord k s' i))
    (hinj : ∀ i < s'.framesIndex, ∀ j < s'.framesIndex,
      poolWord k s' i = poolWord k s' j → i = j) : Sound k s' := by
  have htable : ∀ d, table k s' d = table k s d := by
    intro d
    unfold table
    rw [hpd]
  have hpage : ∀ j, poolPage k s' j = poolPage k s j := by
    intro j
    unfold poolPage
    rw [hpt]
  have hreserved := fun f => reserved_congr hpt f
  refine ⟨hcr3.trans h.cr3, ?_, ?_, ?_, ?_, ?_, ?_, ?_, ?_, ?_, ?_, ?_, ?_, hinj⟩
  · rw [hpd]
    exact h.selfEntry
  · rw [hpd]
    exact h.poolEntry
  · intro d hd
    rw [hpd]
    exact h.settled d hd
  · intro d hd hpresent
    rw [hpd] at hpresent
    rw [htable, hreserved]
    exact h.tables d hd hpresent
  · intro d hd hpresent
    rw [hpd] at hpresent
    rw [htable]
    exact h.tables_ne_zero d hd hpresent
  · intro d hd e he hpresent hpresent'
    rw [hpd] at hpresent hpresent'
    rw [htable, htable]
    exact h.tables_inj d hd e he hpresent hpresent'
  · intro f hf
    rw [hreserved] at hf
    exact h.reserved_ne_zero f hf
  · intro j hj
    rw [hpt]
    exact h.poolSettled j hj
  · intro j hj hpresent
    rw [hpt] at hpresent
    rw [hpage]
    exact h.poolPages j hj hpresent
  · intro i hi j hj hpresent hpresent'
    rw [hpt] at hpresent hpresent'
    rw [hpage, hpage]
    exact h.poolPages_inj i hi j hj hpresent hpresent'
  · intro i hi hlt
    rw [hpt]
    exact hslots i hi hlt
  · intro i hi
    exact spare_congr hpd hpt (hspare i hi)

/-- A change in a frame that is not the manager's own, and frames leaving the pool. -/
theorem of_unread {s' : State} {g : Word} (hg : ¬ Reserved k s g)
    (hagree : ∀ f, f ≠ g → ∀ j, s'.mem f j = s.mem f j) (hcr3 : s'.cr3 = s.cr3)
    (hindex : s'.framesIndex ≤ s.framesIndex) : Sound k s' := by
  have hword : ∀ i < s'.framesIndex, poolWord k s' i = poolWord k s i :=
    fun i hi => h.poolWord_off hg hagree (by omega)
  refine h.of_kept (pde_agree hagree fun heq => hg (.inl heq))
    (hagree _ fun heq => hg (.inr (.inl heq.symm))) hcr3 ?_ ?_ ?_
  · intro i hi
    exact h.slots i (by omega)
  · intro i hi
    rw [hword i hi]
    exact h.spare i (by omega)
  · intro i hi j hj
    rw [hword i hi, hword j hj]
    exact h.spare_inj i (by omega) j (by omega)

theorem same_mem {s' : State} (hmem : ∀ f j, s'.mem f j = s.mem f j) (hcr3 : s'.cr3 = s.cr3)
    (hindex : s'.framesIndex ≤ s.framesIndex) : Sound k s' := by
  have hword : ∀ i, poolWord k s' i = poolWord k s i := by
    intro i
    unfold poolWord poolPage
    rw [hmem, hmem]
  refine h.of_kept (hmem k.pd) (hmem k.framepoolPt) hcr3 ?_ ?_ ?_
  · intro i hi
    exact h.slots i (by omega)
  · intro i hi
    rw [hword]
    exact h.spare i (by omega)
  · intro i hi j hj
    rw [hword, hword]
    exact h.spare_inj i (by omega) j (by omega)

section Push
variable {f : Word} (hbacked : present (s.mem k.framepoolPt (s.framesIndex / 1024)) = true)
include hbacked

/-- The page of the pool that is written is not the directory, nor the table of the pool. -/
theorem freed_page : poolPage k s (s.framesIndex / 1024) ≠ k.pd ∧
    poolPage k s (s.framesIndex / 1024) ≠ k.framepoolPt := by
  have hlt := h.framesIndex_lt
  exact h.poolPages _ (by omega) hbacked

theorem poolPage_freed (j : Nat) : poolPage k (freed k f s) j = poolPage k s j :=
  poolPage_agree (fun _ hg j => freed_agree hg j) (h.freed_page hbacked).2 j

theorem freed_top : poolWord k (freed k f s) s.framesIndex = f := by
  unfold poolWord
  rw [h.poolPage_freed hbacked]
  exact set_mem_same _ _ _ _

theorem freed_word {i : Nat} (hi : i < s.framesIndex) :
    poolWord k (freed k f s) i = poolWord k s i := by
  have hlt := h.framesIndex_lt
  obtain ⟨hj, hpresent⟩ := h.slot_present hi
  unfold poolWord
  rw [h.poolPage_freed hbacked]
  refine (set_mem _ _ _ _ _ _).trans (if_neg ?_)
  intro hand
  have hdiv := h.poolPages_inj _ hj _ (by omega) hpresent hbacked hand.1
  have hmod := hand.2
  omega

theorem push (hspare : Spare k s f) (hnew : ∀ i < s.framesIndex, poolWord k s i ≠ f) :
    Sound k (freed k f s) := by
  obtain ⟨hpd, hpt⟩ := h.freed_page hbacked
  have hagree : ∀ g, g ≠ poolPage k s (s.framesIndex / 1024) →
      ∀ j, (freed k f s).mem g j = s.mem g j := fun _ hg j => freed_agree hg j
  have htop := h.freed_top hbacked (f := f)
  have hold : ∀ i < s.framesIndex, poolWord k (freed k f s) i = poolWord k s i :=
    fun i hi => h.freed_word hbacked hi
  have hcases : ∀ i < (freed k f s).framesIndex, i < s.framesIndex ∨ i = s.framesIndex :=
    fun i hi => Nat.lt_succ_iff_lt_or_eq.1 hi
  refine h.of_kept (pde_agree hagree hpd) (hagree _ hpt.symm) rfl ?_ ?_ ?_
  · intro i hi hlt
    cases hcases i hi with
    | inl hlow => exact h.slots i hlow hlt
    | inr heq =>
      rw [heq]
      exact hbacked
  · intro i hi
    cases hcases i hi with
    | inl hlow =>
      rw [hold i hlow]
      exact h.spare i hlow
    | inr heq =>
      rw [heq, htop]
      exact hspare
  · intro i hi j hj heq
    cases hcases i hi with
    | inl hilow =>
      cases hcases j hj with
      | inl hjlow =>
        rw [hold i hilow, hold j hjlow] at heq
        exact h.spare_inj i hilow j hjlow heq
      | inr hjtop =>
        rw [hold i hilow, hjtop, htop] at heq
        exact absurd heq (hnew i hilow)
    | inr hitop =>
      cases hcases j hj with
      | inl hjlow =>
        rw [hold j hjlow, hitop, htop] at heq
        exact absurd heq.symm (hnew j hjlow)
      | inr hjtop => rw [hitop, hjtop]

end Push

/-! ### A page table is made -/

section Table
variable {addr : Nat} (hd : mmuPdIndex addr < 1022) (hpos : 0 < s.framesIndex)
include hd hpos

omit hd in
theorem top_marked (d : Nat) (w : Word) : poolWord k (s.set s.cr3 d w) (s.framesIndex - 1) =
    poolWord k s (s.framesIndex - 1) := by
  obtain ⟨hj, hpresent⟩ := h.slot_present (i := s.framesIndex - 1) (by omega)
  rw [h.cr3]
  refine poolWord_agree (fun f hf j => set_mem_frame _ _ _ _ hf j) k.pd_ne_framepoolPt ?_
  exact (h.poolPages _ hj hpresent).1

theorem newTable_mem (g : Word) (j : Nat) :
    (newTable k addr s).mem g j =
      if g = k.pd ∧ j = mmuPdIndex addr then tableEntry (poolWord k s (s.framesIndex - 1))
      else if g = poolWord k s (s.framesIndex - 1) then 0#32
      else s.mem g j :=
  newTable_mem_of h.cr3 h.selfMapped hd
    (fun heq => (h.spare (s.framesIndex - 1) (by omega)).reserved (.inl heq))
    (h.top_marked hpos _ _) g j

theorem table_fault (depth : Nat) :
    pageFault k (depth + 1) (ptSlot addr) (s.set s.cr3 (mmuPdIndex addr)
      (mmuPageOndemand ||| mmuProtRw ||| mmuProtUser)) = some (newTable k addr s) := by
  obtain ⟨hself₀, _, hpresent, hondemand⟩ := faulting_state h.selfMapped hd rfl
  have htop := h.spare (s.framesIndex - 1) (by omega)
  have hword := h.top_marked hpos (mmuPdIndex addr) (mmuPageOndemand ||| mmuProtRw ||| mmuProtUser)
  obtain ⟨_, hpage⟩ := h.slot_present (i := s.framesIndex - 1) (by omega)
  have hpage₀ : present ((s.set s.cr3 (mmuPdIndex addr)
      (mmuPageOndemand ||| mmuProtRw ||| mmuProtUser)).mem k.framepoolPt
        ((s.framesIndex - 1) / 1024)) = true := by
    rw [set_mem_frame _ _ _ _ (by rw [h.cr3]; exact k.pd_ne_framepoolPt.symm)]
    exact hpage
  have hpool₀ : (s.set s.cr3 (mmuPdIndex addr)
      (mmuPageOndemand ||| mmuProtRw ||| mmuProtUser)).mem s.cr3 1022 = k.framepoolPt + 3#32 := by
    rw [set_mem_word _ _ _ _ _ (by omega)]
    exact h.active_pool
  have hlt := h.framesIndex_lt
  have halloc : ∀ fault, mmuAlloc fault (s.set s.cr3 (mmuPdIndex addr)
      (mmuPageOndemand ||| mmuProtRw ||| mmuProtUser)) = some (poolWord k (s.set s.cr3
        (mmuPdIndex addr) (mmuPageOndemand ||| mmuProtRw ||| mmuProtUser)) (s.framesIndex - 1),
      { s.set s.cr3 (mmuPdIndex addr) (mmuPageOndemand ||| mmuProtRw ||| mmuProtUser) with
        framesIndex := s.framesIndex - 1 }) :=
    fun _ => mmuAlloc_eq (s := s.set s.cr3 _ _) hpos (Nat.le_of_lt hlt) hpool₀ hpage₀
  have hne : poolWord k (s.set s.cr3 (mmuPdIndex addr)
      (mmuPageOndemand ||| mmuProtRw ||| mmuProtUser)) (s.framesIndex - 1) ≠ s.cr3 := by
    rw [hword, h.cr3]
    exact fun heq => htop.reserved (.inl heq)
  have hframe : IsFrame (poolWord k (s.set s.cr3 (mmuPdIndex addr)
      (mmuPageOndemand ||| mmuProtRw ||| mmuProtUser)) (s.framesIndex - 1)) := by
    rw [hword]
    exact htop.isFrame
  refine int0E_putIn hself₀ hpresent hframe hne ?_ halloc hondemand depth
  intro _
  rw [mmuPtIndex_ptSlot, mmuPdIndex_ptSlot]
  exact ⟨by omega, by omega⟩

theorem newTable_pde (e : Nat) : pde k (newTable k addr s) e =
    if e = mmuPdIndex addr then tableEntry (poolWord k s (s.framesIndex - 1)) else pde k s e := by
  have htop := h.spare (s.framesIndex - 1) (by omega)
  unfold pde
  rw [h.newTable_mem hd hpos]
  cases Nat.decEq e (mmuPdIndex addr) with
  | isTrue heq => rw [if_pos ⟨rfl, heq⟩, if_pos heq]
  | isFalse hne =>
    rw [if_neg fun hand => hne hand.2, if_neg hne,
      if_neg fun heq => htop.reserved (.inl heq.symm)]

theorem newTable_poolPt (j : Nat) :
    (newTable k addr s).mem k.framepoolPt j = s.mem k.framepoolPt j := by
  have htop := h.spare (s.framesIndex - 1) (by omega)
  rw [h.newTable_mem hd hpos, if_neg fun hand => k.pd_ne_framepoolPt hand.1.symm,
    if_neg fun heq => htop.reserved (.inr (.inl heq.symm))]

theorem newTable_poolWord {i : Nat} (hi : i < s.framesIndex - 1) :
    poolWord k (newTable k addr s) i = poolWord k s i ∧
      ∀ j, (newTable k addr s).mem (poolWord k s i) j = s.mem (poolWord k s i) j := by
  have htop := h.spare (s.framesIndex - 1) (by omega)
  have hspare := h.spare i (by omega)
  have hne : poolWord k s i ≠ poolWord k s (s.framesIndex - 1) := by
    intro heq
    have := h.spare_inj i (by omega) _ (by omega) heq
    omega
  refine ⟨?_, ?_⟩
  · obtain ⟨hj, hpresent⟩ := h.slot_present (i := i) (by omega)
    unfold poolWord poolPage
    rw [h.newTable_poolPt hd hpos, h.newTable_mem hd hpos,
      if_neg fun hand => (h.poolPages _ hj hpresent).1 hand.1, if_neg]
    intro heq
    exact htop.reserved (.inr (.inr ⟨_, hj, hpresent, heq⟩))
  · intro j
    rw [h.newTable_mem hd hpos, if_neg fun hand => hspare.reserved (.inl hand.1), if_neg hne]

theorem newTable_table_same :
    table k (newTable k addr s) (mmuPdIndex addr) = poolWord k s (s.framesIndex - 1) := by
  have htop := h.spare (s.framesIndex - 1) (by omega)
  unfold table
  rw [h.newTable_pde hd hpos, if_pos rfl]
  exact frameOf_installed _ htop.isFrame

theorem newTable_table_other {e : Nat} (he : e ≠ mmuPdIndex addr) :
    pde k (newTable k addr s) e = pde k s e ∧ table k (newTable k addr s) e = table k s e := by
  unfold table
  rw [h.newTable_pde hd hpos, if_neg he]
  exact ⟨rfl, rfl⟩

theorem newTable_tables_inj (a : Nat) (ha : a < 1022) (b : Nat) (hb : b < 1022)
    (hapresent : present (pde k (newTable k addr s) a) = true)
    (hbpresent : present (pde k (newTable k addr s) b) = true)
    (heq : table k (newTable k addr s) a = table k (newTable k addr s) b) : a = b := by
  have htop := h.spare (s.framesIndex - 1) (by omega)
  have hsame := h.newTable_table_same hd hpos
  cases Nat.decEq a (mmuPdIndex addr) with
  | isTrue haddr =>
    cases Nat.decEq b (mmuPdIndex addr) with
    | isTrue hbaddr => rw [haddr, hbaddr]
    | isFalse hne =>
      obtain ⟨hpde, htable⟩ := h.newTable_table_other hd hpos hne
      rw [hpde] at hbpresent
      rw [haddr, hsame, htable] at heq
      exact absurd heq.symm (htop.tables b hb hbpresent)
  | isFalse hne =>
    obtain ⟨hpde, htable⟩ := h.newTable_table_other hd hpos hne
    rw [hpde] at hapresent
    rw [htable] at heq
    cases Nat.decEq b (mmuPdIndex addr) with
    | isTrue hbaddr =>
      rw [hbaddr, hsame] at heq
      exact absurd heq (htop.tables a ha hapresent)
    | isFalse hne' =>
      obtain ⟨hpde', htable'⟩ := h.newTable_table_other hd hpos hne'
      rw [hpde'] at hbpresent
      rw [htable'] at heq
      exact h.tables_inj a ha b hb hapresent hbpresent heq

theorem newTable_spare {i : Nat} (hi : i < s.framesIndex - 1) :
    Spare k (newTable k addr s) (poolWord k s i) := by
  have hspare := h.spare i (by omega)
  refine ⟨hspare.isFrame, hspare.ne_zero, ?_, ?_⟩
  · rw [reserved_congr (h.newTable_poolPt hd hpos)]
    exact hspare.reserved
  · intro e he hpresent
    cases Nat.decEq e (mmuPdIndex addr) with
    | isTrue heq =>
      rw [heq, h.newTable_table_same hd hpos]
      intro hsameWord
      have := h.spare_inj i (by omega) _ (by omega) hsameWord.symm
      omega
    | isFalse hne =>
      obtain ⟨hpde, htable⟩ := h.newTable_table_other hd hpos hne
      rw [hpde] at hpresent
      rw [htable]
      exact hspare.tables e he hpresent

theorem newTable_sound : Sound k (newTable k addr s) := by
  have htop := h.spare (s.framesIndex - 1) (by omega)
  have hpt := h.newTable_poolPt hd hpos
  have hreserved := fun f => reserved_congr hpt f
  have hpage : ∀ j, poolPage k (newTable k addr s) j = poolPage k s j := by
    intro j
    unfold poolPage
    rw [hpt]
  have hsame := h.newTable_table_same hd hpos
  have hother := fun e (he : e ≠ mmuPdIndex addr) => h.newTable_table_other hd hpos he
  have hindex : (newTable k addr s).framesIndex = s.framesIndex - 1 := newTable_framesIndex k addr s
  have hword := fun i hi => (h.newTable_poolWord hd hpos (i := i) hi).1
  refine ⟨(newTable_cr3 k addr s).trans h.cr3, ?_, ?_, ?_, ?_, ?_, h.newTable_tables_inj hd hpos,
    ?_, ?_, ?_, ?_, ?_, ?_, ?_⟩
  · rw [(hother _ (by omega)).1]
    exact h.selfEntry
  · rw [(hother _ (by omega)).1]
    exact h.poolEntry
  · intro e he
    cases Nat.decEq e (mmuPdIndex addr) with
    | isTrue heq =>
      left
      rw [h.newTable_pde hd hpos, if_pos heq]
      exact present_installed _ _
    | isFalse hne =>
      rw [(hother e hne).1]
      exact h.settled e he
  · intro e he hpresent
    rw [hreserved]
    cases Nat.decEq e (mmuPdIndex addr) with
    | isTrue heq =>
      rw [heq, hsame]
      exact htop.reserved
    | isFalse hne =>
      rw [(hother e hne).1] at hpresent
      rw [(hother e hne).2]
      exact h.tables e he hpresent
  · intro e he hpresent
    cases Nat.decEq e (mmuPdIndex addr) with
    | isTrue heq =>
      rw [heq, hsame]
      exact htop.ne_zero
    | isFalse hne =>
      rw [(hother e hne).1] at hpresent
      rw [(hother e hne).2]
      exact h.tables_ne_zero e he hpresent
  · intro f hf
    rw [hreserved] at hf
    exact h.reserved_ne_zero f hf
  · intro j hj
    rw [hpt]
    exact h.poolSettled j hj
  · intro j hj hpresent
    rw [hpt] at hpresent
    rw [hpage]
    exact h.poolPages j hj hpresent
  · intro i hi j hj hpresent hpresent'
    rw [hpt] at hpresent hpresent'
    rw [hpage, hpage]
    exact h.poolPages_inj i hi j hj hpresent hpresent'
  · intro i hi hlt
    rw [hpt]
    exact h.slots i (by omega) hlt
  · intro i hi
    rw [hword i (by omega)]
    exact h.newTable_spare hd hpos (by omega)
  · intro i hi j hj
    rw [hword i (by omega), hword j (by omega)]
    exact h.spare_inj i (by omega) j (by omega)

end Table

end Sound

end OsdevCourse.Mmu
