import OsdevCourse.MmuInvariant

/-!
# The effects that keep the invariant

What the memory manager does to the memory is a sequence of six effects: a frame is popped
from the pool or pushed on it, a frame in hand is written, a page table entry changes, a
frame in hand becomes a page, a page table or a directory, and a page gives its frame back.
Each keeps the invariant.
-/

namespace OsdevCourse.Mmu

set_option autoImplicit false

open PageEntry

theorem mapped_of_entries {k : Kernel} {s s' : State} {p : Nat}
    (hpde : pde k s' (p / 1024) = pde k s (p / 1024))
    (hpte : present (pde k s (p / 1024)) = true → pte k s' p = pte k s p) :
    mapped k s' p = mapped k s p := by
  unfold mapped
  rw [hpde]
  cases hpresent : present (pde k s (p / 1024)) with
  | false => rw [Bool.false_and, Bool.false_and]
  | true => rw [hpte hpresent]

/-! ### Memory that differs in one frame -/

section Agree
variable {k : Kernel} {s s' : State} {g : Word}
  (hagree : ∀ f, f ≠ g → ∀ j, s'.mem f j = s.mem f j)
include hagree

theorem pde_agree (hpd : g ≠ k.pd) (d : Nat) : pde k s' d = pde k s d := hagree _ hpd.symm d

theorem table_agree (hpd : g ≠ k.pd) (d : Nat) : table k s' d = table k s d := by
  unfold table
  rw [pde_agree hagree hpd]

theorem poolPage_agree (hpt : g ≠ k.framepoolPt) (j : Nat) :
    poolPage k s' j = poolPage k s j := by
  unfold poolPage
  rw [hagree _ hpt.symm]

theorem poolWord_agree (hpt : g ≠ k.framepoolPt) {i : Nat} (hpage : poolPage k s (i / 1024) ≠ g) :
    poolWord k s' i = poolWord k s i := by
  unfold poolWord
  rw [poolPage_agree hagree hpt, hagree _ hpage]

theorem pte_agree (hpd : g ≠ k.pd) {p : Nat} (htable : table k s (p / 1024) ≠ g) :
    pte k s' p = pte k s p := by
  unfold pte
  rw [table_agree hagree hpd, hagree _ htable]

end Agree

theorem pageLimit_div {p : Nat} (hp : p < pageLimit) : p / 1024 < 1022 := by
  unfold pageLimit mmuFramepoolVma at hp
  omega

/-- No part of the memory manager's state but the pool's slots is in the frame. -/
structure Unread (k : Kernel) (m : Machine) (g : Word) : Prop where
  pd : g ≠ k.pd
  framepoolPt : g ≠ k.framepoolPt
  tables : ∀ d < 1022, present (pde k m.state d) = true → table k m.state d ≠ g
  clones : g ∉ m.clones

section Unread
variable {k : Kernel} {m : Machine} {s' : State} {g : Word}
  (hagree : ∀ f, f ≠ g → ∀ j, s'.mem f j = m.state.mem f j) (hunread : Unread k m g)
include hagree hunread

theorem mapped_unread {p : Nat} (hp : p < pageLimit) :
    mapped k s' p = mapped k m.state p := by
  apply mapped_of_entries (pde_agree hagree hunread.pd _)
  intro hpresent
  exact pte_agree hagree hunread.pd (hunread.tables _ (pageLimit_div hp) hpresent)

theorem pte_unread {p : Nat} (hp : p < pageLimit)
    (hpresent : present (pde k m.state (p / 1024)) = true) : pte k s' p = pte k m.state p :=
  pte_agree hagree hunread.pd (hunread.tables _ (pageLimit_div hp) hpresent)

/-- The places other than the slots of the pool and the hand hold what they held. -/
theorem holds_unread (hand' : Option Word) {q : Place} (hpool : ∀ i, q ≠ .pool i)
    (hhand : q ≠ .hand) :
    holds k { m with state := s', hand := hand' } q = holds k m q := by
  cases q with
  | pool i => exact absurd rfl (hpool i)
  | hand => exact absurd rfl hhand
  | directory n => rfl
  | aside => rfl
  | backing j =>
    simp only [holds, poolPage_agree hagree hunread.framepoolPt,
      hagree _ hunread.framepoolPt.symm]
  | table d =>
    simp only [holds, pde_agree hagree hunread.pd, table_agree hagree hunread.pd]
  | page p =>
    simp only [holds]
    cases Nat.decLt p pageLimit with
    | isFalse hp => rw [if_neg fun hand => hp hand.1, if_neg fun hand => hp hand.1]
    | isTrue hp =>
      rw [mapped_unread hagree hunread hp]
      cases hmapped : mapped k m.state p with
      | false => simp
      | true =>
        rw [pte_unread hagree hunread hp (mapped_iff.1 hmapped).1]

end Unread

namespace Inv
variable {k : Kernel} {L : Pool k} {m : Machine} (h : Inv L m)
include h

theorem congr_state {s' : State} (hmem : s'.mem = m.state.mem) (hcr3 : s'.cr3 = m.state.cr3)
    (hindex : s'.framesIndex = m.state.framesIndex) : Inv L { m with state := s' } := by
  obtain ⟨⟨mem, cr3, framesIndex, trace⟩, uses, clones, hand⟩ := m
  obtain ⟨mem', cr3', framesIndex', trace'⟩ := s'
  subst hmem hcr3 hindex
  exact ⟨h.cr3, h.selfEntry, h.poolEntry, h.bootEntry, h.poolTable, h.own, h.inPool, h.inTables,
    h.settled, h.demand, h.notDemand, h.inUse, h.ondemand, h.inClones, h.inHand, h.inAside,
    h.cloneUser, h.cloneKernel, h.cloneSelf, h.clondpd⟩

/-- A change in a frame that only slots of the pool may be in. -/
theorem of_unread {s' : State} {hand' : Option Word} {g : Word}
    (hagree : ∀ f, f ≠ g → ∀ j, s'.mem f j = m.state.mem f j) (hunread : Unread k m g)
    (hcr3 : s'.cr3 = m.state.cr3)
    (hown : ∀ f ∈ L.frames, OwnedOnce (holds k { m with state := s', hand := hand' }) f)
    (hinPool : ∀ i < s'.framesIndex, poolWord k s' i ∈ L.frames)
    (hinHand : ∀ f, hand' = some f → f ∈ L.frames) :
    Inv L { m with state := s', hand := hand' } := by
  have hpde := pde_agree hagree hunread.pd
  have htable := table_agree hagree hunread.pd
  refine ⟨?_, ?_, ?_, ?_, ?_, hown, hinPool, ?_, ?_, ?_, ?_, ?_, ?_, h.inClones, hinHand,
    h.inAside, ?_, ?_, ?_, ?_⟩
  · simp only [hcr3]
    exact h.cr3
  · exact (hpde _).trans h.selfEntry
  · exact (hpde _).trans h.poolEntry
  · exact (hpde _).trans h.bootEntry
  · intro j
    exact (hagree _ hunread.framepoolPt.symm j).trans (h.poolTable j)
  · intro d hd hne hpresent
    simp only [hpde, htable] at hpresent ⊢
    exact h.inTables d hd hne hpresent
  · intro d hd
    simp only [hpde]
    exact h.settled d hd
  · intro p hp huse hmapped
    simp only [mapped_unread hagree hunread hp] at hmapped
    simp only [pte_unread hagree hunread hp (mapped_iff.1 hmapped).1]
    exact h.demand p hp huse hmapped
  · intro p hp huse hmapped
    simp only [mapped_unread hagree hunread hp] at hmapped
    simp only [pte_unread hagree hunread hp (mapped_iff.1 hmapped).1]
    exact h.notDemand p hp huse hmapped
  · intro p hp hmapped
    simp only [mapped_unread hagree hunread hp] at hmapped
    exact h.inUse p hp hmapped
  · intro p hp hpresent hentry
    simp only [hpde] at hpresent
    simp only [pte_unread hagree hunread hp hpresent] at hentry
    exact h.ondemand p hp hpresent hentry
  · intro c hc d hd
    simp only [hagree c fun heq => hunread.clones (heq ▸ hc)]
    exact h.cloneUser c hc d hd
  · intro c hc d hlow hhigh
    simp only [hagree c fun heq => hunread.clones (heq ▸ hc), hpde]
    exact h.cloneKernel c hc d hlow hhigh
  · intro c hc
    simp only [hagree c fun heq => hunread.clones (heq ▸ hc)]
    exact h.cloneSelf c hc
  · intro hclones
    rw [hpde]
    exact h.clondpd hclones

theorem unread_hand {f : Word} (hhand : m.hand = some f) : Unread k m f where
  pd := L.ne_pd (h.inHand f hhand)
  framepoolPt := L.ne_framepoolPt (h.inHand f hhand)
  tables := fun _ hd hpresent => h.table_ne_hand hd hpresent hhand
  clones := h.hand_not_clone hhand

theorem unread_poolPage {j : Nat} (hj : j < 1024) (hbacked : present (L.entries j) = true) :
    Unread k m (poolPage k m.state j) where
  pd := fun heq => h.poolPage_ne_static hj hbacked (by simp [heq])
  framepoolPt := fun heq => h.poolPage_ne_static hj hbacked (by simp [heq])
  tables := fun _ hd hpresent => h.table_ne_poolPage hd hpresent hj hbacked
  clones := fun hmem => h.poolPage_ne_frame hj hbacked (h.inClones _ hmem) rfl

theorem poolWord_off {s' : State} {g : Word} (hg : g ∈ L.frames)
    (hagree : ∀ f, f ≠ g → ∀ j, s'.mem f j = m.state.mem f j) {i : Nat}
    (hi : i < m.state.framesIndex) : poolWord k s' i = poolWord k m.state i := by
  obtain ⟨hj, hbacked⟩ := L.slot_backed (Nat.lt_of_lt_of_le hi h.framesIndex_le)
  exact poolWord_agree hagree (L.ne_framepoolPt hg) (h.poolPage_ne_frame hj hbacked hg)

theorem setAside {f : Word} (hhand : m.hand = some f) (haside : m.aside = none) :
    Inv L { m with hand := none, aside := some f } := by
  refine ⟨h.cr3, h.selfEntry, h.poolEntry, h.bootEntry, h.poolTable, ?_, h.inPool, h.inTables,
    h.settled, h.demand, h.notDemand, h.inUse, h.ondemand, h.inClones, by simp, ?_,
    h.cloneUser, h.cloneKernel, h.cloneSelf, h.clondpd⟩
  · refine OwnedOnce.move (a := .hand) (b := .aside) (by simp) hhand rfl ?_ ?_ ?_ h.own
    · intro g _ hheld
      exact absurd hheld (by simp [holds])
    · intro g _ hheld
      exact absurd (haside.symm.trans hheld) (by simp)
    · intro q hqa hqb g _
      cases q with
      | hand => exact absurd rfl hqa
      | aside => exact absurd rfl hqb
      | _ => exact Iff.rfl
  · intro g hg
    rw [← Option.some.inj hg]
    exact h.inHand f hhand

theorem pickUp {f : Word} (hhand : m.hand = none) (haside : m.aside = some f) :
    Inv L { m with hand := some f, aside := none } := by
  refine ⟨h.cr3, h.selfEntry, h.poolEntry, h.bootEntry, h.poolTable, ?_, h.inPool, h.inTables,
    h.settled, h.demand, h.notDemand, h.inUse, h.ondemand, h.inClones, ?_, by simp,
    h.cloneUser, h.cloneKernel, h.cloneSelf, h.clondpd⟩
  · refine OwnedOnce.move (a := .aside) (b := .hand) (by simp) haside rfl ?_ ?_ ?_ h.own
    · intro g _ hheld
      exact absurd hheld (by simp [holds])
    · intro g _ hheld
      exact absurd (hhand.symm.trans hheld) (by simp)
    · intro q hqa hqb g _
      cases q with
      | hand => exact absurd rfl hqb
      | aside => exact absurd rfl hqa
      | _ => exact Iff.rfl
  · intro g hg
    rw [← Option.some.inj hg]
    exact h.inAside f haside

theorem scribble {f : Word} (hhand : m.hand = some f) {s' : State}
    (hagree : ∀ g, g ≠ f → ∀ j, s'.mem g j = m.state.mem g j)
    (hcr3 : s'.cr3 = m.state.cr3) (hindex : s'.framesIndex = m.state.framesIndex) :
    Inv L { m with state := s' } := by
  have hunread := h.unread_hand hhand
  have hword : ∀ i, i < m.state.framesIndex → poolWord k s' i = poolWord k m.state i :=
    fun i hi => h.poolWord_off (h.inHand f hhand) hagree hi
  have hholds : ∀ q, holds k { m with state := s' } q = holds k m q := by
    intro q
    cases q with
    | pool i =>
      simp only [holds, hindex]
      cases Nat.decLt i m.state.framesIndex with
      | isTrue hi => rw [if_pos hi, if_pos hi, hword i hi]
      | isFalse hi => rw [if_neg hi, if_neg hi]
    | hand => rfl
    | _ => exact holds_unread hagree hunread m.hand (by simp) (by simp)
  refine h.of_unread hagree hunread hcr3 ?_ ?_ h.inHand
  · intro g hg
    exact (h.own g hg).congr fun q => by rw [← hholds q]
  · intro i hi
    rw [hindex] at hi
    rw [hword i hi]
    exact h.inPool i hi

theorem pop (hhand : m.hand = none) (hpos : 0 < m.state.framesIndex) :
    Inv L { m with
      state := { m.state with framesIndex := m.state.framesIndex - 1 },
      hand := some (poolWord k m.state (m.state.framesIndex - 1)) } := by
  have hlast := h.inPool (m.state.framesIndex - 1) (by omega)
  -- The memory does not change, so any frame will do as the one that does.
  have hunread := fun j hj hbacked => h.unread_poolPage (j := j) hj hbacked
  obtain ⟨hj, hbacked⟩ := L.slot_backed (i := m.state.framesIndex - 1)
    (by have := h.framesIndex_le; omega)
  refine h.of_unread (fun _ _ _ => rfl) (hunread _ hj hbacked) rfl ?_ ?_ ?_
  · refine OwnedOnce.move (a := .pool (m.state.framesIndex - 1)) (b := .hand) (by simp)
      (holds_pool.2 ⟨by omega, rfl⟩) rfl ?_ ?_ ?_ h.own
    · intro f _ hheld
      have hlt := (holds_pool.1 hheld).1
      simp only at hlt
      omega
    · intro f _ hheld
      exact absurd (hhand.symm.trans hheld) (by simp)
    · intro q hqa hqb f _
      cases q with
      | pool i =>
        rw [holds_pool, holds_pool]
        have hne : i ≠ m.state.framesIndex - 1 := by
          intro heq
          exact hqa (by rw [heq])
        refine and_congr ?_ Iff.rfl
        simp only
        omega
      | hand => exact absurd rfl hqb
      | _ => exact Iff.rfl
  · intro i hi
    exact h.inPool i (by simp only at hi; omega)
  · intro f hf
    rw [← Option.some.inj hf]
    exact hlast

theorem push {f : Word} (hhand : m.hand = some f) {s' : State}
    (hmem : ∀ g j, s'.mem g j =
      if g = poolPage k m.state (m.state.framesIndex / 1024) ∧ j = m.state.framesIndex % 1024
      then f else m.state.mem g j)
    (hcr3 : s'.cr3 = m.state.cr3) (hindex : s'.framesIndex = m.state.framesIndex + 1) :
    Inv L { m with state := s', hand := none } := by
  have hf := h.inHand f hhand
  have hlt := h.framesIndex_lt_of_held hf (p := .hand) hhand (by simp)
  obtain ⟨hj, hbacked⟩ := L.slot_backed hlt
  have hunread := h.unread_poolPage hj hbacked
  have hagree : ∀ g, g ≠ poolPage k m.state (m.state.framesIndex / 1024) →
      ∀ j, s'.mem g j = m.state.mem g j := by
    intro g hg j
    rw [hmem, if_neg fun hand => hg hand.1]
  have hpage := poolPage_agree hagree hunread.framepoolPt
  have hnew : poolWord k s' m.state.framesIndex = f := by
    unfold poolWord
    rw [hpage, hmem, if_pos ⟨rfl, rfl⟩]
  have hold : ∀ i < m.state.framesIndex, poolWord k s' i = poolWord k m.state i := by
    intro i hi
    obtain ⟨hij, hibacked⟩ := L.slot_backed (Nat.lt_trans hi hlt)
    unfold poolWord
    rw [hpage, hmem, if_neg]
    rintro ⟨hsame, hmod⟩
    unfold poolPage at hsame
    rw [h.poolTable, h.poolTable] at hsame
    have hdiv := L.injective _ hij _ hj hibacked hbacked hsame
    omega
  refine h.of_unread hagree hunread hcr3 ?_ ?_ (fun g hg => by simp at hg)
  · refine OwnedOnce.move (a := .hand) (b := .pool m.state.framesIndex) (by simp)
      hhand (holds_pool.2 ⟨by simp only [hindex]; omega, hnew⟩) ?_ ?_ ?_ h.own
    · intro g _ hheld
      exact absurd hheld (by simp [holds])
    · intro g _ hheld
      exact absurd (holds_pool.1 hheld).1 (Nat.lt_irrefl _)
    · intro q hqa hqb g _
      cases q with
      | pool i =>
        have hne : i ≠ m.state.framesIndex := by
          intro heq
          exact hqb (by rw [heq])
        rw [holds_pool, holds_pool]
        simp only [hindex]
        constructor
        · rintro ⟨hi, hword⟩
          have hi' : i < m.state.framesIndex := by omega
          exact ⟨hi', (hold i hi').symm.trans hword⟩
        · rintro ⟨hi, hword⟩
          exact ⟨by omega, (hold i hi).trans hword⟩
      | hand => exact absurd rfl hqa
      | _ => rw [holds_unread hagree hunread none (by simp) (by simp)]
  · intro i hi
    rw [hindex] at hi
    cases Nat.lt_succ_iff_lt_or_eq.1 hi with
    | inl hlt => rw [hold i hlt]; exact h.inPool i hlt
    | inr heq => rw [heq, hnew]; exact hf

end Inv

/-! ### A page table entry changes -/

section Pte
variable {k : Kernel} {L : Pool k} {m : Machine} (h : Inv L m) {p : Nat} (hp : p < pageLimit)
  (hpresent : present (pde k m.state (p / 1024)) = true) {s' : State} {w : Word}
  (hmem : ∀ g j, s'.mem g j =
    if g = table k m.state (p / 1024) ∧ j = p % 1024 then w else m.state.mem g j)
include h hp hpresent hmem

omit h hp hpresent in
theorem agree_pte {f : Word} (hf : f ≠ table k m.state (p / 1024)) (j : Nat) :
    s'.mem f j = m.state.mem f j := by
  rw [hmem, if_neg fun hand => hf hand.1]

theorem pde_pte (d : Nat) : pde k s' d = pde k m.state d :=
  agree_pte hmem (h.table_ne_pd (pageLimit_div hp) hpresent).symm d

theorem pte_pte_same : pte k s' p = w := by
  unfold pte table
  rw [pde_pte h hp hpresent hmem, hmem, if_pos ⟨rfl, rfl⟩]

theorem pte_pte_other {q : Nat} (hq : q < pageLimit) (hne : q ≠ p)
    (hqpresent : present (pde k m.state (q / 1024)) = true) : pte k s' q = pte k m.state q := by
  unfold pte table
  rw [pde_pte h hp hpresent hmem, hmem, if_neg]
  rintro ⟨htable, hindex⟩
  have hd := h.table_injective (pageLimit_div hq) hqpresent (pageLimit_div hp) hpresent htable
  omega

theorem mapped_pte_other {q : Nat} (hq : q < pageLimit) (hne : q ≠ p) :
    mapped k s' q = mapped k m.state q := by
  apply mapped_of_entries (pde_pte h hp hpresent hmem _)
  intro hqpresent
  exact pte_pte_other h hp hpresent hmem hq hne hqpresent

theorem mapped_pte_same : mapped k s' p = present w := by
  unfold mapped
  rw [pde_pte h hp hpresent hmem, pte_pte_same h hp hpresent hmem, hpresent, Bool.true_and]

theorem framepoolPt_pte (j : Nat) : s'.mem k.framepoolPt j = m.state.mem k.framepoolPt j :=
  agree_pte hmem (h.table_ne_framepoolPt (pageLimit_div hp) hpresent).symm j

theorem poolWord_pte {i : Nat} (hi : i < m.state.framesIndex) :
    poolWord k s' i = poolWord k m.state i := by
  obtain ⟨hj, hbacked⟩ := L.slot_backed (Nat.lt_of_lt_of_le hi h.framesIndex_le)
  unfold poolWord poolPage
  rw [framepoolPt_pte h hp hpresent hmem]
  exact agree_pte hmem
    (h.table_ne_poolPage (pageLimit_div hp) hpresent hj hbacked).symm _

theorem clone_pte {c : Word} (hc : c ∈ m.clones) (j : Nat) : s'.mem c j = m.state.mem c j := by
  apply agree_pte hmem
  intro heq
  rw [heq] at hc
  exact h.table_not_clone (pageLimit_div hp) hpresent hc

theorem holds_page_pte (uses' : Nat → Use) (hand' : Option Word) {f : Word} :
    holds k { m with state := s', uses := uses', hand := hand' } (.page p) = some f ↔
      uses' p = .demand ∧ present w = true ∧ frameOf w = f := by
  rw [holds_page]
  simp only [mapped_pte_same h hp hpresent hmem, pte_pte_same h hp hpresent hmem]
  exact and_iff_right hp

variable (hindex : s'.framesIndex = m.state.framesIndex)
include hindex

theorem holds_pte {uses' : Nat → Use} (huses : ∀ q, q ≠ p → uses' q = m.uses q)
    (hand' : Option Word) {q : Place} (hq : q ≠ .page p) (hhand : q ≠ .hand) :
    holds k { m with state := s', uses := uses', hand := hand' } q = holds k m q := by
  cases q with
  | hand => exact absurd rfl hhand
  | directory n => rfl
  | aside => rfl
  | backing j =>
    simp only [holds, poolPage, framepoolPt_pte h hp hpresent hmem]
  | table d => simp only [holds, table, pde_pte h hp hpresent hmem]
  | pool i =>
    simp only [holds, hindex]
    cases Nat.decLt i m.state.framesIndex with
    | isTrue hi => rw [if_pos hi, if_pos hi, poolWord_pte h hp hpresent hmem hi]
    | isFalse hi => rw [if_neg hi, if_neg hi]
  | page r =>
    have hne : r ≠ p := fun heq => hq (by rw [heq])
    simp only [holds]
    cases Nat.decLt r pageLimit with
    | isFalse hr => rw [if_neg fun hand => hr hand.1, if_neg fun hand => hr hand.1]
    | isTrue hr =>
      rw [mapped_pte_other h hp hpresent hmem hr hne, huses r hne]
      cases hmapped : mapped k m.state r with
      | false => simp
      | true => rw [pte_pte_other h hp hpresent hmem hr hne (mapped_iff.1 hmapped).1]

theorem Inv.of_pte (hcr3 : s'.cr3 = m.state.cr3) {uses' : Nat → Use} {hand' : Option Word}
    (huses : ∀ q, q ≠ p → uses' q = m.uses q)
    (hown : ∀ f ∈ L.frames,
      OwnedOnce (holds k { m with state := s', uses := uses', hand := hand' }) f)
    (hdemand : uses' p = .demand → present w = true → frameOf w ∈ L.frames)
    (hnotDemand : uses' p ≠ .demand → present w = true → L.outside (frameOf w))
    (hinUse : present w = true → uses' p ≠ .free)
    (hondemand : w &&& mmuPageOndemand ≠ 0#32 → uses' p = .demand)
    (hinHand : ∀ f, hand' = some f → f ∈ L.frames) :
    Inv L { m with state := s', uses := uses', hand := hand' } := by
  have hpde := pde_pte h hp hpresent hmem
  refine ⟨?_, ?_, ?_, ?_, ?_, hown, ?_, ?_, ?_, ?_, ?_, ?_, ?_, h.inClones, hinHand,
    h.inAside, ?_, ?_, ?_, ?_⟩
  · simp only [hcr3]
    exact h.cr3
  · exact (hpde _).trans h.selfEntry
  · exact (hpde _).trans h.poolEntry
  · exact (hpde _).trans h.bootEntry
  · intro j
    exact (framepoolPt_pte h hp hpresent hmem j).trans (h.poolTable j)
  · intro i hi
    simp only [hindex] at hi
    simp only [poolWord_pte h hp hpresent hmem hi]
    exact h.inPool i hi
  · intro d hd hne hdpresent
    simp only [table, hpde] at hdpresent ⊢
    exact h.inTables d hd hne hdpresent
  · intro d hd
    simp only [hpde]
    exact h.settled d hd
  · intro q hq huse hmapped
    cases Nat.decEq q p with
    | isTrue heq =>
      subst heq
      simp only [mapped_pte_same h hp hpresent hmem] at hmapped
      simp only [pte_pte_same h hp hpresent hmem]
      exact hdemand huse hmapped
    | isFalse hne =>
      simp only [mapped_pte_other h hp hpresent hmem hq hne] at hmapped
      simp only [pte_pte_other h hp hpresent hmem hq hne (mapped_iff.1 hmapped).1]
      exact h.demand q hq ((huses q hne).symm.trans huse) hmapped
  · intro q hq huse hmapped
    cases Nat.decEq q p with
    | isTrue heq =>
      subst heq
      simp only [mapped_pte_same h hp hpresent hmem] at hmapped
      simp only [pte_pte_same h hp hpresent hmem]
      exact hnotDemand huse hmapped
    | isFalse hne =>
      simp only [mapped_pte_other h hp hpresent hmem hq hne] at hmapped
      simp only [pte_pte_other h hp hpresent hmem hq hne (mapped_iff.1 hmapped).1]
      exact h.notDemand q hq (fun heq => huse ((huses q hne).trans heq)) hmapped
  · intro q hq hmapped
    cases Nat.decEq q p with
    | isTrue heq =>
      subst heq
      simp only [mapped_pte_same h hp hpresent hmem] at hmapped
      exact hinUse hmapped
    | isFalse hne =>
      simp only [mapped_pte_other h hp hpresent hmem hq hne] at hmapped
      simp only [huses q hne]
      exact h.inUse q hq hmapped
  · intro q hq hqpresent hentry
    simp only [hpde] at hqpresent
    cases Nat.decEq q p with
    | isTrue heq =>
      subst heq
      simp only [pte_pte_same h hp hpresent hmem] at hentry
      exact hondemand hentry
    | isFalse hne =>
      simp only [pte_pte_other h hp hpresent hmem hq hne hqpresent] at hentry
      exact (huses q hne).trans (h.ondemand q hq hqpresent hentry)
  · intro c hc d hd
    simp only [clone_pte h hp hpresent hmem hc]
    exact h.cloneUser c hc d hd
  · intro c hc d hlow hhigh
    simp only [clone_pte h hp hpresent hmem hc, hpde]
    exact h.cloneKernel c hc d hlow hhigh
  · intro c hc
    simp only [clone_pte h hp hpresent hmem hc]
    exact h.cloneSelf c hc
  · intro hclones
    rw [hpde]
    exact h.clondpd hclones

/-- An entry changes that refers to no frame of the pool, or keeps its frame. -/
theorem Inv.rewrite_pte (hcr3 : s'.cr3 = m.state.cr3) {uses' : Nat → Use}
    (huses : ∀ q, q ≠ p → uses' q = m.uses q)
    (hsame : ∀ f ∈ L.frames, (uses' p = .demand ∧ present w = true ∧ frameOf w = f) ↔
      (m.uses p = .demand ∧ mapped k m.state p = true ∧ frameOf (pte k m.state p) = f))
    (hdemand : uses' p = .demand → present w = true → frameOf w ∈ L.frames)
    (hnotDemand : uses' p ≠ .demand → present w = true → L.outside (frameOf w))
    (hinUse : present w = true → uses' p ≠ .free)
    (hondemand : w &&& mmuPageOndemand ≠ 0#32 → uses' p = .demand) :
    Inv L { m with state := s', uses := uses' } := by
  refine h.of_pte hp hpresent hmem hindex hcr3 huses ?_ hdemand hnotDemand hinUse hondemand
    h.inHand
  intro f hf
  refine (h.own f hf).congr ?_
  intro q
  cases Classical.em (q = .page p) with
  | inl heq =>
    rw [heq, holds_page_pte h hp hpresent hmem, hsame f hf, holds_page]
    exact (and_iff_right hp).symm
  | inr hne =>
    cases Classical.em (q = .hand) with
    | inl heq => rw [heq]; exact Iff.rfl
    | inr hhand => rw [holds_pte h hp hpresent hmem hindex huses m.hand hne hhand]

theorem Inv.take (hcr3 : s'.cr3 = m.state.cr3) (hhand : m.hand = none) {uses' : Nat → Use}
    (huses : ∀ q, q ≠ p → uses' q = m.uses q) (huse : m.uses p = .demand)
    (hmapped : mapped k m.state p = true)
    (hf : frameOf (pte k m.state p) ∈ L.frames) (hw : w = 0#32) :
    Inv L { m with
      state := s', uses := uses', hand := some (frameOf (pte k m.state p)) } := by
  have habsent : present w = false := by
    rw [hw]
    exact not_present_zero
  refine h.of_pte hp hpresent hmem hindex hcr3 huses ?_ ?_ ?_ ?_ ?_ ?_
  · refine OwnedOnce.move (a := .page p) (b := .hand) (by simp)
      (holds_page.2 ⟨hp, huse, hmapped, rfl⟩) rfl ?_ ?_ ?_ h.own
    · intro g _ hheld
      have hpresent' := ((holds_page_pte h hp hpresent hmem _ _).1 hheld).2.1
      rw [habsent] at hpresent'
      exact Bool.noConfusion hpresent'
    · intro g _ hheld
      exact absurd (hhand.symm.trans hheld) (by simp)
    · intro q hqa hqb g _
      rw [holds_pte h hp hpresent hmem hindex huses _ hqa hqb]
  · intro _ hpresent'
    rw [habsent] at hpresent'
    exact Bool.noConfusion hpresent'
  · intro _ hpresent'
    rw [habsent] at hpresent'
    exact Bool.noConfusion hpresent'
  · intro hpresent'
    rw [habsent] at hpresent'
    exact Bool.noConfusion hpresent'
  · intro hentry
    rw [hw] at hentry
    exact absurd (BitVec.zero_and) hentry
  · intro g hg
    rw [← Option.some.inj hg]
    exact hf

theorem Inv.install (hcr3 : s'.cr3 = m.state.cr3) {f : Word} (hhand : m.hand = some f)
    {uses' : Nat → Use} (huses : ∀ q, q ≠ p → uses' q = m.uses q) (huse : uses' p = .demand)
    (hfree : mapped k m.state p = false) (hw : present w = true) (hframe : frameOf w = f) :
    Inv L { m with state := s', uses := uses', hand := none } := by
  have hf := h.inHand f hhand
  refine h.of_pte hp hpresent hmem hindex hcr3 huses ?_ ?_ ?_ ?_ (fun _ => huse) (by simp)
  · refine OwnedOnce.move (a := .hand) (b := .page p) (by simp) hhand
      ((holds_page_pte h hp hpresent hmem _ _).2 ⟨huse, hw, hframe⟩) ?_ ?_ ?_ h.own
    · intro g _ hheld
      exact absurd hheld (by simp [holds])
    · intro g _ hheld
      have hmapped := (holds_page.1 hheld).2.2.1
      rw [hfree] at hmapped
      exact Bool.noConfusion hmapped
    · intro q hqa hqb g _
      rw [holds_pte h hp hpresent hmem hindex huses _ hqb hqa]
  · intro _ _
    rw [hframe]
    exact hf
  · intro hne
    exact absurd huse hne
  · intro _ hfree
    exact absurd (huse.symm.trans hfree) (by simp)

end Pte

/-! ### A directory entry changes -/

section Pde
variable {k : Kernel} {L : Pool k} {m : Machine} (h : Inv L m) {d : Nat} {s' : State} {w : Word}
  (hmem : ∀ g j, s'.mem g j = if g = k.pd ∧ j = d then w else m.state.mem g j)

section
include hmem

theorem agree_pde {f : Word} (hf : f ≠ k.pd) (j : Nat) : s'.mem f j = m.state.mem f j := by
  rw [hmem, if_neg fun hand => hf hand.1]

theorem pde_pde_same : pde k s' d = w := by
  unfold pde
  rw [hmem, if_pos ⟨rfl, rfl⟩]

theorem pde_pde_other {e : Nat} (he : e ≠ d) : pde k s' e = pde k m.state e := by
  unfold pde
  rw [hmem, if_neg fun hand => he hand.2]

end

include h hmem

theorem pte_pde_other {q : Nat} (hq : q < pageLimit) (hne : q / 1024 ≠ d)
    (hpresent : present (pde k m.state (q / 1024)) = true) : pte k s' q = pte k m.state q := by
  unfold pte table
  rw [pde_pde_other hmem hne]
  exact agree_pde hmem (h.table_ne_pd (pageLimit_div hq) hpresent) _

theorem mapped_pde_other {q : Nat} (hq : q < pageLimit) (hne : q / 1024 ≠ d) :
    mapped k s' q = mapped k m.state q := by
  apply mapped_of_entries (pde_pde_other hmem hne)
  intro hpresent
  exact pte_pde_other h hmem hq hne hpresent

theorem poolWord_pde {i : Nat} (hi : i < m.state.framesIndex) :
    poolWord k s' i = poolWord k m.state i := by
  obtain ⟨hj, hbacked⟩ := L.slot_backed (Nat.lt_of_lt_of_le hi h.framesIndex_le)
  have hpage := h.poolPage_ne_static hj hbacked
  unfold poolWord poolPage
  rw [agree_pde hmem k.pd_ne_framepoolPt.symm]
  apply agree_pde hmem
  intro heq
  exact hpage (List.mem_cons.2 (.inl heq))

variable {f : Word} (hd : d < 1022) (hhand : m.hand = some f)
  (hzero : ∀ j < 1024, m.state.mem f j = 0#32) (hframe : frameOf w = f)
include hhand hzero hframe

theorem pte_pde_same {q : Nat} (hq : q / 1024 = d) : pte k s' q = 0#32 := by
  unfold pte table
  rw [hq, pde_pde_same hmem, hframe, agree_pde hmem (L.ne_pd (h.inHand f hhand))]
  exact hzero _ (Nat.mod_lt _ (by omega))

section
variable (habsent : present (pde k m.state d) = false)
include habsent

theorem unmapped_pde_same {q : Nat} (hq : q / 1024 = d) :
    mapped k s' q = false ∧ mapped k m.state q = false := by
  unfold mapped
  rw [pte_pde_same h hmem hhand hzero hframe hq, not_present_zero, Bool.and_false, hq, habsent]
  exact ⟨rfl, Bool.false_and _⟩

theorem mapped_pde_ne {q : Nat} (hmapped : mapped k s' q = true) : q / 1024 ≠ d := by
  intro heq
  have hunmapped := (unmapped_pde_same h hmem hhand hzero hframe habsent heq).1
  exact Bool.noConfusion (hunmapped.symm.trans hmapped)

theorem holds_pde_other (hindex : s'.framesIndex = m.state.framesIndex) (q : Place)
    (hqa : q ≠ .hand) (hqb : q ≠ .table d) :
    holds k { m with state := s', hand := none } q = holds k m q := by
  cases q with
  | hand => exact absurd rfl hqa
  | directory n => rfl
  | aside => rfl
  | backing j =>
    simp only [holds, poolPage, agree_pde hmem k.pd_ne_framepoolPt.symm]
  | table e =>
    have he : e ≠ d := fun heq => hqb (by rw [heq])
    simp only [holds, table, pde_pde_other hmem he]
  | pool i =>
    simp only [holds, hindex]
    cases Nat.decLt i m.state.framesIndex with
    | isTrue hi => rw [if_pos hi, if_pos hi, poolWord_pde h hmem hi]
    | isFalse hi => rw [if_neg hi, if_neg hi]
  | page q =>
    simp only [holds]
    cases Nat.decEq (q / 1024) d with
    | isTrue heq =>
      obtain ⟨hafter, hbefore⟩ := unmapped_pde_same h hmem hhand hzero hframe habsent heq
      rw [hafter, hbefore]
      simp
    | isFalse hne =>
      cases Nat.decLt q pageLimit with
      | isFalse hq => rw [if_neg fun hand => hq hand.1, if_neg fun hand => hq hand.1]
      | isTrue hq =>
        rw [mapped_pde_other h hmem hq hne]
        cases hmapped : mapped k m.state q with
        | false => simp
        | true => rw [pte_pde_other h hmem hq hne (mapped_iff.1 hmapped).1]

end

include hd

/-- The frame in hand becomes the page table of an empty directory entry. -/
theorem Inv.installTable (hcr3 : s'.cr3 = m.state.cr3)
    (hindex : s'.framesIndex = m.state.framesIndex) (hclones : m.clones = [])
    (habsent : present (pde k m.state d) = false) (hw : present w = true) :
    Inv L { m with state := s', hand := none } := by
  have hf := h.inHand f hhand
  have hne_of_mapped : ∀ {q}, mapped k s' q = true → q / 1024 ≠ d :=
    fun hmapped => mapped_pde_ne h hmem hhand hzero hframe habsent hmapped
  have h960 : d ≠ 960 := by
    intro heq
    rw [heq, h.bootEntry, present_static k.isFrame_pt] at habsent
    exact Bool.noConfusion habsent
  refine ⟨?_, ?_, ?_, ?_, ?_, ?_, ?_, ?_, ?_, ?_, ?_, ?_, ?_, h.inClones, by simp,
    h.inAside, ?_, ?_, ?_, ?_⟩
  · simp only [hcr3]
    exact h.cr3
  · exact (pde_pde_other hmem (by omega)).trans h.selfEntry
  · exact (pde_pde_other hmem (by omega)).trans h.poolEntry
  · exact (pde_pde_other hmem h960.symm).trans h.bootEntry
  · intro j
    exact (agree_pde hmem k.pd_ne_framepoolPt.symm j).trans (h.poolTable j)
  · refine OwnedOnce.move (a := .hand) (b := .table d) (by simp) hhand
      (holds_table.2 ⟨by omega, ?_, ?_⟩) ?_ ?_ ?_ h.own
    · rw [pde_pde_same hmem]
      exact hw
    · unfold table
      rw [pde_pde_same hmem]
      exact hframe
    · intro g _ hheld
      exact absurd hheld (by simp [holds])
    · intro g _ hheld
      have hpresent := (holds_table.1 hheld).2.1
      rw [habsent] at hpresent
      exact Bool.noConfusion hpresent
    · intro q hqa hqb g _
      rw [holds_pde_other h hmem hhand hzero hframe habsent hindex q hqa hqb]
  · intro i hi
    simp only [hindex] at hi
    simp only [poolWord_pde h hmem hi]
    exact h.inPool i hi
  · intro e he hne hpresent
    cases Nat.decEq e d with
    | isTrue heq =>
      subst heq
      simp only [table, pde_pde_same hmem, hframe]
      exact hf
    | isFalse hed =>
      simp only [table, pde_pde_other hmem hed] at hpresent ⊢
      exact h.inTables e he hne hpresent
  · intro e he
    cases Nat.decEq e d with
    | isTrue heq =>
      subst heq
      simp only [pde_pde_same hmem]
      exact .inl hw
    | isFalse hed =>
      simp only [pde_pde_other hmem hed]
      exact h.settled e he
  · intro q hq huse hmapped
    have hne := hne_of_mapped hmapped
    simp only [mapped_pde_other h hmem hq hne] at hmapped
    simp only [pte_pde_other h hmem hq hne (mapped_iff.1 hmapped).1]
    exact h.demand q hq huse hmapped
  · intro q hq huse hmapped
    have hne := hne_of_mapped hmapped
    simp only [mapped_pde_other h hmem hq hne] at hmapped
    simp only [pte_pde_other h hmem hq hne (mapped_iff.1 hmapped).1]
    exact h.notDemand q hq huse hmapped
  · intro q hq hmapped
    have hne := hne_of_mapped hmapped
    simp only [mapped_pde_other h hmem hq hne] at hmapped
    exact h.inUse q hq hmapped
  · intro q hq hpresent hentry
    cases Nat.decEq (q / 1024) d with
    | isTrue heq =>
      simp only [pte_pde_same h hmem hhand hzero hframe heq, BitVec.zero_and] at hentry
      exact absurd rfl hentry
    | isFalse hne =>
      simp only [pde_pde_other hmem hne] at hpresent
      simp only [pte_pde_other h hmem hq hne hpresent] at hentry
      exact h.ondemand q hq hpresent hentry
  · intro c hc
    simp only [hclones] at hc
    exact absurd hc List.not_mem_nil
  · intro c hc
    simp only [hclones] at hc
    exact absurd hc List.not_mem_nil
  · intro c hc
    simp only [hclones] at hc
    exact absurd hc List.not_mem_nil
  · intro hne
    exact absurd hclones hne

end Pde

/-! ### A directory is born -/

theorem Inv.newDirectory {k : Kernel} {L : Pool k} {m : Machine} (h : Inv L m) {f : Word}
    (hhand : m.hand = some f) (huser : ∀ d < 512, m.state.mem f d = 0#32)
    (hkernel : ∀ d, 512 ≤ d → d < 1023 → m.state.mem f d = pde k m.state d)
    (hself : m.state.mem f 1023 = f + 3#32)
    (hclondpd : present (pde k m.state (mmuPdIndex kaddrClondpd)) = true) :
    Inv L { m with clones := m.clones ++ [f], hand := none } := by
  have hf := h.inHand f hhand
  have hcases : ∀ {c}, c ∈ m.clones ++ [f] → c ∈ m.clones ∨ c = f := by
    intro c hc
    rw [List.mem_append, List.mem_singleton] at hc
    exact hc
  refine ⟨?_, h.selfEntry, h.poolEntry, h.bootEntry, h.poolTable, ?_, h.inPool, h.inTables,
    h.settled, h.demand, h.notDemand, h.inUse, h.ondemand, ?_, by simp, h.inAside, ?_, ?_,
    ?_, fun _ => hclondpd⟩
  · exact h.cr3.imp_right fun hmem => List.mem_append_left _ hmem
  · refine OwnedOnce.move (a := .hand) (b := .directory m.clones.length) (by simp) hhand
      ?_ ?_ ?_ ?_ h.own
    · simp only [holds, List.getElem?_concat_length]
    · intro g _ hheld
      exact absurd hheld (by simp [holds])
    · intro g _ hheld
      simp only [holds, List.getElem?_length] at hheld
      exact absurd hheld (by simp)
    · intro q hqa hqb g _
      cases q with
      | hand => exact absurd rfl hqa
      | directory n =>
        have hne : n ≠ m.clones.length := fun heq => hqb (by rw [heq])
        simp only [holds, List.getElem?_append]
        split
        · exact Iff.rfl
        · rw [List.getElem?_eq_none (by rw [List.length_singleton]; omega),
            List.getElem?_eq_none (by omega)]
      | _ => exact Iff.rfl
  · intro c hc
    cases hcases hc with
    | inl hmem => exact h.inClones c hmem
    | inr heq => rw [heq]; exact hf
  · intro c hc d hd
    cases hcases hc with
    | inl hmem => exact h.cloneUser c hmem d hd
    | inr heq => rw [heq]; exact huser d hd
  · intro c hc d hlow hhigh
    cases hcases hc with
    | inl hmem => exact h.cloneKernel c hmem d hlow hhigh
    | inr heq => rw [heq]; exact hkernel d hlow hhigh
  · intro c hc
    cases hcases hc with
    | inl hmem => exact h.cloneSelf c hmem
    | inr heq => rw [heq]; exact hself

end OsdevCourse.Mmu
