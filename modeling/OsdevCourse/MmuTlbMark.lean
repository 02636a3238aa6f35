import OsdevCourse.MmuTlb

/-!
# Marking pages and the TLB

`mmu_mark` leaves no page behind unless it changes the protection of a present page, or makes a
page table of a frame that is not blank.
-/

namespace OsdevCourse.Mmu

set_option autoImplicit false

open PageEntry

/-! ### `mmu_mark` -/

theorem reprotected_same {e flag : Word} (h : e &&& mmuProtMask = flag &&& mmuProtMask) :
    (e &&& ~~~mmuProtMask) ||| (flag &&& mmuProtMask) = e := by
  rw [← h]
  apply BitVec.eq_of_getLsbD_eq
  intro i hi
  simp only [BitVec.getLsbD_or, BitVec.getLsbD_and, BitVec.getLsbD_not, hi, decide_true,
    Bool.true_and]
  cases e.getLsbD i <;> cases mmuProtMask.getLsbD i <;> rfl

/-- What `mmu_mark` of a page leaves as it was. -/
structure MarkedPage (k : Kernel) (p : Nat) (s s' : State) : Prop where
  pages : ∀ q < pageLimit, q ≠ p → mapped k s' q = mapped k s q ∧
    (mapped k s q = true → pte k s' q = pte k s q)
  entries : ∀ d, d ≠ p / 1024 → pde k s' d = pde k s d
  table : present (pde k s' (p / 1024)) = true
  index : s.framesIndex = s'.framesIndex + if present (pde k s (p / 1024)) then 0 else 1
  slots : ∀ i < s'.framesIndex, poolWord k s' i = poolWord k s i ∧
    ∀ j, s'.mem (poolWord k s i) j = s.mem (poolWord k s i) j

namespace Sound
variable {k : Kernel} {s : State} (h : Sound k s) {p : Nat} (hp : p < pageLimit)
include h hp

section Present
variable (hpresent : present (pde k s (p / 1024)) = true) {addr : Nat} {paddr flag : Word}
include hpresent

/-- With the page table there, only the entry is written. -/
theorem marked_page : MarkedPage k p s
    (marked (table k s (p / 1024)) (p % 1024) addr paddr flag s).2 := by
  let t := table k s (p / 1024)
  have hpd := h.table_ne_pd (pageLimit_div hp) hpresent
  have hagree : ∀ f, f ≠ t → ∀ j, (marked t (p % 1024) addr paddr flag s).2.mem f j = s.mem f j :=
    fun f hf j => marked_mem_frame hf j
  have hindex : (marked t (p % 1024) addr paddr flag s).2.framesIndex = s.framesIndex := by
    unfold marked
    simp only
    split
    · split <;> rfl
    · split <;> rfl
  have hword : ∀ j, (marked t (p % 1024) addr paddr flag s).2.mem t j = s.mem t j ∨
      j = p % 1024 := by
    intro j
    cases Nat.decEq j (p % 1024) with
    | isTrue heq => exact .inr heq
    | isFalse hne =>
      left
      unfold marked
      simp only
      split
      · split
        · exact set_mem_word _ _ _ _ _ hne
        · exact set_mem_word _ _ _ _ _ hne
      · split
        · exact set_mem_word _ _ _ _ _ hne
        · rfl
  have hpde := pde_agree hagree hpd
  refine ⟨?_, fun d _ => hpde d, ?_, ?_, ?_⟩
  · intro q hq hne
    have hpte : present (pde k s (q / 1024)) = true →
        pte k (marked t (p % 1024) addr paddr flag s).2 q = pte k s q := by
      intro hqpresent
      unfold pte
      rw [table_agree hagree hpd]
      cases Classical.em (table k s (q / 1024) = t) with
      | inr hframe => exact hagree _ hframe _
      | inl hframe =>
        have hd := h.tables_inj _ (pageLimit_div hq) _ (pageLimit_div hp) hqpresent hpresent hframe
        rw [hframe]
        exact (hword (q % 1024)).resolve_right fun heq => by omega
    exact ⟨mapped_of_entries (hpde _) hpte, fun hmapped => hpte (mapped_iff.1 hmapped).1⟩
  · rw [hpde]
    exact hpresent
  · rw [hindex, hpresent]
    rfl
  · intro i hi
    rw [hindex] at hi
    refine ⟨h.poolWord_off (h.tables _ (pageLimit_div hp) hpresent) hagree hi, ?_⟩
    intro j
    exact hagree _ (fun heq => (h.spare i hi).tables _ (pageLimit_div hp) hpresent heq.symm) j

theorem marked_current
    (hkept : flag &&& mmuPageNoalloc = 0#32 → mapped k s p = true →
      pte k s p &&& mmuProtMask = flag &&& mmuProtMask)
    {c₀ : Cpu} (htlb : TlbCurrent c₀ below s) :
    let r := marked (table k s (p / 1024)) (p % 1024) addr paddr flag s
    Sound k r.2 ∧ TlbCurrent c₀ below r.2 ∧
      (r.1 = true → ¬ (flag &&& mmuPageNoalloc ≠ 0#32 ∧ mapped k s p = true)) := by
  have hmapped : mapped k s p = present (pte k s p) := by
    unfold mapped
    rw [hpresent, Bool.true_and]
  cases hentry : present (pte k s p) with
  | false =>
    have hunmapped : ¬ (flag &&& mmuPageNoalloc ≠ 0#32 ∧ mapped k s p = true) := by
      rw [hmapped, hentry]
      simp
    cases Classical.em (flag &&& mmuPageNoalloc = 0#32) with
    | inl hflag =>
      simp only [marked_demand hentry hflag]
      exact ⟨h.set_pte_sound hp hpresent, h.set_pte_tlb_fresh hp hpresent htlb (.inl hentry),
        fun _ => hunmapped⟩
    | inr hflag =>
      simp only [marked_fixed hentry hflag]
      have hsound := h.set_pte_sound hp hpresent
        (w := paddr ||| (flag &&& mmuProtMask) ||| mmuProtPresent)
      refine ⟨hsound.same_mem (fun _ _ => rfl) rfl (Nat.le_refl _), ?_, fun _ => hunmapped⟩
      exact (h.set_pte_tlb_fresh hp hpresent htlb (.inl hentry)).invlpg fun _ hq => .inl hq
  | true =>
    cases Classical.em (flag &&& mmuPageNoalloc = 0#32) with
    | inr hflag =>
      simp only [marked_refused hentry hflag]
      exact ⟨h, htlb, fun hok => absurd hok (by simp)⟩
    | inl hflag =>
      simp only [marked_reprotected hentry hflag]
      have hsame := reprotected_same (hkept hflag (by rw [hmapped]; exact hentry))
      refine ⟨h.set_pte_sound hp hpresent, ?_, fun _ hand => hand.1 hflag⟩
      exact h.set_pte_tlb_fresh hp hpresent htlb (.inr hsame.symm)

end Present

theorem newTable_marked {addr : Nat} (hd : mmuPdIndex addr = p / 1024) (hpos : 0 < s.framesIndex)
    (habsent : present (pde k s (p / 1024)) = false) {s' : State}
    (hpresent : present (pde k (newTable k addr s) (p / 1024)) = true)
    (hpages : MarkedPage k p (newTable k addr s) s') : MarkedPage k p s s' := by
  have hlow := pageLimit_div hp
  have hlt : mmuPdIndex addr < 1022 := by omega
  have hindex := hpages.index
  have hindex₁ : (newTable k addr s).framesIndex = s.framesIndex - 1 :=
    newTable_framesIndex k addr s
  rw [hpresent] at hindex
  simp only [if_true] at hindex
  refine ⟨?_, ?_, hpages.table, ?_, ?_⟩
  · intro q hq hne
    have hlater := hpages.pages q hq hne
    cases Nat.decEq (q / 1024) (p / 1024) with
    | isTrue heq =>
      have hbefore : mapped k s q = false := by
        unfold mapped
        rw [heq, habsent, Bool.false_and]
      rw [hlater.1, hbefore]
      refine ⟨?_, fun hmapped => Bool.noConfusion hmapped⟩
      unfold mapped
      rw [h.newTable_pte_same hlt hpos (heq.trans hd.symm), not_present_zero, Bool.and_false]
    | isFalse hother =>
      obtain ⟨hsame, hpte⟩ := h.newTable_page_other hlt hpos hq (by rw [hd]; exact hother)
      exact ⟨hlater.1.trans hsame,
        fun hmapped => (hlater.2 (hsame.trans hmapped)).trans (hpte hmapped)⟩
  · intro d hne
    rw [hpages.entries d hne, h.newTable_pde hlt hpos, if_neg (by omega)]
  · simp only [habsent, Bool.false_eq_true, if_false]
    omega
  · intro i hi
    obtain ⟨hword, hmem⟩ := hpages.slots i hi
    obtain ⟨hword₁, hmem₁⟩ := h.newTable_poolWord hlt hpos (i := i) (by omega)
    rw [hword₁] at hword hmem
    exact ⟨hword, fun j => (hmem j).trans (hmem₁ j)⟩

theorem mark_page {addr : Nat} (haddr : addr < 2 ^ 32) (hpage : addr / 4096 = p) {depth : Nat}
    {paddr flag : Word} {r : Bool × State}
    (hr : mmuMark (pageFault k depth) addr paddr flag s = some r)
    (hkept : flag &&& mmuPageNoalloc = 0#32 → mapped k s p = true →
      pte k s p &&& mmuProtMask = flag &&& mmuProtMask)
    (hnew : present (pde k s (p / 1024)) = false →
      0 < s.framesIndex ∧ Blank s (poolWord k s (s.framesIndex - 1)))
    {c₀ : Cpu} (htlb : TlbCurrent c₀ below s) :
    Sound k r.2 ∧ TlbCurrent c₀ below r.2 ∧ MarkedPage k p s r.2 ∧
      (r.1 = true → ¬ (flag &&& mmuPageNoalloc ≠ 0#32 ∧ mapped k s p = true)) := by
  have hd := mmuPdIndex_eq haddr
  have hi := mmuPtIndex_eq addr
  rw [hpage] at hd hi
  have hlow := pageLimit_div hp
  have hlt : mmuPdIndex addr < 1022 := by omega
  cases hpresent : present (pde k s (p / 1024)) with
  | true =>
    have hactive : present (s.mem s.cr3 (mmuPdIndex addr)) = true := by
      rw [h.cr3, hd]
      exact hpresent
    rw [mmuMark_present _ paddr flag h.selfMapped hactive, h.cr3, hd, hi] at hr
    obtain ⟨hsound, hcurrent, hok⟩ := h.marked_current hp hpresent hkept htlb
    rw [← Option.some.inj hr]
    exact ⟨hsound, hcurrent, h.marked_page hp hpresent, hok⟩
  | false =>
    obtain ⟨hpos, hblank⟩ := hnew hpresent
    have hzero : pde k s (p / 1024) = 0#32 := (h.settled _ hlow).resolve_left (by simp [hpresent])
    rw [← hd] at hzero
    have hactive : s.mem s.cr3 (mmuPdIndex addr) = 0#32 := by
      rw [h.cr3]
      exact hzero
    have hunmapped : mapped k s p = false := by
      unfold mapped
      rw [hpresent, Bool.false_and]
    cases depth with
    | zero =>
      rw [mmuMark_unhandled h.selfMapped hlt hactive rfl] at hr
      exact absurd hr (by simp)
    | succ depth =>
      let s₁ := newTable k addr s
      have hsound₁ : Sound k s₁ := h.newTable_sound hlt hpos
      have htlb₁ : TlbCurrent c₀ below s₁ := h.newTable_tlb hlt hpos hzero hblank htlb
      have hpde₁ := h.newTable_pde hlt hpos
      have hpresent₁ : present (pde k s₁ (p / 1024)) = true := by
        rw [hpde₁, if_pos hd.symm]
        exact present_installed _ _
      have hactive₁ : present (s₁.mem s₁.cr3 (mmuPdIndex addr)) = true := by
        rw [hsound₁.cr3, hd]
        exact hpresent₁
      rw [mmuMark_faulted h.selfMapped hlt hactive (h.table_fault hlt hpos depth)
        hsound₁.selfMapped hactive₁, hsound₁.cr3, hd, hi] at hr
      have hunmapped₁ : mapped k s₁ p = false := by
        unfold mapped
        rw [h.newTable_pte_same hlt hpos hd.symm, not_present_zero, Bool.and_false]
      obtain ⟨hsound, hcurrent, hok⟩ := hsound₁.marked_current hp hpresent₁
        (fun _ hmapped => Bool.noConfusion (hunmapped₁.symm.trans hmapped)) htlb₁
      have hpages : MarkedPage k p s₁
          (marked (table k s₁ (p / 1024)) (p % 1024) addr paddr flag s₁).2 :=
        hsound₁.marked_page hp hpresent₁
      rw [← Option.some.inj hr]
      refine ⟨hsound, hcurrent, h.newTable_marked hp hd hpos hpresent hpresent₁ hpages, ?_⟩
      intro _ hand
      exact Bool.noConfusion (hunmapped.symm.trans hand.2)

end Sound

/-- The directory entries of a range of pages that have no page table. -/
def newTables (k : Kernel) (s : State) (p n : Nat) : Finset Nat :=
  ((Finset.range n).image fun i => (p + i) / 1024).filter fun d => present (pde k s d) = false

/-- How many pages the loop of `mmu_mmap` gets through before one is refused. -/
def reached (k : Kernel) (s : State) (flag : Word) : Nat → Nat → Nat
  | _, 0 => 0
  | p, n + 1 =>
    if flag &&& mmuPageNoalloc ≠ 0#32 ∧ mapped k s p = true then 0
    else reached k s flag (p + 1) n + 1

/-- No page of the range changes its protection while it is present, and the page tables that
are made are made of blank frames. -/
structure Markable (k : Kernel) (s : State) (p n : Nat) (flag : Word) : Prop where
  kept : flag &&& mmuPageNoalloc = 0#32 → ∀ i < n, mapped k s (p + i) = true →
    pte k s (p + i) &&& mmuProtMask = flag &&& mmuProtMask
  fed : (newTables k s p n).card ≤ s.framesIndex
  blank : ∀ i < (newTables k s p n).card, Blank s (poolWord k s (s.framesIndex - 1 - i))

theorem reached_congr {k : Kernel} {s s' : State} {flag : Word} (n : Nat) {p : Nat}
    (h : ∀ q, p ≤ q → q < p + n → mapped k s' q = mapped k s q) :
    reached k s' flag p n = reached k s flag p n := by
  induction n generalizing p with
  | zero => rfl
  | succ n ih =>
    unfold reached
    rw [h p (Nat.le_refl p) (by omega), ih fun q hlow hhigh => h q (by omega) (by omega)]

theorem reached_le (k : Kernel) (s : State) (flag : Word) (p n : Nat) :
    reached k s flag p n ≤ n := by
  induction n generalizing p with
  | zero => exact Nat.le_refl 0
  | succ n ih =>
    unfold reached
    split
    · exact Nat.zero_le _
    · exact Nat.succ_le_succ (ih (p + 1))

theorem mem_newTables {k : Kernel} {s : State} {p n d : Nat} :
    d ∈ newTables k s p n ↔ (∃ i < n, (p + i) / 1024 = d) ∧ present (pde k s d) = false := by
  unfold newTables
  simp only [Finset.mem_filter, Finset.mem_image, Finset.mem_range]

namespace MarkedPage
variable {k : Kernel} {p : Nat} {s s' : State} (h : MarkedPage k p s s')
include h

theorem markable {n : Nat} {flag : Word} (hm : Markable k s p (n + 1) flag)
    (hbelow : p + 1 + n ≤ pageLimit) : Markable k s' (p + 1) n flag := by
  have hsub : newTables k s' (p + 1) n ⊆ (newTables k s p (n + 1)).erase (p / 1024) := by
    intro d hd
    rw [mem_newTables] at hd
    obtain ⟨⟨i, hi, heq⟩, habsent⟩ := hd
    have hne : d ≠ p / 1024 := by
      intro hsame
      rw [hsame, h.table] at habsent
      exact Bool.noConfusion habsent
    rw [Finset.mem_erase, mem_newTables]
    refine ⟨hne, ⟨i + 1, by omega, ?_⟩, ?_⟩
    · rw [← heq]
      congr 1
      omega
    · rw [← h.entries d hne]
      exact habsent
  have hcard := Finset.card_le_card hsub
  have hindex := h.index
  have hfed := hm.fed
  -- Of the frames on top of the pool the first is gone where a table has been made.
  have hcount : (newTables k s' (p + 1) n).card +
      (if present (pde k s (p / 1024)) = true then 0 else 1) ≤ (newTables k s p (n + 1)).card := by
    cases hpresent : present (pde k s (p / 1024)) with
    | true =>
      have hle := Finset.card_le_card (Finset.erase_subset (p / 1024) (newTables k s p (n + 1)))
      simp only [if_true]
      omega
    | false =>
      have hmem : p / 1024 ∈ newTables k s p (n + 1) :=
        mem_newTables.2 ⟨⟨0, by omega, rfl⟩, hpresent⟩
      have hpos := Finset.card_pos.2 ⟨_, hmem⟩
      rw [Finset.card_erase_of_mem hmem] at hcard
      simp only [Bool.false_eq_true, if_false]
      omega
  refine ⟨?_, by omega, ?_⟩
  · intro hflag i hi hmapped
    have hq : p + 1 + i = p + (i + 1) := by omega
    obtain ⟨hsame, hpte⟩ := h.pages (p + 1 + i) (by omega) (by omega)
    rw [hsame] at hmapped
    rw [hpte hmapped]
    rw [hq] at hmapped ⊢
    exact hm.kept hflag (i + 1) (by omega) hmapped
  · intro i hi j hj
    obtain ⟨hword, hmem⟩ := h.slots (s'.framesIndex - 1 - i) (by omega)
    rw [hword, hmem]
    cases hpresent : present (pde k s (p / 1024)) with
    | true =>
      rw [hpresent] at hindex hcount
      simp only [if_true] at hindex hcount
      rw [show s'.framesIndex - 1 - i = s.framesIndex - 1 - i by omega]
      exact hm.blank i (by omega) j hj
    | false =>
      rw [hpresent] at hindex hcount
      simp only [Bool.false_eq_true, if_false] at hindex hcount
      rw [show s'.framesIndex - 1 - i = s.framesIndex - 1 - (i + 1) by omega]
      exact hm.blank (i + 1) (by omega) j hj

end MarkedPage

theorem Sound.markPages_current {k : Kernel} (n : Nat) {s : State} (h : Sound k s) {addr : Nat}
    {paddr flag : Word} (hbelow : addr / 4096 + n ≤ pageLimit)
    (hm : Markable k s (addr / 4096) (reached k s flag (addr / 4096) n) flag) {depth : Nat}
    {ok : Bool} {s' : State}
    (hr : markPages (pageFault k depth) n addr paddr flag s = some (ok, s')) {c₀ : Cpu}
    (htlb : TlbCurrent c₀ below s) : Sound k s' ∧ TlbCurrent c₀ below s' := by
  induction n generalizing s addr paddr with
  | zero =>
    simp only [markPages, Option.some.injEq, Prod.mk.injEq] at hr
    rw [← hr.2]
    exact ⟨h, htlb⟩
  | succ n ih =>
    have hp : addr / 4096 < pageLimit := by omega
    have haddr : addr < 2 ^ 32 := by
      unfold pageLimit mmuFramepoolVma at hp
      omega
    have hdiv : (addr + 4096) / 4096 = addr / 4096 + 1 := by omega
    simp only [markPages, Option.bind_eq_bind, Option.bind_eq_some_iff] at hr
    obtain ⟨x, hx, hr⟩ := hr
    cases Classical.em (flag &&& mmuPageNoalloc ≠ 0#32 ∧ mapped k s (addr / 4096) = true) with
    | inl hrefused =>
      -- The page is refused, and the loop ends.
      have hpresent := (mapped_iff.1 hrefused.2).1
      obtain ⟨hsound, hcurrent, _, hok⟩ := h.mark_page hp haddr rfl hx
        (fun hflag => absurd hflag hrefused.1)
        (fun habsent => Bool.noConfusion (hpresent.symm.trans habsent)) htlb
      cases hx1 : x.1 with
      | true => exact absurd hrefused (hok hx1)
      | false =>
        rw [hx1] at hr
        simp only [Bool.false_eq_true, if_false, Option.some.injEq, Prod.mk.injEq] at hr
        rw [← hr.2]
        exact ⟨hsound, hcurrent⟩
    | inr hgoes =>
      unfold reached at hm
      rw [if_neg hgoes] at hm
      have hkept : flag &&& mmuPageNoalloc = 0#32 → mapped k s (addr / 4096) = true →
          pte k s (addr / 4096) &&& mmuProtMask = flag &&& mmuProtMask :=
        fun hflag => hm.kept hflag 0 (by omega)
      have hnew : present (pde k s (addr / 4096 / 1024)) = false →
          0 < s.framesIndex ∧ Blank s (poolWord k s (s.framesIndex - 1)) := by
        intro habsent
        have hmem : addr / 4096 / 1024 ∈ newTables k s (addr / 4096)
            (reached k s flag (addr / 4096 + 1) n + 1) :=
          mem_newTables.2 ⟨⟨0, by omega, rfl⟩, habsent⟩
        have hpos := Finset.card_pos.2 ⟨_, hmem⟩
        exact ⟨Nat.lt_of_lt_of_le hpos hm.fed, hm.blank 0 hpos⟩
      obtain ⟨hsound, hcurrent, hpage, hok⟩ := h.mark_page hp haddr rfl hx hkept hnew htlb
      cases hx1 : x.1 with
      | false =>
        rw [hx1] at hr
        simp only [Bool.false_eq_true, if_false, Option.some.injEq, Prod.mk.injEq] at hr
        rw [← hr.2]
        exact ⟨hsound, hcurrent⟩
      | true =>
        rw [hx1] at hr
        simp only [if_true] at hr
        have hle := reached_le k s flag (addr / 4096 + 1) n
        have hrest := hpage.markable hm (by omega)
        have hsame : reached k x.2 flag (addr / 4096 + 1) n = reached k s flag
            (addr / 4096 + 1) n :=
          reached_congr n fun q hlow hhigh => (hpage.pages q (by omega) (by omega)).1
        rw [← hsame, ← hdiv] at hrest
        exact ih hsound (by omega) hrest hr hcurrent

end OsdevCourse.Mmu
