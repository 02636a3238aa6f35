import OsdevCourse.MmuTlb

/-!
# Unmapping pages, page faults and the TLB

`mmu_munmap` invalidates a page that is present only where it releases its frame, after the
entry is cleared. The page fault handler invalidates each page it fills in.
-/

namespace OsdevCourse.Mmu

set_option autoImplicit false

open PageEntry

/-! ### `mmu_munmap` -/

/-- The pages of the range that are present are unmapped with release, each has a frame of its
own, and that frame is not 0, not one of the memory manager's and not in the pool. -/
structure Unmappable (k : Kernel) (s : State) (p n : Nat) (flag : Word) : Prop where
  release : ∀ i < n, mapped k s (p + i) = true → flag &&& mmuMunmapNorelease = 0#32
  spare : ∀ i < n, mapped k s (p + i) = true → Spare k s (frameOf (pte k s (p + i)))
  unpooled : ∀ i < n, mapped k s (p + i) = true → ∀ j < s.framesIndex,
    poolWord k s j ≠ frameOf (pte k s (p + i))
  distinct : ∀ i < n, ∀ j < n, mapped k s (p + i) = true → mapped k s (p + j) = true →
    frameOf (pte k s (p + i)) = frameOf (pte k s (p + j)) → i = j

/-- What unmapping a page leaves as it was. -/
structure UnmappedPage (k : Kernel) (p : Nat) (s s' : State) : Prop where
  pages : ∀ q < pageLimit, q ≠ p → mapped k s' q = mapped k s q ∧
    (mapped k s q = true → pte k s' q = pte k s q)
  entries : ∀ d, pde k s' d = pde k s d
  poolTable : ∀ j, s'.mem k.framepoolPt j = s.mem k.framepoolPt j
  slots : ∀ j < s'.framesIndex, (j < s.framesIndex ∧ poolWord k s' j = poolWord k s j) ∨
    (mapped k s p = true ∧ poolWord k s' j = frameOf (pte k s p))

theorem UnmappedPage.unmappable {k : Kernel} {p n : Nat} {s s' : State} {flag : Word}
    (h : UnmappedPage k p s s') (hm : Unmappable k s p (n + 1) flag)
    (hbelow : p + 1 + n ≤ pageLimit) :
    Unmappable k s' (p + 1) n flag := by
  have hpage : ∀ i < n, mapped k s' (p + 1 + i) = true → mapped k s (p + (i + 1)) = true ∧
      pte k s' (p + 1 + i) = pte k s (p + (i + 1)) := by
    intro i hi hmapped
    obtain ⟨hsame, hpte⟩ := h.pages (p + 1 + i) (by omega) (by omega)
    rw [hsame] at hmapped
    rw [hpte hmapped, show p + (i + 1) = p + 1 + i by omega]
    exact ⟨hmapped, rfl⟩
  refine ⟨?_, ?_, ?_, ?_⟩
  · intro i hi hmapped
    exact hm.release (i + 1) (by omega) (hpage i hi hmapped).1
  · intro i hi hmapped
    obtain ⟨hbefore, hpte⟩ := hpage i hi hmapped
    rw [hpte]
    exact Sound.spare_congr h.entries h.poolTable (hm.spare (i + 1) (by omega) hbefore)
  · intro i hi hmapped j hj
    obtain ⟨hbefore, hpte⟩ := hpage i hi hmapped
    rw [hpte]
    cases h.slots j hj with
    | inl hold =>
      rw [hold.2]
      exact hm.unpooled (i + 1) (by omega) hbefore j hold.1
    | inr hnew =>
      rw [hnew.2]
      intro heq
      have := hm.distinct 0 (by omega) (i + 1) (by omega) hnew.1 hbefore heq
      omega
  · intro i hi j hj hmapped hmapped' heq
    obtain ⟨hbefore, hpte⟩ := hpage i hi hmapped
    obtain ⟨hbefore', hpte'⟩ := hpage j hj hmapped'
    rw [hpte, hpte'] at heq
    have := hm.distinct (i + 1) (by omega) (j + 1) (by omega) hbefore hbefore' heq
    omega

namespace Sound
variable {k : Kernel} {s : State} (h : Sound k s)
include h

/-- `mmu_free` returns only where the slot is backed. -/
theorem mmuFree_cases {f : Word} {depth : Nat} {s' : State}
    (hr : mmuFree (pageFault k depth) f s = some s') :
    present (s.mem k.framepoolPt (s.framesIndex / 1024)) = true ∧ s' = freed k f s := by
  have hlt := h.framesIndex_lt
  cases hbacked : present (s.mem k.framepoolPt (s.framesIndex / 1024)) with
  | true =>
    refine ⟨rfl, ?_⟩
    rw [mmuFree_eq _ hlt h.active_pool hbacked] at hr
    exact (Option.some.inj hr).symm
  | false =>
    have hzero := (h.poolSettled (s.framesIndex / 1024) (by omega)).resolve_left (by simp [hbacked])
    have hunmapped : translate s (framesVma s.framesIndex) = none := by
      unfold translate
      simp only [mmuPdIndex_framesVma hlt, mmuPtIndex_framesVma hlt, h.active_pool,
        frameOf_static k.isFrame_framepoolPt, hbacked, Bool.false_eq_true, if_false, ite_self]
    have hhalts : pageFault k depth (framesVma s.framesIndex) s = none := by
      refine int0E_halts h.selfMapped ?_ ?_ depth
      · rw [mmuPdIndex_framesVma hlt, h.active_pool]
        exact present_static k.isFrame_framepoolPt
      · rw [mmuPdIndex_framesVma hlt, mmuPtIndex_framesVma hlt, h.active_pool,
          frameOf_static k.isFrame_framepoolPt, hzero, BitVec.zero_and]
    unfold mmuFree writeWord access at hr
    rw [hunmapped] at hr
    simp only [hhalts, Option.bind_eq_bind, Option.bind_none] at hr
    exact absurd hr (by simp)

section Entry
variable {p : Nat} (hp : p < pageLimit) (hpresent : present (pde k s (p / 1024)) = true)
include hp hpresent

theorem cleared_unmapped :
    UnmappedPage k p s (s.set (table k s (p / 1024)) (p % 1024) 0#32) := by
  have hagree : ∀ f, f ≠ table k s (p / 1024) →
      ∀ j, (s.set (table k s (p / 1024)) (p % 1024) 0#32).mem f j = s.mem f j :=
    fun f hf j => set_mem_frame _ _ _ _ hf j
  have hreserved := h.tables _ (pageLimit_div hp) hpresent
  refine ⟨?_, pde_agree hagree (h.table_ne_pd (pageLimit_div hp) hpresent),
    hagree _ fun heq => hreserved (.inr (.inl heq.symm)), ?_⟩
  · intro q hq hne
    obtain ⟨hsame, hpte⟩ := h.set_pte_other hp hpresent (w := 0#32) hq hne
    exact ⟨hsame, fun hqmapped => hpte (mapped_iff.1 hqmapped).1⟩
  · intro j hj
    exact .inl ⟨hj, h.poolWord_off hreserved hagree hj⟩

end Entry

section Freed
variable {f : Word} (hbacked : present (s.mem k.framepoolPt (s.framesIndex / 1024)) = true)
include hbacked

theorem freed_pages {q : Nat} (hq : q < pageLimit) :
    mapped k (freed k f s) q = mapped k s q ∧
      (mapped k s q = true → pte k (freed k f s) q = pte k s q) := by
  have hlt := h.framesIndex_lt
  refine pages_off (h.freed_page hbacked).1 ?_ (fun _ hg j => freed_agree hg j) hq
  intro d hd hpresent heq
  apply h.tables d hd hpresent
  rw [heq]
  exact .inr (.inr ⟨_, by omega, hbacked, rfl⟩)

theorem freed_tlb {c₀ : Cpu} {S : Nat → Prop} (hS : ∀ q, S q → q < pageLimit)
    (htlb : TlbCurrent c₀ S s) : TlbCurrent c₀ S (freed k f s) := by
  have hstored : TlbCurrent c₀ S
      (s.set (poolPage k s (s.framesIndex / 1024)) (s.framesIndex % 1024) f) := by
    refine htlb.stored rfl rfl (fun _ hq => hq) ?_
    intro q hq e he
    rw [h.cr3] at he ⊢
    exact (walk_same (h.freed_pages hbacked (f := f) (hS q hq))).trans he
  exact hstored.index _

/-- The frame of the page goes to the pool after its entry has been cleared. -/
theorem freed_unmapped {s₀ : State} {p : Nat} (hcleared : UnmappedPage k p s₀ s)
    (hmapped : mapped k s₀ p = true) (hf : f = frameOf (pte k s₀ p)) (addr : Nat) :
    UnmappedPage k p s₀ ((freed k f s).invlpg addr) := by
  obtain ⟨hpd, hpt⟩ := h.freed_page hbacked
  refine ⟨?_, ?_, ?_, ?_⟩
  · intro q hq hne
    obtain ⟨hsame, hpte⟩ := h.freed_pages hbacked (f := f) hq
    obtain ⟨hsame₁, hpte₁⟩ := hcleared.pages q hq hne
    exact ⟨hsame.trans hsame₁,
      fun hqmapped => (hpte (hsame₁.trans hqmapped)).trans (hpte₁ hqmapped)⟩
  · intro d
    exact (pde_agree (fun _ hg j => freed_agree hg j) hpd d).trans (hcleared.entries d)
  · intro j
    exact (freed_agree hpt.symm j).trans (hcleared.poolTable j)
  · intro j hj
    cases Nat.lt_succ_iff_lt_or_eq.1 hj with
    | inl hlt =>
      have hold : poolWord k ((freed k f s).invlpg addr) j = poolWord k s j :=
        h.freed_word hbacked hlt
      rw [hold]
      exact hcleared.slots j hlt
    | inr heq =>
      rw [heq]
      exact .inr ⟨hmapped, (h.freed_top hbacked).trans hf⟩

end Freed

theorem unmap_page {addr p : Nat} (haddr : addr < 2 ^ 32) (hpage : addr / 4096 = p)
    (hp : p < pageLimit) {flag : Word} {depth : Nat} {s' : State}
    (hr : unmapPage (pageFault k depth) addr flag s = some s')
    (hrelease : mapped k s p = true → flag &&& mmuMunmapNorelease = 0#32)
    (hspare : mapped k s p = true → Spare k s (frameOf (pte k s p)))
    (hunpooled : mapped k s p = true → ∀ j < s.framesIndex, poolWord k s j ≠ frameOf (pte k s p))
    {c₀ : Cpu} (htlb : TlbCurrent c₀ below s) :
    Sound k s' ∧ TlbCurrent c₀ below s' ∧ UnmappedPage k p s s' := by
  have hd := mmuPdIndex_eq haddr
  have hi := mmuPtIndex_eq addr
  rw [hpage] at hd hi
  have hlow := pageLimit_div hp
  have hactive : s.mem s.cr3 (mmuPdIndex addr) = pde k s (p / 1024) := by
    rw [h.cr3, hd]
    rfl
  cases hpresent : present (pde k s (p / 1024)) with
  | false =>
    have hzero := (h.settled _ hlow).resolve_left (by simp [hpresent])
    unfold unmapPage pageFault at hr
    rw [readWord_table_halts h.selfMapped (by rw [hactive]; exact hzero)] at hr
    exact absurd hr (by simp)
  | true =>
    have hslot : translate s (ptSlot addr) = some (table k s (p / 1024), p % 1024) := by
      rw [translate_ptSlot_present h.selfMapped (by rw [hactive]; exact hpresent), hactive, hi]
      rfl
    have hmapped : mapped k s p = present (pte k s p) := by
      unfold mapped
      rw [hpresent, Bool.true_and]
    let s₁ := s.set (table k s (p / 1024)) (p % 1024) 0#32
    have hsound₁ : Sound k s₁ := h.set_pte_sound hp hpresent
    have hcleared : UnmappedPage k p s s₁ := h.cleared_unmapped hp hpresent
    unfold unmapPage at hr
    rw [readWord_of_translate hslot] at hr
    simp only [Option.bind_eq_bind, Option.bind_some, writeWord_of_translate hslot] at hr
    rw [show s.mem (table k s (p / 1024)) (p % 1024) = pte k s p from rfl] at hr
    split at hr
    · rename_i hfreed
      have hentry : present (pte k s p) = true := by
        cases hcase : present (pte k s p) with
        | true => rfl
        | false => exact absurd ((and_present_eq_zero _).2 hcase) hfreed.1
      rw [hentry] at hmapped
      obtain ⟨s₂, hfree, hs'⟩ := Option.bind_eq_some_iff.1 hr
      obtain ⟨hbacked, hs₂⟩ := hsound₁.mmuFree_cases hfree
      have hspare₁ : Spare k s₁ (frameOf (pte k s p)) :=
        spare_congr hcleared.entries hcleared.poolTable (hspare hmapped)
      have hnew₁ : ∀ i < s₁.framesIndex, poolWord k s₁ i ≠ frameOf (pte k s p) := by
        intro i hi'
        rw [h.poolWord_off (h.tables _ hlow hpresent)
          (fun f hf j => set_mem_frame s _ _ _ hf j) hi']
        exact hunpooled hmapped i hi'
      have hsound₂ := hsound₁.push hbacked hspare₁ hnew₁
      -- Until its invalidation the page alone may be left behind.
      have htlb₁ := h.set_pte_tlb hp hpresent (w := 0#32) htlb
      have htlb₂ := hsound₁.freed_tlb hbacked (f := frameOf (pte k s p)) (fun q hq => hq.1) htlb₁
      rw [← Option.some.inj hs', hs₂]
      refine ⟨hsound₂.same_mem (fun _ _ => rfl) rfl (Nat.le_refl _), ?_,
        hsound₁.freed_unmapped hbacked hcleared hmapped rfl addr⟩
      refine htlb₂.invlpg ?_
      intro q hq
      cases Nat.decEq q p with
      | isTrue heq => exact .inr (heq.trans hpage.symm)
      | isFalse hne => exact .inl ⟨hq, hne⟩
    · rename_i hkeep
      have hunmapped : mapped k s p = false := by
        cases hcase : mapped k s p with
        | false => rfl
        | true =>
          exfalso
          apply hkeep
          rw [hcase] at hmapped
          refine ⟨?_, hrelease hcase, (hspare hcase).ne_zero⟩
          intro hzero
          exact Bool.noConfusion (((and_present_eq_zero _).1 hzero).symm.trans hmapped.symm)
      rw [hunmapped] at hmapped
      rw [← Option.some.inj hr]
      exact ⟨hsound₁, h.set_pte_tlb_fresh hp hpresent htlb (.inl hmapped.symm), hcleared⟩

end Sound

theorem Sound.unmapPages_current {k : Kernel} (n : Nat) {s : State} (h : Sound k s) {addr : Nat}
    {flag : Word} (hbelow : addr / 4096 + n ≤ pageLimit)
    (hm : Unmappable k s (addr / 4096) n flag) {depth : Nat} {s' : State}
    (hr : unmapPages (pageFault k depth) n addr flag s = some s') {c₀ : Cpu}
    (htlb : TlbCurrent c₀ below s) : Sound k s' ∧ TlbCurrent c₀ below s' := by
  induction n generalizing s addr with
  | zero =>
    simp only [unmapPages, Option.some.injEq] at hr
    rw [← hr]
    exact ⟨h, htlb⟩
  | succ n ih =>
    have hp : addr / 4096 < pageLimit := by omega
    have haddr : addr < 2 ^ 32 := by
      unfold pageLimit mmuFramepoolVma at hp
      omega
    have hdiv : (addr + 4096) / 4096 = addr / 4096 + 1 := by omega
    simp only [unmapPages, Option.bind_eq_bind, Option.bind_eq_some_iff] at hr
    obtain ⟨s₁, hs₁, hr⟩ := hr
    obtain ⟨hsound, hcurrent, hpage⟩ := h.unmap_page haddr rfl hp hs₁
      (hm.release 0 (by omega)) (hm.spare 0 (by omega)) (hm.unpooled 0 (by omega)) htlb
    have hrest := hpage.unmappable hm (by omega)
    rw [← hdiv] at hrest
    exact ih hsound (by omega) hrest hr hcurrent

/-! ### Page faults -/

namespace Sound
variable {k : Kernel} {s : State} (h : Sound k s) {addr : Nat} (haddr : addr < 2 ^ 32)
include h haddr

/-- A frame that is not a page table goes behind the entry of a page that is not present. -/
theorem putIn_current (hp : addr / 4096 < pageLimit)
    (hpresent : present (pde k s (addr / 4096 / 1024)) = true)
    (habsent : present (pte k s (addr / 4096)) = false) {f : Word} (hreserved : ¬ Reserved k s f)
    (htables : ∀ d < 1022, present (pde k s d) = true → table k s d ≠ f) {n : Nat}
    (hn : n ≤ s.framesIndex) {c₀ : Cpu} (htlb : TlbCurrent c₀ below s) :
    Sound k (putIn k addr f { s with framesIndex := n }) ∧
      TlbCurrent c₀ below (putIn k addr f { s with framesIndex := n }) := by
  have hd := mmuPdIndex_eq haddr
  have hi := mmuPtIndex_eq addr
  let p := addr / 4096
  let s₀ : State := { s with framesIndex := n }
  have hsound₀ : Sound k s₀ := h.same_mem (fun _ _ => rfl) rfl hn
  let w := f ||| (pte k s p &&& mmuProtMask) ||| mmuProtPresent
  let s₁ := s₀.set (table k s₀ (p / 1024)) (p % 1024) w
  have hsound₁ : Sound k s₁ := hsound₀.set_pte_sound hp hpresent
  have htlb₁ : TlbCurrent c₀ below s₁ :=
    hsound₀.set_pte_tlb_fresh hp hpresent (htlb.index n) (.inl habsent)
  let s₂ := s₁.invlpg addr
  have hsound₂ : Sound k s₂ := hsound₁.same_mem (fun _ _ => rfl) rfl (Nat.le_refl _)
  have htlb₂ : TlbCurrent c₀ below s₂ := htlb₁.invlpg fun _ hq => .inl hq
  have hagree₁ : ∀ g, g ≠ table k s₀ (p / 1024) → ∀ j, s₂.mem g j = s.mem g j :=
    fun g hg j => set_mem_frame s₀ _ _ _ hg j
  have hpde₂ := pde_agree hagree₁ (h.table_ne_pd (pageLimit_div hp) hpresent)
  have hpt₂ : ∀ j, s₂.mem k.framepoolPt j = s.mem k.framepoolPt j :=
    hagree₁ _ fun heq => h.tables _ (pageLimit_div hp) hpresent (.inr (.inl heq.symm))
  have hreserved₂ : ¬ Reserved k s₂ f := by
    rw [reserved_congr hpt₂]
    exact hreserved
  have htables₂ : ∀ d < 1022, present (pde k s₂ d) = true → table k s₂ d ≠ f := by
    intro d hlow hdpresent
    unfold table
    rw [hpde₂] at hdpresent ⊢
    exact htables d hlow hdpresent
  have hfpd : f ≠ k.pd := fun heq => hreserved (.inl heq)
  let s₃ := s₂.zero f
  have hagree₂ : ∀ g, g ≠ f → ∀ j, s₃.mem g j = s₂.mem g j := fun g hg j => zero_mem_frame _ _ hg j
  have hsound₃ : Sound k s₃ := hsound₂.of_unread hreserved₂ hagree₂ rfl (Nat.le_refl _)
  have htlb₃ : TlbCurrent c₀ below s₃ := by
    refine htlb₂.stored rfl rfl (fun _ hq => hq) ?_
    intro q hq e he
    rw [hsound₂.cr3] at he ⊢
    exact (walk_same (pages_off hfpd htables₂ hagree₂ hq)).trans he
  have hactive : s.mem s.cr3 (mmuPdIndex addr) = pde k s (p / 1024) := by
    rw [h.cr3, hd]
    rfl
  unfold putIn
  simp only [hactive, hi]
  cases Nat.lt_or_ge (mmuPdIndex addr) 512 with
  | inl huser =>
    rw [if_neg (by omega)]
    exact ⟨hsound₃, htlb₃⟩
  | inr hkernel =>
    rw [if_pos hkernel]
    -- The entry that goes to `MMU_PD` is the one it has.
    have hsame : (s₃.set k.pd (mmuPdIndex addr) (pde k s (p / 1024))).mem = s₃.mem := by
      funext g j
      rw [set_mem]
      split
      · rename_i hand
        rw [hand.1, hand.2, hagree₂ _ hfpd.symm, ← hd]
        exact (hpde₂ _).symm
      · rfl
    refine ⟨hsound₃.same_mem (fun g j => congrFun (congrFun hsame g) j) rfl (Nat.le_refl _), ?_⟩
    refine htlb₃.stored rfl rfl (fun _ hq => hq) ?_
    intro q _ e hwalk
    exact (congrArg (fun mem => walk mem s₃.cr3 q) hsame).trans hwalk

theorem fault_below (hfault : translate s addr = none) {depth : Nat} {s' : State}
    (hr : pageFault k depth addr s = some s') : addr / 4096 < pageLimit := by
  cases Nat.lt_or_ge (addr / 4096) pageLimit with
  | inl hlt => exact hlt
  | inr hge =>
    exfalso
    have hcr3 := h.cr3
    have hself := h.selfMapped
    have hindex := mmuPtIndex_lt addr
    have hd : mmuPdIndex addr = 1022 ∨ mmuPdIndex addr = 1023 := by
      have hlt := mmuPdIndex_lt addr
      rw [mmuPdIndex_eq haddr] at hlt ⊢
      unfold pageLimit mmuFramepoolVma at hge
      omega
    have hpresent : present (s.mem s.cr3 (mmuPdIndex addr)) = true := by
      cases hd with
      | inl heq =>
        rw [heq, h.active_pool]
        exact present_static k.isFrame_framepoolPt
      | inr heq =>
        rw [heq]
        exact hself.1
    have hzero : s.mem (frameOf (s.mem s.cr3 (mmuPdIndex addr))) (mmuPtIndex addr) = 0#32 := by
      have hunmapped : present (s.mem (frameOf (s.mem s.cr3 (mmuPdIndex addr)))
          (mmuPtIndex addr)) = false := by
        cases hcase : present (s.mem (frameOf (s.mem s.cr3 (mmuPdIndex addr)))
            (mmuPtIndex addr)) with
        | false => rfl
        | true =>
          rw [translate_eq_some hpresent hcase] at hfault
          exact absurd hfault (by simp)
      cases hd with
      | inl heq =>
        rw [heq, h.active_pool, frameOf_static k.isFrame_framepoolPt] at hunmapped ⊢
        exact (h.poolSettled _ hindex).resolve_left (by simp [hunmapped])
      | inr heq =>
        rw [heq, hself.2] at hunmapped ⊢
        cases Nat.lt_or_ge (mmuPtIndex addr) 1022 with
        | inl hlow =>
          rw [hcr3] at hunmapped ⊢
          exact (h.settled _ hlow).resolve_left (by simp [pde, hunmapped])
        | inr hhigh =>
          exfalso
          have hcases : mmuPtIndex addr = 1022 ∨ mmuPtIndex addr = 1023 := by omega
          cases hcases with
          | inl hpool =>
            rw [hpool, h.active_pool, present_static k.isFrame_framepoolPt] at hunmapped
            exact Bool.noConfusion hunmapped
          | inr hlast =>
            rw [hlast] at hunmapped
            exact Bool.noConfusion (hself.1.symm.trans hunmapped)
    unfold pageFault at hr
    rw [int0E_halts hself hpresent (by rw [hzero, BitVec.zero_and])] at hr
    exact absurd hr (by simp)

theorem fault_current (hfault : translate s addr = none) {depth : Nat} {s' : State}
    (hr : pageFault k depth addr s = some s') {c₀ : Cpu} (htlb : TlbCurrent c₀ below s) :
    Sound k s' ∧ TlbCurrent c₀ below s' := by
  have hp := h.fault_below haddr hfault hr
  have hd := mmuPdIndex_eq haddr
  have hlow := pageLimit_div hp
  have hactive : s.mem s.cr3 (mmuPdIndex addr) = pde k s (addr / 4096 / 1024) := by
    rw [h.cr3, hd]
    rfl
  cases hpresent : present (pde k s (addr / 4096 / 1024)) with
  | false =>
    have hzero := (h.settled _ hlow).resolve_left (by simp [hpresent])
    cases depth with
    | zero => exact absurd hr (by simp [pageFault, int0E])
    | succ depth =>
      unfold pageFault int0E at hr
      simp only [Nat.zero_mod, if_true, readWord_table_halts h.selfMapped
        (hactive.trans hzero), Option.bind_eq_bind, Option.bind_none] at hr
      exact absurd hr (by simp)
  | true =>
    have hactivePresent : present (s.mem s.cr3 (mmuPdIndex addr)) = true := by
      rw [hactive]
      exact hpresent
    have hentry : s.mem (frameOf (s.mem s.cr3 (mmuPdIndex addr))) (mmuPtIndex addr) =
        pte k s (addr / 4096) := by
      rw [hactive, mmuPtIndex_eq]
      rfl
    have habsent : present (pte k s (addr / 4096)) = false := by
      cases hcase : present (pte k s (addr / 4096)) with
      | false => rfl
      | true =>
        rw [translate_eq_some hactivePresent (by rw [hentry]; exact hcase)] at hfault
        exact absurd hfault (by simp)
    have hondemand : pte k s (addr / 4096) &&& mmuPageOndemand ≠ 0#32 := by
      intro hzero
      unfold pageFault at hr
      rw [int0E_halts h.selfMapped hactivePresent (by rw [hentry]; exact hzero)] at hr
      exact absurd hr (by simp)
    have hkeeps : frameOf (s.mem s.cr3 (mmuPdIndex addr)) = s.cr3 →
        mmuPtIndex addr ≠ mmuPdIndex addr ∧ mmuPtIndex addr ≠ 1023 := by
      intro heq
      rw [hactive, h.cr3] at heq
      exact absurd heq (h.table_ne_pd hlow hpresent)
    cases depth with
    | zero => exact absurd hr (by simp [pageFault, int0E])
    | succ depth =>
      cases Nat.eq_zero_or_pos s.framesIndex with
      | inr hpos =>
        have htop := h.spare (s.framesIndex - 1) (by omega)
        obtain ⟨_, hbacked⟩ := h.slot_present (i := s.framesIndex - 1) (by omega)
        have hlt := h.framesIndex_lt
        have hfilled : pageFault k (depth + 1) addr s = some (putIn k addr
            (poolWord k s (s.framesIndex - 1)) { s with framesIndex := s.framesIndex - 1 }) :=
          int0E_putIn h.selfMapped hactivePresent htop.isFrame
          (by rw [h.cr3]; exact fun heq => htop.reserved (.inl heq)) hkeeps
          (fun _ => mmuAlloc_eq hpos (Nat.le_of_lt hlt) h.active_pool hbacked)
          (by rw [hentry]; exact hondemand) depth
        rw [← Option.some.inj (hfilled.symm.trans hr)]
        exact h.putIn_current haddr hp hpresent habsent htop.reserved htop.tables
          (Nat.sub_le _ _) htlb
      | inl hempty =>
        -- With an empty pool the handler maps frame 0.
        have hfilled : pageFault k (depth + 1) addr s =
            some (putIn k addr 0#32 { s with framesIndex := s.framesIndex }) :=
          int0E_putIn h.selfMapped hactivePresent
          (show IsFrame 0#32 from by decide)
          (by rw [h.cr3]; exact fun heq => h.reserved_ne_zero k.pd (.inl rfl) heq.symm) hkeeps
          (fun _ => mmuAlloc_empty hempty) (by rw [hentry]; exact hondemand) depth
        rw [← Option.some.inj (hfilled.symm.trans hr)]
        exact h.putIn_current haddr hp hpresent habsent
          (fun hzero => h.reserved_ne_zero _ hzero rfl) h.tables_ne_zero (Nat.le_refl _) htlb

end Sound

end OsdevCourse.Mmu
