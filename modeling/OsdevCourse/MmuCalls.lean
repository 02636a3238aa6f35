import OsdevCourse.MmuWindow

/-!
# What the calls do

Under the invariant the windows and the pool array are mapped, so the accesses of the page
fault handler do not fault and its result is one sequence of stores. `mmu_mark` faults only
where the page table is missing, and then goes on in the state after that fault.
-/

namespace OsdevCourse.Mmu

set_option autoImplicit false

open PageEntry

/-! ### The page fault handler -/

theorem translate_framesVma_of {k : Kernel} {s : State} {i : Nat} (hi : i < 2 ^ 20)
    (hpresent : present (s.mem s.cr3 1022) = true)
    (hpool : frameOf (s.mem s.cr3 1022) = k.framepoolPt)
    (hpage : present (s.mem k.framepoolPt (i / 1024)) = true) :
    translate s (framesVma i) = some (poolPage k s (i / 1024), i % 1024) := by
  unfold translate
  simp only [mmuPdIndex_framesVma hi, mmuPtIndex_framesVma hi, framesVma_word, hpresent, hpool,
    hpage, if_true]
  rfl

theorem translate_framesVma {k : Kernel} {s : State} {i : Nat} (hi : i < 2 ^ 20)
    (hpool : s.mem s.cr3 1022 = k.framepoolPt + 3#32)
    (hpage : present (s.mem k.framepoolPt (i / 1024)) = true) :
    translate s (framesVma i) = some (poolPage k s (i / 1024), i % 1024) := by
  apply translate_framesVma_of hi ?_ ?_ hpage
  · rw [hpool]
    exact present_static k.isFrame_framepoolPt
  · rw [hpool]
    exact frameOf_static k.isFrame_framepoolPt

theorem mmuAlloc_of {k : Kernel} {s : State} {fault : Fault} (hpos : 0 < s.framesIndex)
    (hle : s.framesIndex ≤ 2 ^ 20) (hpresent : present (s.mem s.cr3 1022) = true)
    (hpool : frameOf (s.mem s.cr3 1022) = k.framepoolPt)
    (hpage : present (s.mem k.framepoolPt ((s.framesIndex - 1) / 1024)) = true) :
    mmuAlloc fault s =
      some (poolWord k s (s.framesIndex - 1), { s with framesIndex := s.framesIndex - 1 }) := by
  have htranslate : translate { s with framesIndex := s.framesIndex - 1 }
      (framesVma (s.framesIndex - 1)) =
        some (poolPage k s ((s.framesIndex - 1) / 1024), (s.framesIndex - 1) % 1024) :=
    translate_framesVma_of (s := { s with framesIndex := s.framesIndex - 1 }) (by omega) hpresent
      hpool hpage
  unfold mmuAlloc
  rw [if_pos hpos]
  exact readWord_of_translate htranslate

theorem mmuAlloc_eq {k : Kernel} {s : State} {fault : Fault} (hpos : 0 < s.framesIndex)
    (hle : s.framesIndex ≤ 2 ^ 20) (hpool : s.mem s.cr3 1022 = k.framepoolPt + 3#32)
    (hpage : present (s.mem k.framepoolPt ((s.framesIndex - 1) / 1024)) = true) :
    mmuAlloc fault s =
      some (poolWord k s (s.framesIndex - 1), { s with framesIndex := s.framesIndex - 1 }) := by
  apply mmuAlloc_of hpos hle ?_ ?_ hpage
  · rw [hpool]
    exact present_static k.isFrame_framepoolPt
  · rw [hpool]
    exact frameOf_static k.isFrame_framepoolPt

theorem mmuAlloc_empty {s : State} {fault : Fault} (hempty : s.framesIndex = 0) :
    mmuAlloc fault s = some (0#32, s) := by
  unfold mmuAlloc
  rw [if_neg (by omega)]

/-- The state after `mmu_free` has put a frame into the next slot. -/
def freed (k : Kernel) (f : Word) (s : State) : State :=
  { s.set (poolPage k s (s.framesIndex / 1024)) (s.framesIndex % 1024) f with
    framesIndex := s.framesIndex + 1 }

theorem freed_agree {k : Kernel} {f g : Word} {s : State}
    (hg : g ≠ poolPage k s (s.framesIndex / 1024)) (j : Nat) :
    (freed k f s).mem g j = s.mem g j :=
  set_mem_frame _ _ _ _ hg j

theorem mmuFree_eq {k : Kernel} {s : State} (fault : Fault) (hlt : s.framesIndex < 2 ^ 20)
    (hpool : s.mem s.cr3 1022 = k.framepoolPt + 3#32)
    (hpage : present (s.mem k.framepoolPt (s.framesIndex / 1024)) = true) (f : Word) :
    mmuFree fault f s = some (freed k f s) := by
  unfold mmuFree
  rw [writeWord_of_translate (translate_framesVma hlt hpool hpage)]
  rfl

/-- The state after the fault handler has put the frame on top of the pool behind an
on-demand entry. -/
def faultIn (k : Kernel) (addr : Nat) (s : State) : State :=
  let f := poolWord k s (s.framesIndex - 1)
  let t := frameOf (s.mem s.cr3 (mmuPdIndex addr))
  let e := s.mem t (mmuPtIndex addr)
  let s' := ((({ s with framesIndex := s.framesIndex - 1 }).set t (mmuPtIndex addr)
    (f ||| (e &&& mmuProtMask) ||| mmuProtPresent)).invlpg addr).zero f
  if 512 ≤ mmuPdIndex addr then s'.set k.pd (mmuPdIndex addr) (s.mem s.cr3 (mmuPdIndex addr))
  else s'

/-- Where the tables of an address are, apart from each other and from the frame on top of
the pool, which goes behind the entry of the address. -/
structure Faultable (k : Kernel) (addr : Nat) (s : State) : Prop where
  selfMapped : SelfMapped s
  present_pde : present (s.mem s.cr3 (mmuPdIndex addr)) = true
  index_pos : 0 < s.framesIndex
  index_le : s.framesIndex ≤ 2 ^ 20
  pool : s.mem s.cr3 1022 = k.framepoolPt + 3#32
  page : present (s.mem k.framepoolPt ((s.framesIndex - 1) / 1024)) = true
  isFrame : IsFrame (poolWord k s (s.framesIndex - 1))
  ne_cr3 : poolWord k s (s.framesIndex - 1) ≠ s.cr3
  ne_table : poolWord k s (s.framesIndex - 1) ≠ frameOf (s.mem s.cr3 (mmuPdIndex addr))
  keeps_pde : frameOf (s.mem s.cr3 (mmuPdIndex addr)) = s.cr3 →
    mmuPtIndex addr ≠ mmuPdIndex addr ∧ mmuPtIndex addr ≠ 1023

/-- The state after the fault handler has put the frame `f` behind an on-demand entry. -/
def putIn (k : Kernel) (addr : Nat) (f : Word) (s : State) : State :=
  let t := frameOf (s.mem s.cr3 (mmuPdIndex addr))
  let e := s.mem t (mmuPtIndex addr)
  let s' := ((s.set t (mmuPtIndex addr) (f ||| (e &&& mmuProtMask) ||| mmuProtPresent)).invlpg
    addr).zero f
  if 512 ≤ mmuPdIndex addr then s'.set k.pd (mmuPdIndex addr) (s.mem s.cr3 (mmuPdIndex addr))
  else s'

/-- The handler, for whichever way of calling `mmu_alloc` and whatever frame it returns. -/
theorem int0E_putIn {k : Kernel} {alloc : Fault → State → Option (Word × State)} {addr n : Nat}
    {s : State} {f : Word} (hself : SelfMapped s)
    (hpresent : present (s.mem s.cr3 (mmuPdIndex addr)) = true) (hframe : IsFrame f)
    (hcr3 : f ≠ s.cr3)
    (hkeeps : frameOf (s.mem s.cr3 (mmuPdIndex addr)) = s.cr3 →
      mmuPtIndex addr ≠ mmuPdIndex addr ∧ mmuPtIndex addr ≠ 1023)
    (halloc : ∀ fault, alloc fault s = some (f, { s with framesIndex := n }))
    (hentry : s.mem (frameOf (s.mem s.cr3 (mmuPdIndex addr))) (mmuPtIndex addr) &&&
      mmuPageOndemand ≠ 0#32) (depth : Nat) :
    int0E k alloc (depth + 1) 0 addr s = some (putIn k addr f { s with framesIndex := n }) := by
  refine hself.recursive.int0E_putInto hpresent hframe ?_ halloc hpresent rfl hcr3 hcr3 hentry depth
  intro a ha
  rcases ha with rfl | rfl
  · exact hkeeps
  · exact hkeeps

theorem int0E_eq {k : Kernel} {alloc : Fault → State → Option (Word × State)} {addr : Nat}
    {s : State} (h : Faultable k addr s)
    (halloc : ∀ fault, alloc fault s =
      some (poolWord k s (s.framesIndex - 1), { s with framesIndex := s.framesIndex - 1 }))
    (hentry : s.mem (frameOf (s.mem s.cr3 (mmuPdIndex addr))) (mmuPtIndex addr) &&&
      mmuPageOndemand ≠ 0#32) (depth : Nat) :
    int0E k alloc (depth + 1) 0 addr s = some (faultIn k addr s) :=
  int0E_putIn h.selfMapped h.present_pde h.isFrame h.ne_cr3 h.keeps_pde halloc hentry depth

theorem int0E_halts {k : Kernel} {alloc : Fault → State → Option (Word × State)} {addr : Nat}
    {s : State} (hself : SelfMapped s) (hpde : present (s.mem s.cr3 (mmuPdIndex addr)) = true)
    (hentry : s.mem (frameOf (s.mem s.cr3 (mmuPdIndex addr))) (mmuPtIndex addr) &&&
      mmuPageOndemand = 0#32) (depth : Nat) :
    int0E k alloc depth 0 addr s = none :=
  hself.recursive.int0E_halts hpde hentry depth

theorem int0E_starved {k : Kernel} {addr : Nat} {s : State} (hself : SelfMapped s)
    (hpde : present (s.mem s.cr3 (mmuPdIndex addr)) = true) (hempty : s.framesIndex = 0)
    (depth : Nat) : int0E k mmuAllocFed depth 0 addr s = none := by
  apply hself.recursive.int0E_starved hpde
  intro fault
  unfold mmuAllocFed
  rw [if_neg (by omega)]

theorem readWord_table_halts {k : Kernel} {alloc : Fault → State → Option (Word × State)}
    {addr : Nat} {s : State} (hself : SelfMapped s)
    (hpde : s.mem s.cr3 (mmuPdIndex addr) = 0#32) (depth : Nat) :
    readWord (int0E k alloc depth 0) (ptSlot addr) s = none :=
  hself.recursive.readWord_table_halts hpde depth

/-! ### The active directory -/

namespace Inv
variable {k : Kernel} {L : Pool k} {m : Machine} (h : Inv L m)
include h

theorem isFrame_cr3 : IsFrame m.state.cr3 := by
  cases h.cr3 with
  | inl heq => rw [heq]; exact k.isFrame_pd
  | inr hmem => exact L.isFrame _ (h.inClones _ hmem)

theorem active_self : m.state.mem m.state.cr3 1023 = m.state.cr3 + 3#32 := by
  cases h.cr3 with
  | inl heq => rw [heq]; exact h.selfEntry
  | inr hmem => exact h.cloneSelf _ hmem

theorem selfMapped : SelfMapped m.state := by
  unfold SelfMapped
  rw [h.active_self]
  exact ⟨present_static h.isFrame_cr3, frameOf_static h.isFrame_cr3⟩

theorem active_kernel {d : Nat} (hlow : 512 ≤ d) (hhigh : d < 1023) :
    m.state.mem m.state.cr3 d = pde k m.state d := by
  cases h.cr3 with
  | inl heq => rw [heq]; rfl
  | inr hmem => exact h.cloneKernel _ hmem d hlow hhigh

theorem active_pool : m.state.mem m.state.cr3 1022 = k.framepoolPt + 3#32 :=
  (h.active_kernel (by omega) (by omega)).trans h.poolEntry

theorem active_present {d : Nat} (hd : d < 1023)
    (hpresent : present (m.state.mem m.state.cr3 d) = true) :
    m.state.mem m.state.cr3 d = pde k m.state d := by
  cases h.cr3 with
  | inl heq => rw [heq]; rfl
  | inr hmem =>
    cases Nat.lt_or_ge d 512 with
    | inr hlow => exact h.cloneKernel _ hmem d hlow hd
    | inl huser =>
      rw [h.cloneUser _ hmem d huser, not_present_zero] at hpresent
      exact Bool.noConfusion hpresent

theorem active_settled {d : Nat} (hd : d < 1022) :
    present (m.state.mem m.state.cr3 d) = true ∨ m.state.mem m.state.cr3 d = 0#32 := by
  cases h.cr3 with
  | inl heq => rw [heq]; exact h.settled d hd
  | inr hmem =>
    cases Nat.lt_or_ge d 512 with
    | inr hlow =>
      rw [h.cloneKernel _ hmem d hlow (by omega)]
      exact h.settled d hd
    | inl huser => exact .inr (h.cloneUser _ hmem d huser)

theorem framesIndex_le_pow : m.state.framesIndex ≤ 2 ^ 20 :=
  Nat.le_trans h.framesIndex_le L.length_le

theorem pool_present {i : Nat} (hi : i < L.frames.length) :
    present (m.state.mem k.framepoolPt (i / 1024)) = true := by
  rw [h.poolTable]
  exact L.populated i hi

theorem cr3_ne_free {f : Word} (hf : f ∈ L.frames) {p : Place} (hp : holds k m p = some f)
    (hplace : ∀ n, p ≠ .directory n) : f ≠ m.state.cr3 := by
  cases h.cr3 with
  | inl heq => rw [heq]; exact L.ne_pd hf
  | inr hmem =>
    intro heq
    obtain ⟨n, hn⟩ := List.mem_iff_getElem?.1 hmem
    rw [← heq] at hn
    exact hplace n (h.place_eq hf hp (q := .directory n) hn)

theorem table_ne_cr3 {d : Nat} (hd : d < 1022) (hpresent : present (pde k m.state d) = true) :
    table k m.state d ≠ m.state.cr3 := by
  cases h.cr3 with
  | inl heq => rw [heq]; exact h.table_ne_pd hd hpresent
  | inr hmem =>
    intro heq
    rw [← heq] at hmem
    exact h.table_not_clone hd hpresent hmem

/-! ### The page table of an address -/

theorem fault_only_below {addr : Nat} (haddr : addr < 2 ^ 32)
    (hfault : translate m.state addr = none) (hpage : pageLimit ≤ addr / 4096)
    (depth : Nat) (alloc : Fault → State → Option (Word × State)) :
    int0E k alloc depth 0 addr m.state = none := by
  have hlt := mmuPdIndex_lt addr
  have hd : mmuPdIndex addr = 1022 ∨ mmuPdIndex addr = 1023 := by
    rw [mmuPdIndex_eq haddr] at *
    unfold pageLimit mmuFramepoolVma at hpage
    omega
  have hpresent : present (m.state.mem m.state.cr3 (mmuPdIndex addr)) = true := by
    cases hd with
    | inl heq => rw [heq, h.active_pool]; exact present_static k.isFrame_framepoolPt
    | inr heq => rw [heq]; exact h.selfMapped.1
  -- An entry that is not present is zero.
  have hzero : m.state.mem (frameOf (m.state.mem m.state.cr3 (mmuPdIndex addr)))
      (mmuPtIndex addr) = 0#32 := by
    have habsent : present (m.state.mem (frameOf (m.state.mem m.state.cr3 (mmuPdIndex addr)))
        (mmuPtIndex addr)) = false := by
      cases hcase : present (m.state.mem (frameOf (m.state.mem m.state.cr3 (mmuPdIndex addr)))
        (mmuPtIndex addr)) with
      | false => rfl
      | true =>
        rw [translate_eq_some hpresent hcase] at hfault
        exact absurd hfault (by simp)
    cases hd with
    | inl heq =>
      rw [heq, h.active_pool, frameOf_static k.isFrame_framepoolPt, h.poolTable] at habsent ⊢
      cases L.settled (mmuPtIndex addr) with
      | inl hset => rw [hset] at habsent; exact Bool.noConfusion habsent
      | inr hset => exact hset
    | inr heq =>
      rw [heq, h.selfMapped.2] at habsent ⊢
      have hindex := mmuPtIndex_lt addr
      cases Nat.lt_or_ge (mmuPtIndex addr) 1022 with
      | inl hlt =>
        cases h.active_settled hlt with
        | inl hset => rw [hset] at habsent; exact Bool.noConfusion habsent
        | inr hset => exact hset
      | inr hge =>
        cases Nat.eq_or_lt_of_le hge with
        | inl heq =>
          rw [← heq, h.active_pool, present_static k.isFrame_framepoolPt] at habsent
          exact Bool.noConfusion habsent
        | inr hgt =>
          have hlast : mmuPtIndex addr = 1023 := by omega
          rw [hlast, h.selfMapped.1] at habsent
          exact Bool.noConfusion habsent
  exact int0E_halts h.selfMapped hpresent (by rw [hzero, BitVec.zero_and]) depth

theorem popped (hhand : m.hand = none) (hpos : 0 < m.state.framesIndex) :
    Inv L { m with
      state :=
        ({ m.state with framesIndex := m.state.framesIndex - 1 }).zero
          (poolWord k m.state (m.state.framesIndex - 1)),
      hand := some (poolWord k m.state (m.state.framesIndex - 1)) } :=
  (h.pop hhand hpos).scribble rfl (fun _ hg j => zero_mem_frame _ _ hg j) rfl rfl

theorem top_mem (hpos : 0 < m.state.framesIndex) :
    poolWord k m.state (m.state.framesIndex - 1) ∈ L.frames :=
  h.inPool _ (by omega)

omit h in
theorem top_held (hpos : 0 < m.state.framesIndex) :
    holds k m (.pool (m.state.framesIndex - 1)) =
      some (poolWord k m.state (m.state.framesIndex - 1)) :=
  holds_pool.2 ⟨by omega, rfl⟩

theorem faultable_page {addr : Nat} (haddr : addr < 2 ^ 32) (hp : addr / 4096 < pageLimit)
    (hpresent : present (m.state.mem m.state.cr3 (mmuPdIndex addr)) = true)
    (hpos : 0 < m.state.framesIndex) : Faultable k addr m.state := by
  have hd : mmuPdIndex addr < 1022 := by
    rw [mmuPdIndex_eq haddr]
    exact pageLimit_div hp
  have hpde := h.active_present (by omega) hpresent
  have hpresent' := hpresent
  rw [hpde] at hpresent'
  have htop := top_held (k := k) hpos
  have hmem := h.top_mem hpos
  refine ⟨h.selfMapped, hpresent, hpos, h.framesIndex_le_pow, h.active_pool, ?_,
    L.isFrame _ hmem, ?_, ?_, ?_⟩
  · exact h.pool_present (Nat.lt_of_lt_of_le (by omega) h.framesIndex_le)
  · exact h.cr3_ne_free hmem htop (by simp)
  · rw [hpde]
    exact (h.table_ne_held hd hpresent' hmem htop (by simp)).symm
  · intro heq
    rw [hpde] at heq
    exact absurd heq (h.table_ne_cr3 hd hpresent')

/-- The memory after a fault on a page: the frame on top of the pool, cleared, is behind the
entry of the page. -/
theorem faultIn_page_mem {addr : Nat} (haddr : addr < 2 ^ 32) (hp : addr / 4096 < pageLimit)
    (hpresent : present (m.state.mem m.state.cr3 (mmuPdIndex addr)) = true)
    (hpos : 0 < m.state.framesIndex) (g : Word) (j : Nat) :
    (faultIn k addr m.state).mem g j =
      if g = table k m.state (addr / 4096 / 1024) ∧ j = addr / 4096 % 1024 then
        poolWord k m.state (m.state.framesIndex - 1) |||
          (pte k m.state (addr / 4096) &&& mmuProtMask) ||| mmuProtPresent
      else if g = poolWord k m.state (m.state.framesIndex - 1) then 0#32
      else m.state.mem g j := by
  have hfaultable := h.faultable_page haddr hp hpresent hpos
  have hd := mmuPdIndex_eq haddr
  have hi := mmuPtIndex_eq addr
  have hpde := h.active_present (by rw [hd]; have := pageLimit_div hp; omega) hpresent
  have hne_table := hfaultable.ne_table
  have htop := h.top_mem hpos
  have hpd := h.table_ne_pd (d := mmuPdIndex addr) (by rw [hd]; exact pageLimit_div hp)
    (by rw [← hpde]; exact hpresent)
  have htable : frameOf (m.state.mem m.state.cr3 (mmuPdIndex addr)) =
      table k m.state (addr / 4096 / 1024) := by
    rw [hpde, ← hd]
    rfl
  have hstored : ∀ w, (((({ m.state with framesIndex := m.state.framesIndex - 1 }).set
      (table k m.state (addr / 4096 / 1024)) (addr / 4096 % 1024) w).invlpg addr).zero
        (poolWord k m.state (m.state.framesIndex - 1))).mem g j =
      if g = table k m.state (addr / 4096 / 1024) ∧ j = addr / 4096 % 1024 then w
      else if g = poolWord k m.state (m.state.framesIndex - 1) then 0#32
      else m.state.mem g j := by
    intro w
    rw [zero_mem, invlpg_mem, set_mem]
    rw [htable] at hne_table
    cases Classical.em (g = poolWord k m.state (m.state.framesIndex - 1)) with
    | inl heq =>
      rw [if_pos heq, if_pos heq, if_neg]
      intro hand
      exact hne_table (heq.symm.trans hand.1)
    | inr hne => rw [if_neg hne, if_neg hne]
  unfold faultIn
  simp only [htable, hi]
  split
  · -- The entry of `MMU_PD` is written with what it already holds.
    rw [set_mem, hstored]
    split
    · rename_i hand
      rw [hand.1, hand.2, if_neg, if_neg, hpde]
      · rfl
      · exact (L.ne_pd htop).symm
      · intro hand'
        rw [hd] at hpd
        exact hpd hand'.1.symm
    · rfl
  · rw [hstored]
    rfl

theorem fault_page (hhand : m.hand = none) {addr : Nat} (haddr : addr < 2 ^ 32)
    (hp : addr / 4096 < pageLimit)
    (hpresent : present (m.state.mem m.state.cr3 (mmuPdIndex addr)) = true)
    (habsent : present (pte k m.state (addr / 4096)) = false)
    (huse : m.uses (addr / 4096) = .demand) (hpos : 0 < m.state.framesIndex) :
    Inv L { m with state := faultIn k addr m.state } := by
  have hd := mmuPdIndex_eq haddr
  have hpde := h.active_present (by rw [hd]; have := pageLimit_div hp; omega) hpresent
  rw [hpde, hd] at hpresent
  have htop := h.top_mem hpos
  have hpopped := h.popped hhand hpos
  have hagree : ∀ g, g ≠ poolWord k m.state (m.state.framesIndex - 1) → ∀ j,
      (({ m.state with framesIndex := m.state.framesIndex - 1 }).zero
        (poolWord k m.state (m.state.framesIndex - 1))).mem g j = m.state.mem g j :=
    fun g hg j => zero_mem_frame _ _ hg j
  have htable := h.table_ne_held (pageLimit_div hp) hpresent htop (top_held hpos) (by simp)
  have hpte := pte_agree hagree (L.ne_pd htop) htable
  have hpde' := pde_agree hagree (L.ne_pd htop) (addr / 4096 / 1024)
  have hpresent' := hpresent
  rw [← hpde'] at hpresent'
  have hkept : m = { m with hand := none } := by rw [← hhand]
  rw [hkept]
  refine hpopped.install hp hpresent' (w := poolWord k m.state (m.state.framesIndex - 1) |||
      (pte k m.state (addr / 4096) &&& mmuProtMask) ||| mmuProtPresent) ?_ ?_ ?_ rfl
    (fun _ _ => rfl) huse ?_ (present_installed _ _) (frameOf_installed _ (L.isFrame _ htop))
  · intro g j
    have hpresent₀ : present (m.state.mem m.state.cr3 (mmuPdIndex addr)) = true := by
      rw [hpde, hd]
      exact hpresent
    simp only [table_agree hagree (L.ne_pd htop)]
    rw [h.faultIn_page_mem haddr hp hpresent₀ hpos]
    rfl
  · unfold faultIn
    split <;> rfl
  · unfold faultIn
    split <;> rfl
  · unfold mapped
    rw [hpte, habsent, Bool.and_false]

/-- The handler returns only for a page that is marked on demand. -/
theorem fault_cases {addr : Nat} (haddr : addr < 2 ^ 32) (hfault : translate m.state addr = none)
    {depth : Nat} {s' : State} (hr : pageFaultFed k depth addr m.state = some s') :
    addr / 4096 < pageLimit ∧ present (m.state.mem m.state.cr3 (mmuPdIndex addr)) = true ∧
      present (pte k m.state (addr / 4096)) = false ∧
      pte k m.state (addr / 4096) &&& mmuPageOndemand ≠ 0#32 ∧ 0 < m.state.framesIndex ∧
      s' = faultIn k addr m.state := by
  unfold pageFaultFed at hr
  have hp : addr / 4096 < pageLimit := by
    cases Nat.lt_or_ge (addr / 4096) pageLimit with
    | inl hlt => exact hlt
    | inr hge =>
      rw [h.fault_only_below haddr hfault hge] at hr
      exact absurd hr (by simp)
  have hd := mmuPdIndex_eq haddr
  have hlt : mmuPdIndex addr < 1022 := by
    rw [hd]
    exact pageLimit_div hp
  have hpresent : present (m.state.mem m.state.cr3 (mmuPdIndex addr)) = true := by
    cases h.active_settled hlt with
    | inl hset => exact hset
    | inr hzero =>
      cases depth with
      | zero => exact absurd hr (by simp [int0E])
      | succ depth =>
        unfold int0E at hr
        simp only [Nat.zero_mod, if_true, readWord_table_halts h.selfMapped hzero,
          Option.bind_eq_bind, Option.bind_none] at hr
        exact absurd hr (by simp)
  have hpde := h.active_present (by omega) hpresent
  have hentry : m.state.mem (frameOf (m.state.mem m.state.cr3 (mmuPdIndex addr)))
      (mmuPtIndex addr) = pte k m.state (addr / 4096) := by
    rw [hpde, hd, mmuPtIndex_eq]
    rfl
  have habsent : present (pte k m.state (addr / 4096)) = false := by
    cases hcase : present (pte k m.state (addr / 4096)) with
    | false => rfl
    | true =>
      rw [← hentry] at hcase
      rw [translate_eq_some hpresent hcase] at hfault
      exact absurd hfault (by simp)
  have hondemand : pte k m.state (addr / 4096) &&& mmuPageOndemand ≠ 0#32 := by
    intro hzero
    rw [← hentry] at hzero
    rw [int0E_halts h.selfMapped hpresent hzero] at hr
    exact absurd hr (by simp)
  have hpos : 0 < m.state.framesIndex := by
    cases Nat.eq_zero_or_pos m.state.framesIndex with
    | inr hpos => exact hpos
    | inl hzero =>
      rw [int0E_starved h.selfMapped hpresent hzero] at hr
      exact absurd hr (by simp)
  refine ⟨hp, hpresent, habsent, hondemand, hpos, ?_⟩
  have hfaultable := h.faultable_page haddr hp hpresent hpos
  cases depth with
  | zero => exact absurd hr (by simp [int0E])
  | succ depth =>
    rw [int0E_eq hfaultable _ (by rw [hentry]; exact hondemand)] at hr
    · exact (Option.some.inj hr).symm
    · intro fault
      unfold mmuAllocFed
      rw [if_pos hpos]
      exact mmuAlloc_eq hpos h.framesIndex_le_pow h.active_pool hfaultable.page

end Inv

/-! ### `mmu_mark` -/

/-- The state after `mmu_mark` has got a page table for an empty directory entry. -/
def newTable (k : Kernel) (addr : Nat) (s : State) : State :=
  faultIn k (ptSlot addr)
    (s.set s.cr3 (mmuPdIndex addr) (mmuPageOndemand ||| mmuProtRw ||| mmuProtUser))

section Mark
variable (fault : Fault) {addr : Nat} {s : State} (paddr flag : Word)

theorem markPte_eq (hself : SelfMapped s)
    (hpde : present (s.mem s.cr3 (mmuPdIndex addr)) = true) :
    markPte fault addr paddr flag s =
      some (marked (frameOf (s.mem s.cr3 (mmuPdIndex addr))) (mmuPtIndex addr) addr paddr flag s) :=
  hself.recursive.markPte_eq fault paddr flag hpde

theorem mmuMark_present (hself : SelfMapped s)
    (hpde : present (s.mem s.cr3 (mmuPdIndex addr)) = true) :
    mmuMark fault addr paddr flag s =
      some (marked (frameOf (s.mem s.cr3 (mmuPdIndex addr))) (mmuPtIndex addr) addr paddr flag s) :=
  hself.recursive.mmuMark_present fault paddr flag hpde

theorem mmuMark_empty (hself : SelfMapped s) (hzero : s.mem s.cr3 (mmuPdIndex addr) = 0#32) :
    mmuMark fault addr paddr flag s =
      markPte fault addr paddr flag (s.set s.cr3 (mmuPdIndex addr)
        (mmuPageOndemand ||| mmuProtRw ||| mmuProtUser)) :=
  hself.recursive.mmuMark_empty fault paddr flag hzero

variable {fault} {paddr flag}

/-- The state in which `mmu_mark` faults on the table of an empty directory entry. -/
theorem faulting_state (hself : SelfMapped s) (hlt : mmuPdIndex addr < 1022) {s₀ : State}
    (hs₀ : s₀ = s.set s.cr3 (mmuPdIndex addr)
      (mmuPageOndemand ||| mmuProtRw ||| mmuProtUser)) :
    SelfMapped s₀ ∧ translate s₀ (ptSlot addr) = none ∧
      present (s₀.mem s₀.cr3 (mmuPdIndex (ptSlot addr))) = true ∧
      s₀.mem (frameOf (s₀.mem s₀.cr3 (mmuPdIndex (ptSlot addr)))) (mmuPtIndex (ptSlot addr)) &&&
        mmuPageOndemand ≠ 0#32 := by
  have hself₀ : SelfMapped s₀ := by
    unfold SelfMapped
    have hlast : s₀.mem s₀.cr3 1023 = s.mem s.cr3 1023 := by
      rw [hs₀]
      exact set_mem_word _ _ _ _ _ (by omega)
    rw [hlast, hs₀]
    exact hself
  have hpde₀ : s₀.mem s₀.cr3 (mmuPdIndex addr) = mmuPageOndemand ||| mmuProtRw ||| mmuProtUser := by
    rw [hs₀]
    exact set_mem_same _ _ _ _
  refine ⟨hself₀, translate_ptSlot_absent hself₀ ?_, ?_, ?_⟩
  · rw [hpde₀]
    decide
  · rw [mmuPdIndex_ptSlot]
    exact hself₀.1
  · rw [mmuPdIndex_ptSlot, mmuPtIndex_ptSlot, hself₀.2, hpde₀]
    decide

/-- `mmu_mark` goes on in the state after the fault on the table of an empty entry. -/
theorem mmuMark_faulted (hself : SelfMapped s) (hlt : mmuPdIndex addr < 1022)
    (hzero : s.mem s.cr3 (mmuPdIndex addr) = 0#32) {s' : State}
    (hfault : fault (ptSlot addr) (s.set s.cr3 (mmuPdIndex addr)
      (mmuPageOndemand ||| mmuProtRw ||| mmuProtUser)) = some s') (hself' : SelfMapped s')
    (hpresent : present (s'.mem s'.cr3 (mmuPdIndex addr)) = true) :
    mmuMark fault addr paddr flag s = some (marked (frameOf (s'.mem s'.cr3 (mmuPdIndex addr)))
      (mmuPtIndex addr) addr paddr flag s') := by
  obtain ⟨_, hunmapped, _, _⟩ := faulting_state hself hlt rfl
  have hslot := translate_ptSlot_present hself' hpresent
  have hsame : markPte fault addr paddr flag (s.set s.cr3 (mmuPdIndex addr)
      (mmuPageOndemand ||| mmuProtRw ||| mmuProtUser)) = markPte fault addr paddr flag s' := by
    unfold markPte
    rw [readWord_of_translate hslot, readWord_handled hunmapped hfault hslot]
  rw [mmuMark_empty _ paddr flag hself hzero, hsame, markPte_eq fault paddr flag hself' hpresent]

theorem mmuMark_unhandled (hself : SelfMapped s) (hlt : mmuPdIndex addr < 1022)
    (hzero : s.mem s.cr3 (mmuPdIndex addr) = 0#32)
    (hfault : fault (ptSlot addr) (s.set s.cr3 (mmuPdIndex addr)
      (mmuPageOndemand ||| mmuProtRw ||| mmuProtUser)) = none) :
    mmuMark fault addr paddr flag s = none := by
  obtain ⟨_, hunmapped, _, _⟩ := faulting_state hself hlt rfl
  rw [mmuMark_empty _ paddr flag hself hzero]
  unfold markPte readWord access
  rw [hunmapped]
  simp only [hfault, Option.bind_eq_bind, Option.bind_none]

end Mark

/-! ### A new page table -/

theorem newTable_cr3 (k : Kernel) (addr : Nat) (s : State) :
    (newTable k addr s).cr3 = s.cr3 := by
  unfold newTable faultIn
  rw [mmuPdIndex_ptSlot, if_pos (by omega)]
  rfl

theorem newTable_framesIndex (k : Kernel) (addr : Nat) (s : State) :
    (newTable k addr s).framesIndex = s.framesIndex - 1 := by
  unfold newTable faultIn
  rw [mmuPdIndex_ptSlot, if_pos (by omega)]
  rfl

def tableEntry (f : Word) : Word :=
  f ||| ((mmuPageOndemand ||| mmuProtRw ||| mmuProtUser) &&& mmuProtMask) ||| mmuProtPresent

/-- The memory after a page table has been made for an empty directory entry. -/
theorem newTable_mem_of {k : Kernel} {addr : Nat} {s : State} (hcr3 : s.cr3 = k.pd)
    (hself : SelfMapped s) (hd : mmuPdIndex addr < 1022)
    (hne : poolWord k s (s.framesIndex - 1) ≠ k.pd)
    (hword : poolWord k (s.set s.cr3 (mmuPdIndex addr)
      (mmuPageOndemand ||| mmuProtRw ||| mmuProtUser)) (s.framesIndex - 1) =
        poolWord k s (s.framesIndex - 1)) (g : Word) (j : Nat) :
    (newTable k addr s).mem g j =
      if g = k.pd ∧ j = mmuPdIndex addr then tableEntry (poolWord k s (s.framesIndex - 1))
      else if g = poolWord k s (s.framesIndex - 1) then 0#32
      else s.mem g j := by
  unfold SelfMapped at hself
  rw [hcr3] at hself hword
  unfold newTable faultIn
  simp only [set_framesIndex, hword, mmuPdIndex_ptSlot, mmuPtIndex_ptSlot, set_cr3, hcr3,
    set_mem_word _ _ _ _ _ (show 1023 ≠ mmuPdIndex addr by omega), hself.2, set_mem_same]
  rw [if_pos (by omega)]
  simp only [set_mem, zero_mem, invlpg_mem, tableEntry]
  cases Classical.em (g = k.pd) with
  | inr hg => simp only [hg, false_and, if_false]
  | inl hg =>
    subst hg
    simp only [true_and, hne.symm, if_false]
    split
    · rename_i hlast
      subst hlast
      rw [if_neg (by omega)]
    · split <;> rfl

namespace Inv
variable {k : Kernel} {L : Pool k} {m : Machine} (h : Inv L m) (hclones : m.clones = [])
  {addr : Nat} (hd : mmuPdIndex addr < 1022)
include h hclones

theorem cr3_eq_pd : m.state.cr3 = k.pd := by
  cases h.cr3 with
  | inl heq => exact heq
  | inr hmem =>
    rw [hclones] at hmem
    exact absurd hmem List.not_mem_nil

include hd

theorem faultable_table (hpos : 0 < m.state.framesIndex) (w : Word) :
    Faultable k (ptSlot addr) (m.state.set m.state.cr3 (mmuPdIndex addr) w) ∧
      poolWord k (m.state.set m.state.cr3 (mmuPdIndex addr) w) (m.state.framesIndex - 1) =
        poolWord k m.state (m.state.framesIndex - 1) := by
  have hcr3 := h.cr3_eq_pd hclones
  have hmem : ∀ g j, (m.state.set m.state.cr3 (mmuPdIndex addr) w).mem g j =
      if g = k.pd ∧ j = mmuPdIndex addr then w else m.state.mem g j := by
    intro g j
    rw [set_mem, hcr3]
  have hword := poolWord_pde h hmem (i := m.state.framesIndex - 1) (by omega)
  have hself : (m.state.set m.state.cr3 (mmuPdIndex addr) w).mem m.state.cr3 1023 =
      m.state.mem m.state.cr3 1023 := set_mem_word _ _ _ _ _ (by omega)
  have htop := h.top_mem hpos
  refine ⟨⟨?_, ?_, hpos, h.framesIndex_le_pow, ?_, ?_, ?_, ?_, ?_, ?_⟩, hword⟩
  · unfold SelfMapped
    simp only [set_cr3, hself]
    exact h.selfMapped
  · simp only [set_cr3, mmuPdIndex_ptSlot, hself]
    exact h.selfMapped.1
  · simp only [set_cr3]
    rw [set_mem_word _ _ _ _ _ (by omega)]
    exact h.active_pool
  · rw [set_mem_frame _ _ _ _ (by rw [hcr3]; exact k.pd_ne_framepoolPt.symm)]
    exact h.pool_present (Nat.lt_of_lt_of_le (by simp only [set_framesIndex]; omega)
      h.framesIndex_le)
  · simp only [set_framesIndex, hword]
    exact L.isFrame _ htop
  · simp only [set_framesIndex, hword, set_cr3]
    exact h.cr3_ne_free htop (top_held hpos) (by simp)
  · simp only [set_framesIndex, hword, set_cr3, mmuPdIndex_ptSlot, hself, h.selfMapped.2]
    exact h.cr3_ne_free htop (top_held hpos) (by simp)
  · intro _
    rw [mmuPtIndex_ptSlot, mmuPdIndex_ptSlot]
    exact ⟨by omega, by omega⟩

/-- The memory after a page table has been made: the frame on top of the pool, cleared, is
behind the directory entry. -/
theorem newTable_mem (hpos : 0 < m.state.framesIndex) (g : Word) (j : Nat) :
    (newTable k addr m.state).mem g j =
      if g = k.pd ∧ j = mmuPdIndex addr then
        tableEntry (poolWord k m.state (m.state.framesIndex - 1))
      else if g = poolWord k m.state (m.state.framesIndex - 1) then 0#32
      else m.state.mem g j :=
  newTable_mem_of (h.cr3_eq_pd hclones) h.selfMapped hd (L.ne_pd (h.top_mem hpos))
    (h.faultable_table hclones hd hpos (mmuPageOndemand ||| mmuProtRw ||| mmuProtUser)).2 g j

theorem newTable_other (hpos : 0 < m.state.framesIndex) {d : Nat} (hother : d ≠ mmuPdIndex addr)
    (hlow : d < 1022) :
    pde k (newTable k addr m.state) d = pde k m.state d ∧
      (present (pde k m.state d) = true → ∀ j,
        (newTable k addr m.state).mem (table k m.state d) j =
          m.state.mem (table k m.state d) j) := by
  have htop := h.top_mem hpos
  refine ⟨?_, ?_⟩
  · unfold pde
    rw [h.newTable_mem hclones hd hpos, if_neg fun hand => hother hand.2,
      if_neg (L.ne_pd htop).symm]
  · intro hpresent j
    rw [h.newTable_mem hclones hd hpos, if_neg fun hand => h.table_ne_pd hlow hpresent hand.1,
      if_neg (h.table_ne_held hlow hpresent htop (top_held hpos) (by simp))]

theorem newTable_same (hpos : 0 < m.state.framesIndex) (j : Nat) :
    (newTable k addr m.state).mem (table k (newTable k addr m.state) (mmuPdIndex addr))
    j = 0#32 := by
  have htop := h.top_mem hpos
  have hframe : table k (newTable k addr m.state) (mmuPdIndex addr) =
      poolWord k m.state (m.state.framesIndex - 1) := by
    unfold table pde
    rw [h.newTable_mem hclones hd hpos, if_pos ⟨rfl, rfl⟩]
    exact frameOf_installed _ (L.isFrame _ htop)
  rw [hframe, h.newTable_mem hclones hd hpos, if_neg fun hand => L.ne_pd htop hand.1, if_pos rfl]

theorem newTable_inv (hhand : m.hand = none) (hpos : 0 < m.state.framesIndex)
    (habsent : present (pde k m.state (mmuPdIndex addr)) = false) :
    Inv L { m with state := newTable k addr m.state } := by
  have htop := h.top_mem hpos
  have hpopped := h.popped hhand hpos
  have hkept : m = { m with hand := none } := by rw [← hhand]
  rw [hkept]
  refine hpopped.installTable (w := tableEntry (poolWord k m.state (m.state.framesIndex - 1)))
    ?_ hd rfl ?_ ?_ ?_ ?_ hclones ?_ ?_
  · intro g j
    rw [h.newTable_mem hclones hd hpos]
    rfl
  · intro j _
    exact zero_mem_same _ _ _
  · exact frameOf_installed _ (L.isFrame _ htop)
  · exact newTable_cr3 k addr m.state
  · exact newTable_framesIndex k addr m.state
  · rw [pde_agree (fun g hg j => zero_mem_frame _ _ hg j) (L.ne_pd htop)]
    exact habsent
  · exact present_installed _ _

end Inv

end OsdevCourse.Mmu
