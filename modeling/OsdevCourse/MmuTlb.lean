import OsdevCourse.MmuSound
import OsdevCourse.MmuFrames
import Mathlib.Logic.Function.Basic

/-!
# The TLB

The CPU keeps page table entries it has used. At any time it may fill the slot of a page from
the page's present entry, and the slot stays until `_INVLPG` of the page or a load of CR3. The
trace of a state lists the stores and invalidations, so it determines which entries may be in
the TLB. An entry that changes while its page is present needs an invalidation after the
store, and so does a page table whose frame holds anything when it is installed.
-/

namespace OsdevCourse.Mmu

set_option autoImplicit false

open PageEntry

/-- The present page table entry of a page. -/
def walk (mem : Memory) (cr3 : Word) (p : Nat) : Option Word :=
  let pde := mem cr3 (p / 1024)
  if present pde then
    let pte := mem (frameOf pde) (p % 1024)
    if present pte then some pte else none
  else none

structure Cpu where
  mem : Memory
  cr3 : Word
  tlb : Nat → Option Word

namespace Cpu

def after (c : Cpu) : Event → Cpu
  | .stored mem => { c with mem := mem }
  | .invlpg page => { c with tlb := Function.update c.tlb page none }
  | .loadedCr3 pd => { c with cr3 := pd, tlb := fun _ => none }

def fill (c : Cpu) (p : Nat) (e : Word) : Cpu := { c with tlb := Function.update c.tlb p (some e) }

end Cpu

/-- What the CPU may have after the events of a trace, newest first: between any two of them it
may fill its TLB. -/
inductive Cached (c₀ : Cpu) : List Event → Cpu → Prop where
  | start : Cached c₀ [] c₀
  | fill {es : List Event} {c : Cpu} {p : Nat} {e : Word} :
      Cached c₀ es c → walk c.mem c.cr3 p = some e → Cached c₀ es (c.fill p e)
  | event {es : List Event} {c : Cpu} (ev : Event) :
    Cached c₀ es c → Cached c₀ (ev :: es) (c.after ev)

/-- What the TLB has for the page is the page's present entry. -/
def InStep (c : Cpu) (p : Nat) : Prop := ∀ e, c.tlb p = some e → walk c.mem c.cr3 p = some e

/-- A property that a CPU keeps while it fills its TLB holds after an event if the event
brings it about. -/
theorem cached_event {c₀ : Cpu} {es : List Event} {ev : Event} {P Q : Cpu → Prop}
    (h : ∀ c, Cached c₀ es c → P c) (hevent : ∀ c, P c → Q (c.after ev))
    (hfill : ∀ c p e, Q c → walk c.mem c.cr3 p = some e → Q (c.fill p e)) :
    ∀ c, Cached c₀ (ev :: es) c → Q c := by
  intro c hc
  generalize htrace : ev :: es = es' at hc
  induction hc with
  | start => exact absurd htrace (by simp)
  | fill _ hwalk ih => exact hfill _ _ _ (ih htrace) hwalk
  | event ev' hc _ =>
    obtain ⟨hev, hes⟩ := List.cons.inj htrace
    rw [← hes] at hc
    rw [← hev]
    exact hevent _ (h _ hc)

/-- The CPU sees the memory of the state, and is in step on the pages of a set. -/
structure Current (s : State) (S : Nat → Prop) (c : Cpu) : Prop where
  mem : c.mem = s.mem
  cr3 : c.cr3 = s.cr3
  inStep : ∀ p, S p → InStep c p

theorem Current.fill {s : State} {S : Nat → Prop} {c : Cpu} {p : Nat} {e : Word}
    (h : Current s S c) (hwalk : walk c.mem c.cr3 p = some e) : Current s S (c.fill p e) := by
  refine ⟨h.mem, h.cr3, ?_⟩
  intro q hq e' he'
  unfold Cpu.fill at he'
  simp only at he'
  cases Nat.decEq q p with
  | isTrue heq =>
    rw [heq, Function.update_self] at he'
    rw [heq, ← he']
    exact hwalk
  | isFalse hne =>
    rw [Function.update_of_ne hne] at he'
    exact h.inStep q hq e' he'

/-- Whatever the TLB has been filled with, it is in step with the state. -/
def TlbCurrent (c₀ : Cpu) (S : Nat → Prop) (s : State) : Prop :=
  ∀ c, Cached c₀ s.trace c → Current s S c

namespace TlbCurrent
variable {c₀ : Cpu} {S S' : Nat → Prop} {s s' : State} (h : TlbCurrent c₀ S s)
include h

theorem index (n : Nat) : TlbCurrent c₀ S { s with framesIndex := n } := by
  intro c hc
  have hcurrent := h c hc
  exact ⟨hcurrent.mem, hcurrent.cr3, hcurrent.inStep⟩

theorem stored (htrace : s'.trace = .stored s'.mem :: s.trace) (hcr3 : s'.cr3 = s.cr3)
    (hsub : ∀ p, S' p → S p)
    (hkeep : ∀ p, S' p → ∀ e, walk s.mem s.cr3 p = some e → walk s'.mem s.cr3 p = some e) :
    TlbCurrent c₀ S' s' := by
  unfold TlbCurrent
  rw [htrace]
  refine cached_event h ?_ fun _ _ _ hcurrent hwalk => hcurrent.fill hwalk
  intro c hcurrent
  refine ⟨rfl, hcurrent.cr3.trans hcr3.symm, ?_⟩
  intro p hp e he
  have hbefore := hcurrent.inStep p (hsub p hp) e he
  rw [hcurrent.mem, hcurrent.cr3] at hbefore
  unfold Cpu.after
  simp only
  rw [hcurrent.cr3]
  exact hkeep p hp e hbefore

theorem invlpg {addr : Nat} (hsub : ∀ p, S' p → S p ∨ p = addr / 4096) :
    TlbCurrent c₀ S' (s.invlpg addr) := by
  refine cached_event h ?_ fun _ _ _ hcurrent hwalk => hcurrent.fill hwalk
  intro c hcurrent
  refine ⟨hcurrent.mem, hcurrent.cr3, ?_⟩
  intro p hp e he
  unfold Cpu.after at he
  simp only at he
  cases Nat.decEq p (addr / 4096) with
  | isTrue heq =>
    rw [heq, Function.update_self] at he
    exact absurd he (by simp)
  | isFalse hne =>
    rw [Function.update_of_ne hne] at he
    exact hcurrent.inStep p ((hsub p hp).resolve_right hne) e he

theorem loadCr3 (pd : Word) : TlbCurrent c₀ S' (s.loadCr3 pd) := by
  refine cached_event h ?_ fun _ _ _ hcurrent hwalk => hcurrent.fill hwalk
  intro c hcurrent
  refine ⟨hcurrent.mem, rfl, ?_⟩
  intro p _ e he
  exact absurd he (by simp [Cpu.after])

end TlbCurrent

/-! ### The entries of the pages below the pool array -/

def below (p : Nat) : Prop := p < pageLimit

theorem walk_eq (k : Kernel) (s : State) (p : Nat) :
    walk s.mem k.pd p = if mapped k s p = true then some (pte k s p) else none := by
  unfold walk mapped pte table pde
  simp only
  cases hd : present (s.mem k.pd (p / 1024)) with
  | false => simp
  | true => simp

/-- The walk for a page reads its directory entry and its page table entry. -/
theorem walk_congr {mem mem' : Memory} {cr3 : Word} {p : Nat}
    (hpde : mem' cr3 (p / 1024) = mem cr3 (p / 1024))
    (hpte : present (mem cr3 (p / 1024)) = true →
      mem' (frameOf (mem cr3 (p / 1024))) (p % 1024) = mem
        (frameOf (mem cr3 (p / 1024))) (p % 1024)) :
    walk mem' cr3 p = walk mem cr3 p := by
  unfold walk
  simp only [hpde]
  split
  · rename_i hpresent
    rw [hpte hpresent]
  · rfl

theorem walk_absent {mem : Memory} {cr3 : Word} {p : Nat}
    (h : present (mem cr3 (p / 1024)) = false) : walk mem cr3 p = none := by
  unfold walk
  simp only [h, Bool.false_eq_true, if_false]

theorem walk_keep {k : Kernel} {s s' : State} {p : Nat}
    (hkeep : mapped k s p = true → mapped k s' p = true ∧ pte k s' p = pte k s p) (e : Word)
    (hwalk : walk s.mem k.pd p = some e) : walk s'.mem k.pd p = some e := by
  rw [walk_eq] at hwalk ⊢
  split at hwalk
  · rename_i hmapped
    obtain ⟨hmapped', hpte⟩ := hkeep hmapped
    rw [if_pos hmapped', hpte]
    exact hwalk
  · exact absurd hwalk (by simp)

theorem present_of_walk {mem : Memory} {cr3 : Word} {p : Nat} {e : Word}
    (h : walk mem cr3 p = some e) : present (mem cr3 (p / 1024)) = true := by
  cases hpresent : present (mem cr3 (p / 1024)) with
  | true => rfl
  | false =>
    rw [walk_absent hpresent] at h
    exact absurd h (by simp)

/-- A store to an entry of the directory that is not present, or whose pages are not looked at. -/
theorem TlbCurrent.set_pde {c₀ : Cpu} {S : Nat → Prop} {s : State} (h : TlbCurrent c₀ S s)
    {pd : Word} (hcr3 : s.cr3 = pd) {d : Nat}
    (hentry : ∀ p, S p → p / 1024 = d → present (s.mem pd d) = false)
    (htable : ∀ p, S p → present (s.mem pd (p / 1024)) = true →
      frameOf (s.mem pd (p / 1024)) ≠ pd) (w : Word) : TlbCurrent c₀ S (s.set pd d w) := by
  refine h.stored rfl rfl (fun _ hp => hp) ?_
  intro p hp e hwalk
  rw [hcr3] at hwalk ⊢
  have hpresent := present_of_walk hwalk
  have hne : p / 1024 ≠ d := by
    intro heq
    rw [heq, hentry p hp heq] at hpresent
    exact Bool.noConfusion hpresent
  rw [← hwalk]
  apply walk_congr
  · exact set_mem_word _ _ _ _ _ hne
  · intro _
    exact set_mem_frame _ _ _ _ (htable p hp hpresent) _

theorem walk_same {k : Kernel} {s s' : State} {p : Nat} (h : mapped k s' p = mapped k s p ∧
    (mapped k s p = true → pte k s' p = pte k s p)) :
    walk s'.mem k.pd p = walk s.mem k.pd p := by
  rw [walk_eq, walk_eq, h.1]
  split
  · rename_i hmapped
    rw [h.2 hmapped]
  · rfl

/-- The frame has no word that would be a present entry. -/
def Blank (s : State) (f : Word) : Prop := ∀ j < 1024, present (s.mem f j) = false

namespace Sound
variable {k : Kernel} {s s' : State} (h : Sound k s)
include h

omit h in
/-- A change in a frame that is neither the directory nor a page table. -/
theorem pages_off {g : Word} (hpd : g ≠ k.pd)
    (htable : ∀ d < 1022, present (pde k s d) = true → table k s d ≠ g)
    (hagree : ∀ f, f ≠ g → ∀ j, s'.mem f j = s.mem f j) {p : Nat} (hp : p < pageLimit) :
    mapped k s' p = mapped k s p ∧ (mapped k s p = true → pte k s' p = pte k s p) := by
  have hpte : present (pde k s (p / 1024)) = true → pte k s' p = pte k s p :=
    fun hpresent => pte_agree hagree hpd (htable _ (pageLimit_div hp) hpresent)
  refine ⟨mapped_of_entries (pde_agree hagree hpd _) hpte, ?_⟩
  intro hmapped
  exact hpte (mapped_iff.1 hmapped).1

section Entry
variable {p : Nat} (hp : p < pageLimit) (hpresent : present (pde k s (p / 1024)) = true) {w : Word}
include hp hpresent

theorem set_pte_other {q : Nat} (hq : q < pageLimit) (hne : q ≠ p) :
    let s' := s.set (table k s (p / 1024)) (p % 1024) w
    mapped k s' q = mapped k s q ∧
      (present (pde k s (q / 1024)) = true → pte k s' q = pte k s q) := by
  intro s'
  have hpd := h.table_ne_pd (pageLimit_div hp) hpresent
  have hagree : ∀ f, f ≠ table k s (p / 1024) → ∀ j, s'.mem f j = s.mem f j :=
    fun f hf j => set_mem_frame _ _ _ _ hf j
  have hpde := pde_agree hagree hpd
  have hpte : present (pde k s (q / 1024)) = true → pte k s' q = pte k s q := by
    intro hqpresent
    unfold pte
    rw [table_agree hagree hpd]
    refine (set_mem _ _ _ _ _ _).trans (if_neg ?_)
    intro hand
    have hd := h.tables_inj _ (pageLimit_div hq) _ (pageLimit_div hp) hqpresent hpresent hand.1
    have hi := hand.2
    omega
  exact ⟨mapped_of_entries (hpde _) hpte, hpte⟩

theorem set_pte_same : pte k (s.set (table k s (p / 1024)) (p % 1024) w) p = w := by
  have hpd := h.table_ne_pd (pageLimit_div hp) hpresent
  unfold pte
  rw [table_agree (fun f hf j => set_mem_frame s _ _ _ hf j) hpd]
  exact set_mem_same _ _ _ _

theorem set_pte_sound : Sound k (s.set (table k s (p / 1024)) (p % 1024) w) :=
  h.of_unread (h.tables _ (pageLimit_div hp) hpresent) (fun _ hf j => set_mem_frame _ _ _ _ hf j)
    rfl (Nat.le_refl _)

theorem set_pte_tlb {c₀ : Cpu} (htlb : TlbCurrent c₀ below s) :
    TlbCurrent c₀ (fun q => below q ∧ q ≠ p) (s.set (table k s (p / 1024)) (p % 1024) w) := by
  refine htlb.stored rfl rfl (fun _ hq => hq.1) ?_
  intro q hq e he
  rw [h.cr3] at he ⊢
  obtain ⟨hsame, hpte⟩ := h.set_pte_other hp hpresent hq.1 hq.2
  exact (walk_same ⟨hsame, fun hmapped => hpte (mapped_iff.1 hmapped).1⟩).trans he

theorem set_pte_tlb_fresh {c₀ : Cpu} (htlb : TlbCurrent c₀ below s)
    (habsent : present (pte k s p) = false ∨ pte k s p = w) :
    TlbCurrent c₀ below (s.set (table k s (p / 1024)) (p % 1024) w) := by
  refine htlb.stored rfl rfl (fun _ hq => hq) ?_
  intro q hq
  rw [h.cr3]
  apply walk_keep
  intro hmapped
  cases Nat.decEq q p with
  | isFalse hne =>
    obtain ⟨hsame, hpte⟩ := h.set_pte_other hp hpresent hq hne
    exact ⟨hsame.trans hmapped, hpte (mapped_iff.1 hmapped).1⟩
  | isTrue heq =>
    subst heq
    have hold := (mapped_iff.1 hmapped).2
    cases habsent with
    | inl hfalse => exact Bool.noConfusion (hfalse.symm.trans hold)
    | inr hw =>
      rw [mapped_iff, h.set_pte_same hp hpresent, ← hw]
      refine ⟨⟨?_, hold⟩, rfl⟩
      rw [pde_agree (fun f hf j => set_mem_frame s _ _ _ hf j)
        (h.table_ne_pd (pageLimit_div hp) hpresent)]
      exact hpresent

end Entry

section Table
variable {addr : Nat} (hd : mmuPdIndex addr < 1022) (hpos : 0 < s.framesIndex)
include hd hpos

theorem newTable_pte_same {q : Nat} (hq : q / 1024 = mmuPdIndex addr) :
    pte k (newTable k addr s) q = 0#32 := by
  have htop := h.spare (s.framesIndex - 1) (by omega)
  have hframe : table k (newTable k addr s) (q / 1024) = poolWord k s (s.framesIndex - 1) := by
    unfold table
    rw [h.newTable_pde hd hpos, if_pos hq]
    exact frameOf_installed _ htop.isFrame
  unfold pte
  rw [hframe, h.newTable_mem hd hpos, if_neg fun hand => htop.reserved (.inl hand.1), if_pos rfl]

theorem newTable_page_other {q : Nat} (hq : q < pageLimit) (hother : q / 1024 ≠ mmuPdIndex addr) :
    mapped k (newTable k addr s) q = mapped k s q ∧
      (mapped k s q = true → pte k (newTable k addr s) q = pte k s q) := by
  have htop := h.spare (s.framesIndex - 1) (by omega)
  have hpde : pde k (newTable k addr s) (q / 1024) = pde k s (q / 1024) := by
    rw [h.newTable_pde hd hpos, if_neg hother]
  have hpte : present (pde k s (q / 1024)) = true →
      pte k (newTable k addr s) q = pte k s q := by
    intro hpresent
    have hmem : (newTable k addr s).mem (table k s (q / 1024)) (q % 1024) =
        s.mem (table k s (q / 1024)) (q % 1024) := by
      rw [h.newTable_mem hd hpos,
        if_neg fun hand => h.table_ne_pd (pageLimit_div hq) hpresent hand.1,
        if_neg (htop.tables _ (pageLimit_div hq) hpresent)]
    unfold pte
    rw [show table k (newTable k addr s) (q / 1024) = table k s (q / 1024) from
      congrArg frameOf hpde]
    exact hmem
  exact ⟨mapped_of_entries hpde hpte, fun hmapped => hpte (mapped_iff.1 hmapped).1⟩

variable (hzero : pde k s (mmuPdIndex addr) = 0#32)
include hzero

theorem newTable_tlb (hblank : Blank s (poolWord k s (s.framesIndex - 1))) {c₀ : Cpu}
    (htlb : TlbCurrent c₀ below s) : TlbCurrent c₀ below (newTable k addr s) := by
  have htop := h.spare (s.framesIndex - 1) (by omega)
  have hcr3 := h.cr3
  have hfpd : poolWord k s (s.framesIndex - 1) ≠ k.pd := fun heq => htop.reserved (.inl heq)
  have htable : ∀ p, below p → present (s.mem k.pd (p / 1024)) = true →
      frameOf (s.mem k.pd (p / 1024)) ≠ k.pd :=
    fun p hp hpresent => h.table_ne_pd (pageLimit_div hp) hpresent
  let s₀ := s.set k.pd (mmuPdIndex addr) (mmuPageOndemand ||| mmuProtRw ||| mmuProtUser)
  have hsame₀ : present (s₀.mem k.pd (mmuPdIndex addr)) = false := by
    rw [set_mem_same]
    decide
  have hother₀ : ∀ p, p / 1024 ≠ mmuPdIndex addr → s₀.mem k.pd (p / 1024) = s.mem k.pd (p / 1024) :=
    fun p hne => set_mem_word _ _ _ _ _ hne
  have htlb₀ : TlbCurrent c₀ below s₀ :=
    htlb.set_pde hcr3 (fun _ _ _ => (congrArg present hzero).trans not_present_zero) htable _
  -- The frame is put behind the entry before it is cleared.
  let w := poolWord k s (s.framesIndex - 1) |||
    ((mmuPageOndemand ||| mmuProtRw ||| mmuProtUser) &&& mmuProtMask) ||| mmuProtPresent
  let s₁ := ({ s₀ with framesIndex := s.framesIndex - 1 } : State).set k.pd (mmuPdIndex addr) w
  have htable₀ : ∀ p, below p → present (s₀.mem k.pd (p / 1024)) = true →
      frameOf (s₀.mem k.pd (p / 1024)) ≠ k.pd := by
    intro p hp hpresent
    have hne : p / 1024 ≠ mmuPdIndex addr := by
      intro heq
      rw [heq, hsame₀] at hpresent
      exact Bool.noConfusion hpresent
    rw [hother₀ p hne] at hpresent ⊢
    exact htable p hp hpresent
  have htlb₁ : TlbCurrent c₀ below s₁ :=
    (htlb₀.index (s.framesIndex - 1)).set_pde hcr3 (fun _ _ _ => hsame₀) htable₀ w
  let s₂ := s₁.invlpg (ptSlot addr)
  have htlb₂ : TlbCurrent c₀ below s₂ := htlb₁.invlpg fun _ hp => .inl hp
  let s₃ := s₂.zero (poolWord k s (s.framesIndex - 1))
  have hframe : frameOf w = poolWord k s (s.framesIndex - 1) := frameOf_installed _ htop.isFrame
  have hsame₂ : s₂.mem k.pd (mmuPdIndex addr) = w := set_mem_same _ _ _ _
  have hother₂ : ∀ p, p / 1024 ≠ mmuPdIndex addr → s₂.mem k.pd (p / 1024) = s.mem k.pd (p / 1024) :=
    fun p hne => (set_mem_word _ _ _ _ _ hne).trans (hother₀ p hne)
  have htlb₃ : TlbCurrent c₀ below s₃ := by
    refine htlb₂.stored rfl rfl (fun _ hp => hp) ?_
    intro p hp e hwalk
    have hcr3₂ : s₂.cr3 = k.pd := hcr3
    rw [hcr3₂] at hwalk ⊢
    cases Nat.decEq (p / 1024) (mmuPdIndex addr) with
    | isTrue heq =>
      have hentry : present (s₂.mem (poolWord k s (s.framesIndex - 1)) (p % 1024)) = false := by
        rw [show s₂.mem (poolWord k s (s.framesIndex - 1)) (p % 1024) =
          s.mem (poolWord k s (s.framesIndex - 1)) (p % 1024) from
            (set_mem_frame _ _ _ _ hfpd _).trans (set_mem_frame _ _ _ _ hfpd _)]
        exact hblank _ (Nat.mod_lt _ (by omega))
      unfold walk at hwalk
      simp only [heq, hsame₂, hframe, hentry, Bool.false_eq_true, if_false, ite_self] at hwalk
      exact absurd hwalk (by simp)
    | isFalse hne =>
      rw [← hwalk]
      apply walk_congr
      · exact zero_mem_frame _ _ hfpd.symm _
      · intro hpresent
        rw [hother₂ p hne] at hpresent ⊢
        exact zero_mem_frame _ _ (htop.tables _ (pageLimit_div hp) hpresent) _
  have hlast : newTable k addr s = s₃.set k.pd 1023 (s.mem k.pd 1023) := by
    have hself := h.selfMapped
    unfold SelfMapped at hself
    rw [hcr3] at hself
    have hkept : s₀.mem k.pd 1023 = s.mem k.pd 1023 := set_mem_word _ _ _ _ _ (by omega)
    have hword := h.top_marked hpos (mmuPdIndex addr)
      (mmuPageOndemand ||| mmuProtRw ||| mmuProtUser)
    rw [hcr3] at hword
    unfold newTable faultIn
    simp only [set_cr3, hcr3, set_framesIndex, mmuPdIndex_ptSlot, mmuPtIndex_ptSlot, hword]
    rw [if_pos (by omega), show (s.set k.pd (mmuPdIndex addr)
      (mmuPageOndemand ||| mmuProtRw ||| mmuProtUser)).mem k.pd 1023 = s.mem k.pd 1023 from hkept,
      hself.2, set_mem_same]
    simp only [s₃, s₂, s₁, s₀, w, set_cr3, hcr3]
  rw [hlast]
  refine htlb₃.set_pde hcr3 ?_ ?_ _
  · intro p hp heq
    have hlow := pageLimit_div hp
    omega
  · intro p hp hpresent
    have hzeroed : s₃.mem k.pd (p / 1024) = s₂.mem k.pd (p / 1024) := zero_mem_frame _ _ hfpd.symm _
    rw [hzeroed] at hpresent ⊢
    cases Nat.decEq (p / 1024) (mmuPdIndex addr) with
    | isTrue heq =>
      rw [heq, hsame₂, hframe]
      exact hfpd
    | isFalse hne =>
      rw [hother₂ p hne] at hpresent ⊢
      exact htable p hp hpresent

end Table

end Sound

end OsdevCourse.Mmu
