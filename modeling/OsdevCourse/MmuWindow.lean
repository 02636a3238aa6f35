import OsdevCourse.MmuEffects

/-!
# The windows under any directory

The recursive windows show the directory that the last entry of the active one refers to. In
the directory of a process that is the directory itself. `INT_0E` copies the last entry of the
directory the windows show to `MMU_PD` when it brings in a page table, so after a fault under a
process the windows under `MMU_PD` show the process's directory.
-/

namespace OsdevCourse.Mmu

set_option autoImplicit false

open PageEntry

/-- The recursive windows show the directory. -/
structure Recursive (s : State) (dir : Word) : Prop where
  last : present (s.mem s.cr3 1023) = true
  frame : frameOf (s.mem s.cr3 1023) = dir
  ownLast : present (s.mem dir 1023) = true
  ownFrame : frameOf (s.mem dir 1023) = dir

/-- The state after the fault handler has put the frame `f` behind the entry that the windows
show for an address. -/
def putInto (k : Kernel) (dir : Word) (addr : Nat) (f : Word) (s : State) : State :=
  let t := frameOf (s.mem dir (mmuPdIndex addr))
  let e := s.mem t (mmuPtIndex addr)
  let s' := ((s.set t (mmuPtIndex addr) (f ||| (e &&& mmuProtMask) ||| mmuProtPresent)).invlpg
    addr).zero f
  if 512 ≤ mmuPdIndex addr then s'.set k.pd (mmuPdIndex addr) (s.mem dir (mmuPdIndex addr))
  else s'

theorem putInto_mem (k : Kernel) (dir : Word) (addr : Nat) (f : Word) (s : State)
    (g : Word) (j : Nat) :
    (putInto k dir addr f s).mem g j =
      if 512 ≤ mmuPdIndex addr ∧ g = k.pd ∧ j = mmuPdIndex addr then s.mem dir (mmuPdIndex addr)
      else if g = f then 0#32
      else if g = frameOf (s.mem dir (mmuPdIndex addr)) ∧ j = mmuPtIndex addr then
        f ||| (s.mem (frameOf (s.mem dir (mmuPdIndex addr))) (mmuPtIndex addr) &&& mmuProtMask) |||
          mmuProtPresent
      else s.mem g j := by
  unfold putInto
  cases Nat.decLe 512 (mmuPdIndex addr) with
  | isTrue hkernel =>
    simp only [hkernel, if_true, set_mem, zero_mem, invlpg_mem, true_and]
  | isFalse huser =>
    simp only [huser, if_false, set_mem, zero_mem, invlpg_mem, false_and]

theorem putInto_framesIndex (k : Kernel) (dir : Word) (addr : Nat) (f : Word) (s : State) :
    (putInto k dir addr f s).framesIndex = s.framesIndex := by
  unfold putInto
  split
  · rfl
  · rfl

/-- What `mmu_mark` does once the page table is there: its result and the state after it,
for the entry `i` of the table `t`. -/
def marked (t : Word) (i addr : Nat) (paddr flag : Word) (s : State) : Bool × State :=
  let e := s.mem t i
  if present e = false then
    if flag &&& mmuPageNoalloc = 0#32 then (true, s.set t i (markEntry paddr flag))
    else (true, (s.set t i (markEntry paddr flag)).invlpg addr)
  else if flag &&& mmuPageNoalloc = 0#32 then
    (true, s.set t i ((e &&& ~~~mmuProtMask) ||| (flag &&& mmuProtMask)))
  else (false, s)

section Marked
variable {t : Word} {i addr : Nat} {paddr flag : Word} {s : State}

theorem marked_demand (habsent : present (s.mem t i) = false)
    (hflag : flag &&& mmuPageNoalloc = 0#32) :
    marked t i addr paddr flag s =
      (true, s.set t i (mmuPageOndemand ||| (flag &&& mmuProtMask))) := by
  simp only [marked, markEntry, habsent, hflag, if_true]

theorem marked_fixed (habsent : present (s.mem t i) = false)
    (hflag : flag &&& mmuPageNoalloc ≠ 0#32) :
    marked t i addr paddr flag s =
      (true, (s.set t i (paddr ||| (flag &&& mmuProtMask) ||| mmuProtPresent)).invlpg addr) := by
  simp only [marked, markEntry, habsent, if_neg hflag, if_true]

theorem marked_reprotected (hpresent : present (s.mem t i) = true)
    (hflag : flag &&& mmuPageNoalloc = 0#32) :
    marked t i addr paddr flag s =
      (true, s.set t i ((s.mem t i &&& ~~~mmuProtMask) ||| (flag &&& mmuProtMask))) := by
  simp only [marked, hpresent, hflag, if_true, Bool.true_eq_false, if_false]

theorem marked_refused (hpresent : present (s.mem t i) = true)
    (hflag : flag &&& mmuPageNoalloc ≠ 0#32) :
    marked t i addr paddr flag s = (false, s) := by
  simp only [marked, hpresent, if_neg hflag, Bool.true_eq_false, if_false]

theorem marked_mem_other {g : Word} {j : Nat} (hne : ¬ (g = t ∧ j = i)) :
    (marked t i addr paddr flag s).2.mem g j = s.mem g j := by
  have hset : ∀ w, (s.set t i w).mem g j = s.mem g j := fun w => if_neg hne
  cases hcase : present (s.mem t i) with
  | false =>
    cases Classical.em (flag &&& mmuPageNoalloc = 0#32) with
    | inl hflag => rw [marked_demand hcase hflag]; exact hset _
    | inr hflag => rw [marked_fixed hcase hflag]; exact hset _
  | true =>
    cases Classical.em (flag &&& mmuPageNoalloc = 0#32) with
    | inl hflag => rw [marked_reprotected hcase hflag]; exact hset _
    | inr hflag => rw [marked_refused hcase hflag]

theorem marked_mem_frame {g : Word} (hg : g ≠ t) (j : Nat) :
    (marked t i addr paddr flag s).2.mem g j = s.mem g j :=
  marked_mem_other fun hand => hg hand.1

theorem marked_cr3 : (marked t i addr paddr flag s).2.cr3 = s.cr3 := by
  cases hcase : present (s.mem t i) with
  | false =>
    cases Classical.em (flag &&& mmuPageNoalloc = 0#32) with
    | inl hflag => rw [marked_demand hcase hflag]; rfl
    | inr hflag => rw [marked_fixed hcase hflag]; rfl
  | true =>
    cases Classical.em (flag &&& mmuPageNoalloc = 0#32) with
    | inl hflag => rw [marked_reprotected hcase hflag]; rfl
    | inr hflag => rw [marked_refused hcase hflag]

end Marked

namespace Recursive
variable {s : State} {dir : Word} (h : Recursive s dir) {addr : Nat}
include h

theorem congr {s' : State} (hcr3 : s'.cr3 = s.cr3) (hactive : s'.mem s.cr3 1023 = s.mem s.cr3 1023)
    (hdir : s'.mem dir 1023 = s.mem dir 1023) : Recursive s' dir := by
  refine ⟨?_, ?_, ?_, ?_⟩
  · rw [hcr3, hactive]
    exact h.last
  · rw [hcr3, hactive]
    exact h.frame
  · rw [hdir]
    exact h.ownLast
  · rw [hdir]
    exact h.ownFrame

theorem translate_pdSlot (addr : Nat) : translate s (pdSlot addr) = some
    (dir, mmuPdIndex addr) := by
  unfold translate
  simp only [mmuPdIndex_pdSlot, mmuPtIndex_pdSlot, pdSlot_word, h.last, h.frame, h.ownLast,
    h.ownFrame, if_true]

theorem translate_ptSlot (addr : Nat) :
    translate s (ptSlot addr) =
      if present (s.mem dir (mmuPdIndex addr)) then
        some (frameOf (s.mem dir (mmuPdIndex addr)), mmuPtIndex addr)
      else none := by
  unfold translate
  simp only [mmuPdIndex_ptSlot, mmuPtIndex_ptSlot, ptSlot_word, h.last, h.frame, if_true]

theorem translate_ptSlot_present (hpde : present (s.mem dir (mmuPdIndex addr)) = true) :
    translate s (ptSlot addr) =
      some (frameOf (s.mem dir (mmuPdIndex addr)), mmuPtIndex addr) := by
  rw [h.translate_ptSlot, if_pos hpde]

theorem translate_ptSlot_absent (hpde : present (s.mem dir (mmuPdIndex addr)) = false) :
    translate s (ptSlot addr) = none := by
  rw [h.translate_ptSlot, hpde]
  rfl

/-! ### The page fault handler -/

section Handler
variable {k : Kernel} {alloc : Fault → State → Option (Word × State)}

theorem int0E_halts (hpde : present (s.mem dir (mmuPdIndex addr)) = true)
    (hentry : s.mem (frameOf (s.mem dir (mmuPdIndex addr))) (mmuPtIndex addr) &&&
      mmuPageOndemand = 0#32) (depth : Nat) : int0E k alloc depth 0 addr s = none := by
  cases depth with
  | zero => rfl
  | succ depth =>
    unfold int0E
    simp only [Nat.zero_mod, if_true, readWord_of_translate (h.translate_ptSlot_present hpde),
      Option.bind_eq_bind, Option.bind_some, if_pos hentry]

theorem int0E_starved (hpde : present (s.mem dir (mmuPdIndex addr)) = true)
    (hnone : ∀ fault, alloc fault s = none) (depth : Nat) :
    int0E k alloc depth 0 addr s = none := by
  cases depth with
  | zero => rfl
  | succ depth =>
    unfold int0E
    simp only [Nat.zero_mod, readWord_of_translate (h.translate_ptSlot_present hpde),
      Option.bind_eq_bind, Option.bind_some, hnone, Option.bind_none, ite_self]

theorem readWord_table_halts (hpde : s.mem dir (mmuPdIndex addr) = 0#32) (depth : Nat) :
    readWord (int0E k alloc depth 0) (ptSlot addr) s = none := by
  have habsent : present (s.mem dir (mmuPdIndex addr)) = false := by
    rw [hpde]
    exact not_present_zero
  have hhalts : int0E k alloc depth 0 (ptSlot addr) s = none := by
    apply h.int0E_halts
    · rw [mmuPdIndex_ptSlot]
      exact h.ownLast
    · rw [mmuPdIndex_ptSlot, mmuPtIndex_ptSlot, h.ownFrame, hpde, BitVec.zero_and]
  unfold readWord access
  rw [h.translate_ptSlot_absent habsent]
  simp only [hhalts, Option.bind_eq_bind, Option.bind_none]

theorem int0E_untabled (hpde : s.mem dir (mmuPdIndex addr) = 0#32) (depth : Nat) :
    int0E k alloc depth 0 addr s = none := by
  cases depth with
  | zero => rfl
  | succ depth =>
    unfold int0E
    simp only [Nat.zero_mod, if_true, h.readWord_table_halts hpde, Option.bind_eq_bind,
      Option.bind_none]

section Put
variable {f : Word} {n : Nat} (hpde : present (s.mem dir (mmuPdIndex addr)) = true)
  (hframe : IsFrame f)
  (hkeeps : ∀ a, a = dir ∨ a = s.cr3 → frameOf (s.mem dir (mmuPdIndex addr)) = a →
    mmuPtIndex addr ≠ mmuPdIndex addr ∧ mmuPtIndex addr ≠ 1023)
include hkeeps

omit h in
theorem kept_by_store (w : Word) {a : Word} (ha : a = dir ∨ a = s.cr3) {j : Nat}
    (hj : j = mmuPdIndex addr ∨ j = 1023) :
    (s.set (frameOf (s.mem dir (mmuPdIndex addr))) (mmuPtIndex addr) w).mem a j = s.mem a j := by
  rw [set_mem, if_neg]
  intro hand
  obtain ⟨hne, hne'⟩ := hkeeps a ha hand.1.symm
  cases hj with
  | inl heq => exact hne (hand.2.symm.trans heq)
  | inr heq => exact hne' (hand.2.symm.trans heq)

include hpde hframe

variable (halloc : ∀ fault, alloc fault s = some (f, { s with framesIndex := n }))
include halloc

/-- Where the active directory and the windows agree on the table of the page, the frame that
`mmu_alloc` returns goes behind the entry. -/
theorem int0E_putInto (hactive : present (s.mem s.cr3 (mmuPdIndex addr)) = true)
    (hsame : frameOf (s.mem s.cr3 (mmuPdIndex addr)) = frameOf (s.mem dir (mmuPdIndex addr)))
    (hdir : f ≠ dir) (hcr3 : f ≠ s.cr3)
    (hentry : s.mem (frameOf (s.mem dir (mmuPdIndex addr))) (mmuPtIndex addr) &&&
      mmuPageOndemand ≠ 0#32) (depth : Nat) :
    int0E k alloc (depth + 1) 0 addr s = some
      (putInto k dir addr f { s with framesIndex := n }) := by
  have hslot := h.translate_ptSlot_present hpde
  let s₁ : State := { s with framesIndex := n }
  let t := frameOf (s.mem dir (mmuPdIndex addr))
  let w := f ||| (s.mem t (mmuPtIndex addr) &&& mmuProtMask) ||| mmuProtPresent
  have hslot₁ : translate s₁ (ptSlot addr) = some (t, mmuPtIndex addr) := hslot
  let s₂ := (s₁.set t (mmuPtIndex addr) w).invlpg addr
  have hkeep : ∀ a, a = dir ∨ a = s.cr3 → ∀ j, j = mmuPdIndex addr ∨ j = 1023 →
      s₂.mem a j = s.mem a j := fun a ha j hj => kept_by_store hkeeps w ha hj
  have hpde₂ : s₂.mem s₂.cr3 (mmuPdIndex addr) = s.mem s.cr3 (mmuPdIndex addr) :=
    hkeep _ (.inr rfl) _ (.inl rfl)
  have hwframe : frameOf w = f := frameOf_installed _ hframe
  have htranslate : translate s₂ (addr / 4096 * 4096) = some (f, 0) := by
    have hpte : s₂.mem t (mmuPtIndex addr) = w := set_mem_same _ _ _ _
    rw [translate_eq_some, page_word, mmuPtIndex_page, mmuPdIndex_page, hpde₂, hsame, hpte,
      hwframe]
    · rw [mmuPdIndex_page, hpde₂]
      exact hactive
    · rw [mmuPtIndex_page, mmuPdIndex_page, hpde₂, hsame, hpte]
      exact present_installed _ _
  let s₃ := s₂.zero f
  have hkeep₃ : ∀ a, a = dir ∨ a = s.cr3 → ∀ j, j = mmuPdIndex addr ∨ j = 1023 →
      s₃.mem a j = s.mem a j := by
    intro a ha j hj
    have hne : a ≠ f := by
      cases ha with
      | inl heq => rw [heq]; exact hdir.symm
      | inr heq => rw [heq]; exact hcr3.symm
    exact (zero_mem_frame _ _ hne j).trans (hkeep a ha j hj)
  have hwindows₃ : Recursive s₃ dir :=
    h.congr rfl (hkeep₃ _ (.inr rfl) _ (.inr rfl)) (hkeep₃ _ (.inl rfl) _ (.inr rfl))
  unfold int0E putInto
  simp only [Nat.zero_mod, if_true, readWord_of_translate hslot, Option.bind_eq_bind,
    Option.bind_some, if_neg hentry, halloc]
  rw [readWord_of_translate hslot₁, Option.bind_some, writeWord_of_translate hslot₁,
    Option.bind_some, access_of_translate htranslate, Option.bind_some]
  split
  · rw [readWord_of_translate (hwindows₃.translate_pdSlot addr), Option.bind_some,
      hkeep₃ _ (.inl rfl) _ (.inl rfl)]
  · rfl

/-- Where they do not agree, the page is still missing when the handler clears it, and the
fault on that halts. -/
theorem int0E_elsewhere (hunmapped : translate s addr = none)
    (hother : ¬ (present (s.mem s.cr3 (mmuPdIndex addr)) = true ∧
      frameOf (s.mem s.cr3 (mmuPdIndex addr)) = frameOf (s.mem dir (mmuPdIndex addr))))
    (depth : Nat) : int0E k alloc depth 0 addr s = none := by
  cases depth with
  | zero => rfl
  | succ depth =>
    have hslot := h.translate_ptSlot_present hpde
    let s₁ : State := { s with framesIndex := n }
    let t := frameOf (s.mem dir (mmuPdIndex addr))
    let w := f ||| (s.mem t (mmuPtIndex addr) &&& mmuProtMask) ||| mmuProtPresent
    have hslot₁ : translate s₁ (ptSlot addr) = some (t, mmuPtIndex addr) := hslot
    let s₂ := (s₁.set t (mmuPtIndex addr) w).invlpg addr
    have hkeep : ∀ a, a = dir ∨ a = s.cr3 → ∀ j, j = mmuPdIndex addr ∨ j = 1023 →
        s₂.mem a j = s.mem a j := fun a ha j hj => kept_by_store hkeeps w ha hj
    have hpde₂ : s₂.mem s₂.cr3 (mmuPdIndex addr) = s.mem s.cr3 (mmuPdIndex addr) :=
      hkeep _ (.inr rfl) _ (.inl rfl)
    have htranslate : translate s₂ (addr / 4096 * 4096) = none := by
      unfold translate at hunmapped ⊢
      simp only [mmuPdIndex_page, mmuPtIndex_page, hpde₂]
      cases hpresent : present (s.mem s.cr3 (mmuPdIndex addr)) with
      | false => rfl
      | true =>
        have hne : frameOf (s.mem s.cr3 (mmuPdIndex addr)) ≠ t :=
          fun heq => hother ⟨hpresent, heq⟩
        have hpte : s₂.mem (frameOf (s.mem s.cr3 (mmuPdIndex addr))) (mmuPtIndex addr) =
            s.mem (frameOf (s.mem s.cr3 (mmuPdIndex addr))) (mmuPtIndex addr) :=
          set_mem_frame _ _ _ _ hne _
        simp only [hpresent, if_true] at hunmapped
        simp only [if_true, hpte]
        split at hunmapped
        · exact absurd hunmapped (by simp)
        · rename_i habsent
          rw [if_neg habsent]
    have hwindows₂ : Recursive s₂ dir :=
      h.congr rfl (hkeep _ (.inr rfl) _ (.inr rfl)) (hkeep _ (.inl rfl) _ (.inr rfl))
    have hpdeDir₂ : s₂.mem dir (mmuPdIndex addr) = s.mem dir (mmuPdIndex addr) :=
      hkeep _ (.inl rfl) _ (.inl rfl)
    have hhalts : int0E k alloc depth 0 (addr / 4096 * 4096) s₂ = none := by
      apply hwindows₂.int0E_halts
      · rw [mmuPdIndex_page, hpdeDir₂]
        exact hpde
      · rw [mmuPdIndex_page, mmuPtIndex_page, hpdeDir₂]
        have hpte : s₂.mem t (mmuPtIndex addr) = w := set_mem_same _ _ _ _
        rw [hpte]
        exact installed_not_ondemand _ hframe
    have haccess : access (int0E k alloc depth 0) (addr / 4096 * 4096) s₂ = none := by
      unfold access
      rw [htranslate]
      simp only [hhalts, Option.bind_eq_bind, Option.bind_none]
    unfold int0E
    simp only [Nat.zero_mod, if_true, readWord_of_translate hslot, Option.bind_eq_bind,
      Option.bind_some, halloc]
    split
    · rfl
    · rw [readWord_of_translate hslot₁, Option.bind_some, writeWord_of_translate hslot₁,
        Option.bind_some]
      exact congrArg (fun r => Option.bind r _) haccess

end Put

end Handler

/-! ### `mmu_mark` -/

section Mark
variable (fault : Fault) (paddr flag : Word)

theorem markPte_eq (hpde : present (s.mem dir (mmuPdIndex addr)) = true) :
    markPte fault addr paddr flag s =
      some (marked (frameOf (s.mem dir (mmuPdIndex addr))) (mmuPtIndex addr) addr
          paddr flag s) := by
  have hslot := h.translate_ptSlot_present hpde
  simp only [markPte, readWord_of_translate hslot, writeWord_of_translate hslot,
    Option.bind_eq_bind, Option.bind_some, marked, and_present_eq_zero]
  split
  · split <;> rfl
  · split <;> rfl

theorem mmuMark_present (hpde : present (s.mem dir (mmuPdIndex addr)) = true) :
    mmuMark fault addr paddr flag s =
      some (marked (frameOf (s.mem dir (mmuPdIndex addr))) (mmuPtIndex addr) addr
          paddr flag s) := by
  have hne : ¬ (s.mem dir (mmuPdIndex addr)) &&& (mmuProtPresent ||| mmuPageOndemand) = 0#32 := by
    intro hzero
    have hbit := congrArg present hzero
    rw [present_and, hpde] at hbit
    exact absurd hbit (by decide)
  unfold mmuMark
  simp only [readWord_of_translate (h.translate_pdSlot addr), Option.bind_eq_bind,
    Option.bind_some, if_neg hne]
  exact h.markPte_eq fault paddr flag hpde

theorem mmuMark_empty (hzero : s.mem dir (mmuPdIndex addr) = 0#32) :
    mmuMark fault addr paddr flag s =
      markPte fault addr paddr flag (s.set dir (mmuPdIndex addr)
        (mmuPageOndemand ||| mmuProtRw ||| mmuProtUser)) := by
  have hempty : (0#32 &&& (mmuProtPresent ||| mmuPageOndemand)) = 0#32 := BitVec.zero_and
  unfold mmuMark
  simp only [readWord_of_translate (h.translate_pdSlot addr), hzero, hempty, if_true,
    writeWord_of_translate (h.translate_pdSlot addr), Option.bind_eq_bind, Option.bind_some]

end Mark

end Recursive

theorem SelfMapped.recursive {s : State} (h : SelfMapped s) : Recursive s s.cr3 :=
  ⟨h.1, h.2, h.1, h.2⟩

/-! ### A directory is cloned -/

theorem mmuPdIndex_clondpd : mmuPdIndex kaddrClondpd = 959 := rfl
theorem mmuPtIndex_clondpd : mmuPtIndex kaddrClondpd = 1023 := rfl

/-- Where the page of the window for a new directory is mapped, its words are reached. -/
theorem translate_clondpd {s : State} {f : Word} {j : Nat} (hj : j < 1024)
    (hd : present (s.mem s.cr3 959) = true)
    (ht : present (s.mem (frameOf (s.mem s.cr3 959)) 1023) = true)
    (hf : frameOf (s.mem (frameOf (s.mem s.cr3 959)) 1023) = f) :
    translate s (kaddrClondpd + 4 * j) = some (f, j) := by
  have hpd : mmuPdIndex (kaddrClondpd + 4 * j) = 959 := by
    unfold mmuPdIndex kaddrClondpd
    omega
  have hpt : mmuPtIndex (kaddrClondpd + 4 * j) = 1023 := by
    unfold mmuPtIndex kaddrClondpd
    omega
  have hword : (kaddrClondpd + 4 * j) % 4096 / 4 = j := by
    unfold kaddrClondpd
    omega
  rw [translate_eq_some (by rw [hpd]; exact hd) (by rw [hpd, hpt]; exact ht), hpd, hpt, hf, hword]

/-- The window page `t[1023]` is mapped to the frame `f`, which is filled in as a directory. -/
def cloned (k : Kernel) (t f : Word) (s : State) : State :=
  (((((s.set t 1023 (f ||| (mmuPageNoalloc &&& mmuProtMask) ||| mmuProtPresent)).invlpg
    kaddrClondpd).zero f).copyFrom f k.pd 512).set f 1023 (f + 3#32)).set t 1023 0#32

theorem cloned_mem {k : Kernel} {t f : Word} {s : State} (htf : t ≠ f) (hpd : k.pd ≠ f)
    (htpd : k.pd ≠ t) (g : Word) (j : Nat) :
    (cloned k t f s).mem g j =
      if g = t ∧ j = 1023 then 0#32
      else if g = f then
        if j = 1023 then f + 3#32
        else if 512 ≤ j ∧ j < 1024 then s.mem k.pd j
        else 0#32
      else s.mem g j := by
  unfold cloned
  simp only [set_mem]
  split
  · rfl
  · rename_i hslot
    cases Classical.em (g = f) with
    | inr hg =>
      simp only [hg, false_and, if_false, State.copyFrom, zero_mem, invlpg_mem, set_mem, hslot]
    | inl hg =>
      subst hg
      simp only [true_and, if_true, State.copyFrom, zero_mem, invlpg_mem, set_mem, hpd, htpd,
        false_and, if_false]

/-- `mmu_clone_pagedir` from where the window is mapped to the frame. -/
def fillWindow (k : Kernel) (fault : Fault) (f : Word) (s : State) : Option (Word × State) := do
  let (place, s) ← access fault kaddrClondpd s
  let s := s.zero place.1
  let (place, s) ← access fault (kaddrClondpd + 4 * 512) s
  let s := s.copyFrom place.1 k.pd 512
  let s ← writeWord fault (kaddrClondpd + 4 * 1023) (f + 3#32) s
  let (_, s) ← mmuMunmap fault kaddrClondpd 4096 mmuMunmapNorelease s
  some (f, s)

theorem mmuClonePagedir_of_mark {k : Kernel} {fault : Fault} {s s₁ : State} {f : Word}
    {r : Bool × State} (halloc : mmuAlloc fault s = some (f, s₁)) (hne : f ≠ 0#32)
    (hmark : mmuMark fault kaddrClondpd f mmuPageNoalloc s₁ = some r) :
    mmuClonePagedir fault k s =
      if r.1 = true then fillWindow k fault f r.2
      else (mmuFree fault f r.2).bind fun s => some (0#32, s) := by
  have hcount : pageCount 4096 = some 1 := rfl
  obtain ⟨ok, s₂⟩ := r
  unfold mmuClonePagedir
  simp only [halloc, Option.bind_eq_bind, Option.bind_some, if_neg hne, mmuMmap, hcount, markPages,
    hmark]
  cases ok with
  | true => rfl
  | false => rfl

theorem Recursive.fillWindow_eq {k : Kernel} (fault : Fault) {s : State} {dir f t : Word}
    (hrec : Recursive s dir) (hframe : IsFrame f) (hpde : present (s.mem dir 959) = true)
    (htable : frameOf (s.mem dir 959) = t) (hsame : s.mem s.cr3 959 = s.mem dir 959)
    (htdir : t ≠ dir) (htcr3 : t ≠ s.cr3) (hfdir : f ≠ dir) (hfcr3 : f ≠ s.cr3) (htf : t ≠ f) :
    fillWindow k fault f ((s.set t 1023
      (f ||| (mmuPageNoalloc &&& mmuProtMask) ||| mmuProtPresent)).invlpg kaddrClondpd) =
        some (f, cloned k t f s) := by
  let w := f ||| (mmuPageNoalloc &&& mmuProtMask) ||| mmuProtPresent
  let s₁ := (s.set t 1023 w).invlpg kaddrClondpd
  have hw : present w = true := present_installed _ _
  have hwf : frameOf w = f := frameOf_installed _ hframe
  -- None of the stores touches a directory or the entry of the window.
  have hreached : ∀ s', s'.cr3 = s.cr3 → (∀ j, s'.mem s.cr3 j = s.mem s.cr3 j) →
      s'.mem t 1023 = w → ∀ j < 1024, translate s' (kaddrClondpd + 4 * j) = some (f, j) := by
    intro s' hcr3' hmem hslot j hj
    have hentry : s'.mem s'.cr3 959 = s.mem dir 959 := by rw [hcr3', hmem, hsame]
    apply translate_clondpd hj
    · rw [hentry]
      exact hpde
    · rw [hentry, htable, hslot]
      exact hw
    · rw [hentry, htable, hslot]
      exact hwf
  have hkept₁ : ∀ g, g ≠ t → ∀ j, s₁.mem g j = s.mem g j := fun g hg j => set_mem_frame _ _ _ _ hg j
  have hslot₁ : s₁.mem t 1023 = w := set_mem_same _ _ _ _
  have htranslate₁ : translate s₁ kaddrClondpd = some (f, 0) :=
    hreached s₁ rfl (hkept₁ _ htcr3.symm) hslot₁ 0 (by omega)
  let s₂ := s₁.zero f
  have hkept₂ : ∀ g, g ≠ t → g ≠ f → ∀ j, s₂.mem g j = s.mem g j :=
    fun g hg hgf j => (zero_mem_frame _ _ hgf j).trans (hkept₁ g hg j)
  have hslot₂ : s₂.mem t 1023 = w := (zero_mem_frame _ _ htf _).trans hslot₁
  have htranslate₂ := hreached s₂ rfl (hkept₂ _ htcr3.symm hfcr3.symm) hslot₂ 512 (by omega)
  let s₃ := s₂.copyFrom f k.pd 512
  have hkept₃ : ∀ g, g ≠ t → g ≠ f → ∀ j, s₃.mem g j = s.mem g j :=
    fun g hg hgf j => (if_neg fun hand => hgf hand.1).trans (hkept₂ g hg hgf j)
  have hslot₃ : s₃.mem t 1023 = w := (if_neg fun hand => htf hand.1).trans hslot₂
  have htranslate₃ := hreached s₃ rfl (hkept₃ _ htcr3.symm hfcr3.symm) hslot₃ 1023 (by omega)
  let s₄ := s₃.set f 1023 (f + 3#32)
  have hkept₄ : ∀ g, g ≠ t → g ≠ f → ∀ j, s₄.mem g j = s.mem g j :=
    fun g hg hgf j => (set_mem_frame _ _ _ _ hgf j).trans (hkept₃ g hg hgf j)
  have hrec₄ : Recursive s₄ dir :=
    hrec.congr rfl (hkept₄ _ htcr3.symm hfcr3.symm _) (hkept₄ _ htdir.symm hfdir.symm _)
  have hslot₄ : translate s₄ (ptSlot kaddrClondpd) = some (t, 1023) := by
    have hentry : s₄.mem dir 959 = s.mem dir 959 := hkept₄ _ htdir.symm hfdir.symm _
    rw [hrec₄.translate_ptSlot_present (by rw [mmuPdIndex_clondpd, hentry]; exact hpde),
      mmuPdIndex_clondpd, hentry, htable, mmuPtIndex_clondpd]
  have hmunmap : mmuMunmap fault kaddrClondpd 4096 mmuMunmapNorelease s₄ =
      some (true, s₄.set t 1023 0#32) := by
    unfold mmuMunmap
    have hcount : pageCount 4096 = some 1 := rfl
    rw [hcount]
    simp only [Option.bind_eq_bind, Option.bind_some, unmapPages, unmapPage]
    rw [readWord_of_translate hslot₄, Option.bind_some, writeWord_of_translate hslot₄,
      Option.bind_some, if_neg]
    · rfl
    · intro hand
      exact absurd hand.2.1 (by decide)
  unfold fillWindow
  simp only [Option.bind_eq_bind]
  rw [access_of_translate htranslate₁, Option.bind_some, access_of_translate htranslate₂,
    Option.bind_some, writeWord_of_translate htranslate₃, Option.bind_some, hmunmap]
  rfl

end OsdevCourse.Mmu
