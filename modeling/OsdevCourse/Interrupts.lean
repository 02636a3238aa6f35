import OsdevCourse.I686

/-!
# Interrupts on an i686

An interrupt that comes from an outer ring begins on the stack that the TSS names, with the
stack pointer it came from on top; from ring 0 it stays on the stack it finds. `iretd` takes
back what was pushed. The segment registers for data are saved by nobody: on the way to an
outer ring `iretd` drops those whose descriptors are not for that ring.
-/

namespace OsdevCourse.I686

set_option autoImplicit false

/-! Words on a stack. -/

/-- The words are in memory one behind the other, from the address `a` on. -/
def Words (m : Memory) : Nat → List UInt32 → Prop
  | _, [] => True
  | a, w :: ws => m.read32 a = w.toNat ∧ Words m (a + 4) ws

section Words
variable {m m' : Memory} {a : Nat} {x v w : UInt32} {vs ws : List UInt32}

theorem Words.congr (h : Words m a ws) (hm : ∀ n, a ≤ n → n < a + 4 * ws.length → m' n = m n) :
    Words m' a ws := by
  induction ws generalizing a with
  | nil => trivial
  | cons w ws ih =>
    simp only [List.length_cons] at hm
    refine ⟨?_, ih h.2 fun n hlo hhi => hm n (by omega) (by omega)⟩
    rw [← h.1]
    apply Memory.read32_congr
    intro n hlo hhi
    exact hm n hlo (by omega)

theorem words_append : Words m a (vs ++ ws) ↔ Words m a vs ∧ Words m (a + 4 * vs.length) ws := by
  induction vs generalizing a with
  | nil => simp [Words]
  | cons v vs ih =>
    simp only [List.cons_append, Words, ih, List.length_cons, and_assoc]
    rw [show a + 4 + 4 * vs.length = a + 4 * (vs.length + 1) by omega]

theorem Words.load (h : Words m a (w :: ws)) (hx : x.toNat = a) : load m x = w := by
  unfold I686.load
  rw [hx, h.1, UInt32.ofNat_toNat]

theorem Words.load_at (h : Words m a ws) {i : Nat} (hi : ws[i]? = some w)
    (hx : x.toNat = a + 4 * i) :
    I686.load m x = w := by
  induction i generalizing a ws with
  | zero =>
    cases ws with
    | nil => simp at hi
    | cons v vs =>
      obtain rfl : v = w := by simpa using hi
      exact h.load hx
  | succ i ih =>
    cases ws with
    | nil => simp at hi
    | cons v vs => exact ih h.2 (by simpa using hi) (by omega)

theorem words_store (hx : x.toNat = a) : Words (store m x v) a [v] := by
  refine ⟨?_, trivial⟩
  unfold store
  rw [hx]
  exact Memory.read32_write32 v.toNat_lt

end Words

namespace Cpu

/-- The words pushed one after the other: the last one is on top. -/
def pushes (σ : Cpu) (ws : List UInt32) : Cpu := ws.foldl push σ

section Pushes
variable {σ : Cpu} {ws : List UInt32} {v : UInt32}

theorem push_esp : (σ.push v).reg .esp = σ.reg .esp - UInt32.ofNat 4 := by
  simp [push, set, movStore]

theorem push_reg {r : Reg} (hr : r ≠ .esp) : (σ.push v).reg r = σ.reg r := by
  simp [push, set, movStore, hr]

theorem push_esp_toNat (h : 4 ≤ (σ.reg .esp).toNat) :
    ((σ.push v).reg .esp).toNat = (σ.reg .esp).toNat - 4 := by
  rw [push_esp]
  exact toNat_sub_offset h

theorem push_out (h : 4 ≤ (σ.reg .esp).toNat) {n : Nat}
    (hn : n < (σ.reg .esp).toNat - 4 ∨ (σ.reg .esp).toNat ≤ n) : (σ.push v).mem n = σ.mem n := by
  have htop := toNat_sub_offset (a := σ.reg .esp) h
  apply store_out
  omega

theorem push_words (h : 4 ≤ (σ.reg .esp).toNat) : Words (σ.push v).mem
    ((σ.reg .esp).toNat - 4) [v] :=
  words_store (toNat_sub_offset h)

theorem words_push (hwords : Words σ.mem (σ.reg .esp).toNat ws) (h : 4 ≤ (σ.reg .esp).toNat) :
    Words (σ.push v).mem ((σ.push v).reg .esp).toNat (v :: ws) := by
  have htop := push_esp_toNat (v := v) h
  have hrest : (σ.reg .esp).toNat - 4 + 4 = (σ.reg .esp).toNat := by omega
  rw [htop]
  refine ⟨(push_words h).1, ?_⟩
  rw [hrest]
  exact hwords.congr fun n hlo _ => push_out h (Or.inr hlo)

theorem pushes_reg {r : Reg} (hr : r ≠ .esp) : (σ.pushes ws).reg r = σ.reg r := by
  induction ws generalizing σ with
  | nil => rfl
  | cons w ws ih => exact ih.trans (push_reg hr)

@[simp] theorem pushes_eflags : (σ.pushes ws).eflags = σ.eflags := by
  induction ws generalizing σ with
  | nil => rfl
  | cons w ws ih => exact ih

@[simp] theorem pushes_eip : (σ.pushes ws).eip = σ.eip := by
  induction ws generalizing σ with
  | nil => rfl
  | cons w ws ih => exact ih

@[simp] theorem pushes_cr3 : (σ.pushes ws).cr3 = σ.cr3 := by
  induction ws generalizing σ with
  | nil => rfl
  | cons w ws ih => exact ih

theorem pushes_esp (h : 4 * ws.length ≤ (σ.reg .esp).toNat) :
    ((σ.pushes ws).reg .esp).toNat = (σ.reg .esp).toNat - 4 * ws.length := by
  induction ws generalizing σ with
  | nil => rfl
  | cons w ws ih =>
    simp only [List.length_cons] at h ⊢
    have htop := push_esp_toNat (σ := σ) (v := w) (by omega)
    have hrest := ih (σ := σ.push w) (by omega)
    refine hrest.trans ?_
    omega

theorem pushes_out (h : 4 * ws.length ≤ (σ.reg .esp).toNat) {n : Nat}
    (hn : n < (σ.reg .esp).toNat - 4 * ws.length ∨ (σ.reg .esp).toNat ≤ n) :
    (σ.pushes ws).mem n = σ.mem n := by
  induction ws generalizing σ with
  | nil => rfl
  | cons w ws ih =>
    simp only [List.length_cons] at h hn
    have htop := push_esp_toNat (σ := σ) (v := w) (by omega)
    have hrest := ih (σ := σ.push w) (by omega) (by omega)
    exact hrest.trans (push_out (by omega) (by omega))

theorem pushes_words (h : 4 * ws.length ≤ (σ.reg .esp).toNat) :
    Words (σ.pushes ws).mem ((σ.reg .esp).toNat - 4 * ws.length) ws.reverse := by
  induction ws generalizing σ with
  | nil => trivial
  | cons w ws ih =>
    simp only [List.length_cons] at h
    have htop := push_esp_toNat (σ := σ) (v := w) (by omega)
    have hrest := ih (σ := σ.push w) (by omega)
    simp only [List.reverse_cons, List.length_cons]
    rw [words_append, List.length_reverse]
    constructor
    · rw [show (σ.reg .esp).toNat - 4 * (ws.length + 1) =
          ((σ.push w).reg .esp).toNat - 4 * ws.length by
        omega]
      exact hrest
    · rw [show (σ.reg .esp).toNat - 4 * (ws.length + 1) + 4 * ws.length =
        (σ.reg .esp).toNat - 4 by omega]
      apply (push_words (by omega)).congr
      intro n hlo hhi
      simp only [List.length_cons, List.length_nil] at hhi
      have hkept : ((σ.push w).pushes ws).mem n = (σ.push w).mem n :=
        pushes_out (by omega) (by omega)
      exact hkept

end Pushes

def pusha (σ : Cpu) : Cpu :=
  σ.pushes [σ.reg .eax, σ.reg .ecx, σ.reg .edx, σ.reg .ebx, σ.reg .esp, σ.reg .ebp,
    σ.reg .esi, σ.reg .edi]

/-- `popa`: the stack pointer that was pushed is skipped. -/
def popa (σ : Cpu) : Cpu :=
  let σ := σ.pop .edi
  let σ := σ.pop .esi
  let σ := σ.pop .ebp
  let σ := σ.set .esp (σ.reg .esp + UInt32.ofNat 4)
  let σ := σ.pop .ebx
  let σ := σ.pop .edx
  let σ := σ.pop .ecx
  σ.pop .eax

theorem words_next {m : Memory} {a w : UInt32} {ws : List UInt32} (h : Words m a.toNat (w :: ws))
    (ha : a.toNat + 4 < 2 ^ 32) : Words m (a + UInt32.ofNat 4).toNat ws := by
  rw [toNat_add_offset ha]
  exact h.2

theorem popa_eq {σ : Cpu} {edi esi ebp skipped ebx edx ecx eax : UInt32}
    (h : Words σ.mem (σ.reg .esp).toNat [edi, esi, ebp, skipped, ebx, edx, ecx, eax])
    (hbound : (σ.reg .esp).toNat + 32 < 2 ^ 32) :
    σ.popa = { σ with reg := fun r => match r with
      | .edi => edi | .esi => esi | .ebp => ebp | .ebx => ebx | .edx => edx | .ecx => ecx
      | .eax => eax
      | .esp => σ.reg .esp + UInt32.ofNat 32 } := by
  have hnext : ∀ (a : UInt32) (i : Nat), i ≤ 28 → a.toNat = (σ.reg .esp).toNat + i →
      (a + UInt32.ofNat 4).toNat = (σ.reg .esp).toNat + (i + 4) := by
    intro a i hi ha
    rw [toNat_add_offset (by omega), ha, Nat.add_assoc]
  have h1 := hnext (σ.reg .esp) 0 (by omega) rfl
  have h2 := hnext _ _ (by omega) h1
  have h3 := hnext _ _ (by omega) h2
  have h4 := hnext _ _ (by omega) h3
  have h5 := hnext _ _ (by omega) h4
  have h6 := hnext _ _ (by omega) h5
  have h7 := hnext _ _ (by omega) h6
  have h8 := hnext _ _ (by omega) h7
  have w1 := words_next h (by omega)
  have w2 := words_next w1 (by omega)
  have w3 := words_next w2 (by omega)
  have w4 := words_next w3 (by omega)
  have w5 := words_next w4 (by omega)
  have w6 := words_next w5 (by omega)
  have w7 := words_next w6 (by omega)
  have hesp : σ.reg .esp + UInt32.ofNat 32 =
      σ.reg .esp + UInt32.ofNat 4 + UInt32.ofNat 4 + UInt32.ofNat 4 +
      UInt32.ofNat 4 + UInt32.ofNat 4 + UInt32.ofNat 4 + UInt32.ofNat 4 + UInt32.ofNat 4 := by
    apply UInt32.toNat_inj.mp
    rw [h8, toNat_add_offset (by omega)]
  simp only [popa, pop, set, reduceCtorEq, if_true, if_false, h.load rfl, w1.load rfl,
    w2.load rfl, w4.load rfl,
    w5.load rfl, w6.load rfl, w7.load rfl, Cpu.mk.injEq, and_true]
  funext r
  cases r <;> simp only [reduceCtorEq, if_true, if_false, hesp]

/-! Several registers are popped. -/

def pops (σ : Cpu) (rs : List Reg) : Cpu := rs.foldl pop σ

section Pops
variable {σ : Cpu} {rs : List Reg} {r : Reg} {vs : List UInt32}

theorem pop_esp (hr : r ≠ .esp) : (σ.pop r).reg .esp = σ.reg .esp + UInt32.ofNat 4 := by
  simp [pop, set, hr.symm]

theorem pop_other {q : Reg} (hq : q ≠ .esp) (hne : q ≠ r) : (σ.pop r).reg q = σ.reg q := by
  simp [pop, set, hq, hne]

/-- The words that have been popped into the registers, and what is left. -/
structure Popped (σ τ : Cpu) (rs : List Reg) (vs : List UInt32) : Prop where
  reg : rs.map τ.reg = vs
  other : ∀ r, r ∉ rs → r ≠ .esp → τ.reg r = σ.reg r
  esp : (τ.reg .esp).toNat = (σ.reg .esp).toNat + 4 * rs.length
  mem : τ.mem = σ.mem
  eflags : τ.eflags = σ.eflags

theorem pops_spec (hesp : .esp ∉ rs) (hnodup : rs.Nodup) (hlen : vs.length = rs.length)
    (hwords : Words σ.mem (σ.reg .esp).toNat vs)
    (hbound : (σ.reg .esp).toNat + 4 * rs.length < 2 ^ 32) :
    Popped σ (σ.pops rs) rs vs := by
  induction rs generalizing σ vs with
  | nil =>
    obtain rfl := List.length_eq_zero_iff.mp hlen
    exact ⟨rfl, fun _ _ _ => rfl, rfl, rfl, rfl⟩
  | cons r rs ih =>
    cases vs with
    | nil => simp at hlen
    | cons v vs =>
      have hne := List.ne_of_not_mem_cons hesp
      have hrest := List.not_mem_of_not_mem_cons hesp
      obtain ⟨hnot, hnodup⟩ := List.nodup_cons.mp hnodup
      simp only [List.length_cons] at hbound hlen
      have hsp := pop_esp (σ := σ) hne.symm
      have hword : (σ.reg .esp + UInt32.ofNat 4).toNat = (σ.reg .esp).toNat + 4 :=
        toNat_add_offset (by omega)
      have hmem : (σ.pop r).mem = σ.mem := rfl
      have hnext := ih (σ := σ.pop r) hrest hnodup (Nat.add_right_cancel hlen)
        (by rw [hmem, hsp, hword]; exact hwords.2)
        (by rw [hsp, hword]; omega)
      have hfirst : (σ.pop r).reg r = v := by
        have hload : load σ.mem (σ.reg .esp) = v := hwords.load rfl
        simp [pop, set, hload]
      refine ⟨?_, fun q hq hqsp => ?_, ?_, hnext.mem, hnext.eflags⟩
      · rw [List.map_cons]
        have hthis : (σ.pops (r :: rs)).reg r = v := (hnext.other r hnot hne.symm).trans hfirst
        rw [hthis]
        exact congrArg (v :: ·) hnext.reg
      · have hqr := List.ne_of_not_mem_cons hq
        have hqrs := List.not_mem_of_not_mem_cons hq
        exact (hnext.other q hqrs hqsp).trans (pop_other hqsp hqr)
      · have hend := hnext.esp
        rw [hsp, hword] at hend
        simp only [List.length_cons]
        exact hend.trans (by omega)

end Pops

end Cpu

/-! Segments and rings. -/

inductive Segment where
  | cs | ss | ds | es | fs | gs
  deriving DecidableEq, Repr

/-- The descriptors of the GDT, each as its two words. -/
abbrev DescriptorTable := List (UInt32 × UInt32)

/-- The ring of a descriptor: the bits 13 and 14 of its second word. -/
def dpl (table : DescriptorTable) (selector : UInt16) : Nat :=
  (table.getD (selector.toNat / 8) (0, 0)).2.toNat / 2 ^ 13 % 4

/-- The ring that a code selector asks for. -/
def rpl (selector : UInt16) : Nat := selector.toNat % 4

/-- The processor with its segment registers and CR2. -/
structure Core where
  cpu : Cpu
  seg : Segment → UInt16
  cr2 : UInt32

/-- An interrupt gate of the IDT. -/
structure Gate where
  offset : UInt32
  selector : UInt16

/-- An interrupt gate clears TF, IF and NT. -/
def Eflags.gated (f : Eflags) : Eflags := .ofImage (f.image &&& ~~~0x4300)

theorem Eflags.gated_interrupts (f : Eflags) : f.gated.interrupts = false := by
  have hkept : ~~~(0x4300 : UInt32) &&& (loadable &&& 0x200) = 0 := by decide
  have hfixed : (0x200 : UInt32) &&& 2 = 0 := by decide
  have himage : f.gated.image &&& 0x200 = 0 := by
    simp only [gated, ofImage]
    rw [UInt32.and_comm, and_or_distrib, hfixed, UInt32.or_zero, UInt32.and_comm, UInt32.and_assoc,
      UInt32.and_assoc, hkept, UInt32.and_zero]
  simp [interrupts, himage]

namespace Core

def cpl (σ : Core) : Nat := rpl (σ.seg .cs)

/-- What an interrupt leaves for `iretd`, from the top of the stack on. -/
def frame (σ : Core) : List UInt32 := [σ.cpu.eip, (σ.seg .cs).toUInt32, σ.cpu.eflags.image]

/-- The caller's stack, behind the frame when the interrupt came from an outer ring. -/
def outerFrame (σ : Core) : List UInt32 := σ.frame ++ [σ.cpu.reg .esp, (σ.seg .ss).toUInt32]

/-- The processor takes an interrupt through a gate to ring 0; an exception may push an error
code. -/
def interrupt (tss : UInt32) (g : Gate) (code : Option UInt32) (σ : Core) : Core :=
  if σ.cpl = 0 then
    { σ with
      cpu := { σ.cpu.pushes (code.toList ++ σ.frame).reverse with
        eflags := σ.cpu.eflags.gated, eip := g.offset },
      seg := fun r => if r = .cs then g.selector else σ.seg r }
  else
    { σ with
      cpu := { (σ.cpu.set .esp (load σ.cpu.mem (tss + 4))).pushes
        (code.toList ++ σ.outerFrame).reverse with
        eflags := σ.cpu.eflags.gated, eip := g.offset },
      seg := fun r => if r = .cs then g.selector
        else if r = .ss then (load σ.cpu.mem (tss + 8)).toUInt16 else σ.seg r }

/-- A data segment that the outer ring may not use is dropped. -/
def kept (table : DescriptorTable) (ring : Nat) (selector : UInt16) : UInt16 :=
  if selector.toNat / 8 ≠ 0 ∧ dpl table selector < ring then 0 else selector

/-- `iretd` in ring 0, of a frame with valid selectors. -/
def iretd (table : DescriptorTable) (σ : Core) : Core :=
  let esp := σ.cpu.reg .esp
  let eip := load σ.cpu.mem esp
  let cs := (load σ.cpu.mem (esp + UInt32.ofNat 4)).toUInt16
  let eflags := load σ.cpu.mem (esp + UInt32.ofNat 4 + UInt32.ofNat 4)
  let esp := esp + UInt32.ofNat 4 + UInt32.ofNat 4 + UInt32.ofNat 4
  if rpl cs = σ.cpl then
    { σ with
      cpu := { σ.cpu.set .esp esp with eflags := .ofImage eflags, eip := eip },
      seg := fun r => if r = .cs then cs else σ.seg r }
  else
    { σ with
      cpu := { σ.cpu.set .esp (load σ.cpu.mem esp) with eflags := .ofImage eflags, eip := eip },
      seg := fun r => if r = .cs then cs
        else if r = .ss then (load σ.cpu.mem (esp + UInt32.ofNat 4)).toUInt16
        else kept table (rpl cs) (σ.seg r) }

section Frames
variable {σ τ : Core} {tss : UInt32} {g : Gate} {code : Option UInt32}
    {table : DescriptorTable} {n : Nat}

theorem interrupt_reg {r : Reg} (hr : r ≠ .esp) : (σ.interrupt tss g code).cpu.reg r =
    σ.cpu.reg r := by
  unfold interrupt
  split
  · exact Cpu.pushes_reg hr
  · refine (Cpu.pushes_reg hr).trans ?_
    simp [Cpu.set, hr]

@[simp] theorem interrupt_eflags : (σ.interrupt tss g code).cpu.eflags = σ.cpu.eflags.gated := by
  unfold interrupt
  split <;> rfl

@[simp] theorem interrupt_eip : (σ.interrupt tss g code).cpu.eip = g.offset := by
  unfold interrupt
  split <;> rfl

@[simp] theorem interrupt_cr3 : (σ.interrupt tss g code).cpu.cr3 = σ.cpu.cr3 := by
  unfold interrupt
  split
  · exact Cpu.pushes_cr3
  · exact Cpu.pushes_cr3

@[simp] theorem interrupt_cs : (σ.interrupt tss g code).seg .cs = g.selector := by
  unfold interrupt
  split <;> rfl

theorem outer_length : (code.toList ++ σ.outerFrame).reverse.length = code.toList.length + 5 := by
  simp [outerFrame, frame]

section Outer
variable (houter : σ.cpl ≠ 0) (h : 4 * (code.toList.length + 5) ≤ (load σ.cpu.mem (tss + 4)).toNat)
include houter h

theorem interrupt_outer_esp : ((σ.interrupt tss g code).cpu.reg .esp).toNat =
    (load σ.cpu.mem (tss + 4)).toNat - 4 * (code.toList.length + 5) := by
  have hlen : (code.toList ++ σ.outerFrame).reverse.length = code.toList.length + 5 := outer_length
  have hesp : (σ.cpu.set .esp (load σ.cpu.mem (tss + 4))).reg .esp = load σ.cpu.mem (tss + 4) := by
    simp [Cpu.set]
  unfold interrupt
  rw [if_neg houter, ← hlen]
  refine (Cpu.pushes_esp ?_).trans ?_
  · rw [hesp, hlen]
    exact h
  · rw [hesp]

theorem interrupt_outer_words : Words (σ.interrupt tss g code).cpu.mem
    ((load σ.cpu.mem (tss + 4)).toNat - 4 * (code.toList.length + 5))
    (code.toList ++ σ.outerFrame) := by
  have hlen : (code.toList ++ σ.outerFrame).reverse.length = code.toList.length + 5 := outer_length
  have hesp : (σ.cpu.set .esp (load σ.cpu.mem (tss + 4))).reg .esp = load σ.cpu.mem (tss + 4) := by
    simp [Cpu.set]
  have hwords := Cpu.pushes_words (σ := σ.cpu.set .esp (load σ.cpu.mem (tss + 4)))
    (by rw [hesp, hlen]; exact h)
  rw [hesp, hlen, List.reverse_reverse] at hwords
  unfold interrupt
  rw [if_neg houter]
  exact hwords

theorem interrupt_outer_out
    (hn : n < (load σ.cpu.mem (tss + 4)).toNat - 4 * (code.toList.length + 5) ∨
      (load σ.cpu.mem (tss + 4)).toNat ≤ n) :
    (σ.interrupt tss g code).cpu.mem n = σ.cpu.mem n := by
  have hlen : (code.toList ++ σ.outerFrame).reverse.length = code.toList.length + 5 := outer_length
  have hesp : (σ.cpu.set .esp (load σ.cpu.mem (tss + 4))).reg .esp = load σ.cpu.mem (tss + 4) := by
    simp [Cpu.set]
  unfold interrupt
  rw [if_neg houter]
  refine (Cpu.pushes_out ?_ ?_).trans rfl
  · rw [hesp, hlen]
    exact h
  · rw [hesp, hlen]
    exact hn

end Outer

theorem iretd_outer {eip cs eflags esp ss : UInt32}
    (h : Words σ.cpu.mem (σ.cpu.reg .esp).toNat [eip, cs, eflags, esp, ss])
    (hbound : (σ.cpu.reg .esp).toNat + 20 < 2 ^ 32) (hcs : rpl cs.toUInt16 ≠ σ.cpl) :
    σ.iretd table =
      { cpu := { reg := fun r => if r = .esp then esp else σ.cpu.reg r, eflags := .ofImage eflags,
                 eip := eip, cr3 := σ.cpu.cr3, mem := σ.cpu.mem },
        seg := fun r => if r = .cs then cs.toUInt16 else if r = .ss then ss.toUInt16
          else kept table (rpl cs.toUInt16) (σ.seg r),
        cr2 := σ.cr2 } := by
  have hnext : ∀ (a : UInt32) (i : Nat), i ≤ 12 → a.toNat = (σ.cpu.reg .esp).toNat + i →
      (a + UInt32.ofNat 4).toNat = (σ.cpu.reg .esp).toNat + (i + 4) := by
    intro a i hi ha
    rw [toNat_add_offset (by omega), ha, Nat.add_assoc]
  have h1 := hnext (σ.cpu.reg .esp) 0 (by omega) rfl
  have h2 := hnext _ _ (by omega) h1
  have h3 := hnext _ _ (by omega) h2
  have w1 := Cpu.words_next h (by omega)
  have w2 := Cpu.words_next w1 (by omega)
  have w3 := Cpu.words_next w2 (by omega)
  have w4 := Cpu.words_next w3 (by omega)
  simp only [iretd, h.load rfl, w1.load rfl, w2.load rfl, w3.load rfl, w4.load rfl,
    if_neg hcs, Cpu.set]

end Frames

end Core

end OsdevCourse.I686
