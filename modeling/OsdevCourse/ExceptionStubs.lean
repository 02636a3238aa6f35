import OsdevCourse.TrapStubs

/-!
# What the exception handlers in C are given

A stub pushes the registers and then the arguments of its handler. `INT_0D` is declared with the
error code before the address of the instruction, and its stub pushes them in that order: the
handler finds them the other way round.
-/

namespace OsdevCourse.Traps

set_option autoImplicit false

open I686

/-- The exceptions for which the processor pushes an error code. -/
def withCode : List UInt32 := [0x08, 0x0A, 0x0B, 0x0C, 0x0D, 0x0E, 0x11]

/-- The addresses of a handler and of what follows its call. -/
structure Handler where
  entry : UInt32
  back : UInt32

/-- `_INT_00` to `_INT_08`, `_INT_10`, `_INT_12` and `_INT_13` up to the call of the handler. -/
def plainCall (h : Handler) (c : Core) : Cpu :=
  let σ := c.cpu.pusha
  σ.call h.entry h.back

/-- `_INT_0A`, `_INT_0B`, `_INT_0C` and `_INT_11`. -/
def codeCall (h : Handler) (c : Core) : Cpu :=
  let σ := c.cpu.pusha
  let σ := σ.push (load σ.mem (σ.reg .esp + UInt32.ofNat 32))
  σ.call h.entry h.back

def int0DCall (h : Handler) (c : Core) : Cpu :=
  let σ := c.cpu.pusha
  let σ := σ.push (load σ.mem (σ.reg .esp + UInt32.ofNat 32))
  let σ := σ.push (load σ.mem (σ.reg .esp + UInt32.ofNat 40))
  σ.call h.entry h.back

/-- The stub of an exception other than a page fault. -/
def exceptionCall (num : UInt32) (h : Handler) (c : Core) : Cpu :=
  if num = 0x0D then int0DCall h c
  else if num ∈ [0x0A, 0x0B, 0x0C, 0x11] then codeCall h c
  else plainCall h c

/-- What the handler finds as its arguments. -/
def exceptionArgs (num code eip : UInt32) : List UInt32 :=
  if num = 0x0D then [eip, code]
  else if num ∈ [0x0A, 0x0B, 0x0C, 0x11] then [code]
  else []

section Exceptions
variable {c : Core} {tss : UInt32} {g : Gate} {code : Option UInt32} {h : Handler} {num : UInt32}

/-- The stack on which an interrupt begins has room for it and for its stub. -/
def StackRoom (tss : UInt32) (c : Core) : Prop :=
  if c.cpl = 0 then 72 ≤ (c.cpu.reg .esp).toNat else 72 ≤ (load c.cpu.mem (tss + 4)).toNat

theorem interrupt_top (code : Option UInt32) (hroom : StackRoom tss c) :
    ∃ ws, Words (c.interrupt tss g code).cpu.mem ((c.interrupt tss g code).cpu.reg .esp).toNat
      (code.toList ++ c.cpu.eip :: ws) ∧
    48 ≤ ((c.interrupt tss g code).cpu.reg .esp).toNat ∧
    ((c.interrupt tss g code).cpu.reg .esp).toNat + 12 < 2 ^ 32 := by
  have hcode : code.toList.length ≤ 1 := by
    cases code <;> simp
  unfold StackRoom at hroom
  by_cases hring : c.cpl = 0
  · rw [if_pos hring] at hroom
    have hlen : (code.toList ++ c.frame).reverse.length = code.toList.length + 3 := by
      simp [Core.frame]
    have hlt := (c.cpu.reg .esp).toNat_lt
    have hfit : 4 * (code.toList ++ c.frame).reverse.length ≤ (c.cpu.reg .esp).toNat := by omega
    have hesp := Cpu.pushes_esp hfit
    have hwords := Cpu.pushes_words hfit
    rw [List.reverse_reverse, ← hesp] at hwords
    unfold Core.interrupt
    rw [if_pos hring]
    refine ⟨_, hwords, ?_, ?_⟩
    · simp only [hesp]
      omega
    · simp only [hesp]
      omega
  · rw [if_neg hring] at hroom
    have hlt := (load c.cpu.mem (tss + 4)).toNat_lt
    have hfit : 4 * (code.toList.length + 5) ≤ (load c.cpu.mem (tss + 4)).toNat := by omega
    have hesp := Core.interrupt_outer_esp (g := g) hring hfit
    have hwords := Core.interrupt_outer_words (g := g) hring hfit
    rw [← hesp] at hwords
    exact ⟨_, hwords, by omega, by omega⟩

theorem plainCall_words (hroom : 36 ≤ (c.cpu.reg .esp).toNat) :
    Words (plainCall h c).mem ((plainCall h c).reg .esp).toNat [h.back] := by
  have hnone : Words c.cpu.mem (c.cpu.reg .esp).toNat [] := trivial
  have hcall := ((Pushed.start hnone).pusha (by omega)).call (x := h.entry) (v := h.back) (by omega)
  exact (words_append.mp (hcall.words : Words _ _ ([h.back] ++ _))).1

theorem codeCall_words {w : UInt32} {ws : List UInt32} (hroom : 40 ≤ (c.cpu.reg .esp).toNat)
    (hwords : Words c.cpu.mem (c.cpu.reg .esp).toNat (w :: ws)) :
    Words (codeCall h c).mem ((codeCall h c).reg .esp).toNat [h.back, w] := by
  have hlt := (c.cpu.reg .esp).toNat_lt
  have hpusha := (Pushed.start hwords).pusha (by omega)
  have hesp := hpusha.esp
  have hload : load c.cpu.pusha.mem (c.cpu.pusha.reg .esp + UInt32.ofNat 32) = w :=
    hpusha.load_at (j := 8) rfl (by omega)
  have hcall := (hpusha.push (v := w) (by omega)).call (x := h.entry) (v := h.back) (by omega)
  have heq : codeCall h c = (c.cpu.pusha.push w).call h.entry h.back := by
    simp only [codeCall, hload]
  rw [heq]
  exact (words_append.mp (hcall.words : Words _ _ ([h.back, w] ++ _))).1

theorem int0DCall_words {code eip : UInt32} {ws : List UInt32} (hroom : 44 ≤ (c.cpu.reg .esp).toNat)
    (hbound : (c.cpu.reg .esp).toNat + 12 < 2 ^ 32)
    (hwords : Words c.cpu.mem (c.cpu.reg .esp).toNat (code :: eip :: ws)) :
    Words (int0DCall h c).mem ((int0DCall h c).reg .esp).toNat [h.back, eip, code] := by
  have hpusha := (Pushed.start hwords).pusha (by omega)
  have hesp := hpusha.esp
  have hfirst : load c.cpu.pusha.mem (c.cpu.pusha.reg .esp + UInt32.ofNat 32) = code :=
    hpusha.load_at (j := 8) rfl (by omega)
  have hpush := hpusha.push (v := code) (by omega)
  have hesp₂ := hpush.esp
  have hsecond : load (c.cpu.pusha.push code).mem
      ((c.cpu.pusha.push code).reg .esp + UInt32.ofNat 40) = eip :=
    hpush.load_at (j := 10) rfl (by omega)
  have hcall := (hpush.push (v := eip) (by omega)).call (x := h.entry) (v := h.back) (by omega)
  have heq : int0DCall h c = ((c.cpu.pusha.push code).push eip).call h.entry h.back := by
    simp only [int0DCall, hfirst, hsecond]
  rw [heq]
  exact (words_append.mp (hcall.words : Words _ _ ([h.back, eip, code] ++ _))).1

end Exceptions

/-- From any ring a handler is called with the arguments of its declaration, `INT_0D` with its two
swapped. -/
theorem exception_handler_arguments {c : Core} {tss num code : UInt32} {g : Gate} {h : Handler}
    (hroom : StackRoom tss c) :
    let τ := exceptionCall num h (c.interrupt tss g (if num ∈ withCode then some code else none))
    τ.eip = h.entry ∧ Words τ.mem (τ.reg .esp).toNat
      (h.back :: exceptionArgs num code c.cpu.eip) := by
  dsimp only
  generalize hcode : (if num ∈ withCode then some code else none : Option UInt32) = pushed
  obtain ⟨ws, hwords, hlow, hhigh⟩ := interrupt_top (g := g) pushed hroom
  generalize c.interrupt tss g pushed = τ at hwords hlow hhigh
  unfold exceptionCall exceptionArgs
  by_cases hgp : num = 0x0D
  · have hpushed : pushed = some code := by
      rw [← hcode, hgp]
      exact if_pos (by decide)
    rw [hpushed] at hwords
    rw [if_pos hgp, if_pos hgp]
    exact ⟨rfl, int0DCall_words (by omega) hhigh hwords⟩
  · rw [if_neg hgp, if_neg hgp]
    by_cases hcoded : num ∈ [(0x0A : UInt32), 0x0B, 0x0C, 0x11]
    · have hsub : ∀ n ∈ [(0x0A : UInt32), 0x0B, 0x0C, 0x11], n ∈ withCode := by simp [withCode]
      have hpushed : pushed = some code := by
        rw [← hcode]
        exact if_pos (hsub num hcoded)
      rw [hpushed] at hwords
      rw [if_pos hcoded, if_pos hcoded]
      exact ⟨rfl, codeCall_words (by omega) hwords⟩
    · rw [if_neg hcoded, if_neg hcoded]
      exact ⟨rfl, plainCall_words (by omega)⟩

/-- A general protection fault of the kernel at `0xF0101234`: its handler prints the address as the
code. -/
theorem exception_handler_arguments_gp : ∃ c : Core, c.cpu.eip = 0xF0101234 ∧
    Words (exceptionCall 0x0D ⟨0x5000, 0x4020⟩ (c.interrupt 0x2000 ⟨0x4000, 8⟩ (some 0x80))).mem
      ((exceptionCall 0x0D ⟨0x5000, 0x4020⟩ (c.interrupt 0x2000 ⟨0x4000, 8⟩ (some 0x80))).reg
        .esp).toNat
      [0x4020, 0xF0101234, 0x80] := by
  have hroom : StackRoom 0x2000
      ⟨⟨fun _ => 0x8000, .ofImage 2, 0xF0101234, 0, fun _ => 0⟩, fun _ => 8, 0⟩ := by
    unfold StackRoom
    decide
  exact ⟨_, rfl, (exception_handler_arguments  (g := ⟨0x4000, 8⟩) (h := ⟨0x5000, 0x4020⟩)
    hroom).2⟩

end OsdevCourse.Traps
