import OsdevCourse.VirtualCpu
import Mathlib.Data.List.Nodup

/-!
# The system calls of libgloss

A wrapper saves the registers that it needs, loads them with its arguments, and restores them
after `int 0x80`. Between the two the program has lost the processor, and other threads may
have run.
-/

namespace OsdevCourse.Libgloss

set_option autoImplicit false

open I686 ContextSwitch Traps

/-- The registers for the first arguments of a system call. -/
def argRegs : List Reg := [.ebx, .ecx, .edx]

def pushRegs (σ : Cpu) (rs : List Reg) : Cpu := rs.foldl (fun σ r => σ.push (σ.reg r)) σ

/-- `mov r, [esp+offset]` for each register, from one argument to the next. -/
def movArgs (σ : Cpu) : Nat → List Reg → Cpu
  | _, [] => σ
  | offset, r :: rs => movArgs (σ.movLoad r (σ.reg .esp + UInt32.ofNat offset)) (offset + 4) rs

/-- A wrapper of `k` arguments up to its `int 0x80`. -/
def wrapperCall (k : Nat) (number : UInt32) (σ : Cpu) : Cpu :=
  let rs := argRegs.take k
  let σ := pushRegs σ rs
  let σ := movArgs σ (4 * rs.length + 4) rs
  σ.set .eax number

/-- A wrapper from its `int 0x80` on. -/
def wrapperReturn (k : Nat) (σ : Cpu) : Cpu :=
  let σ := σ.pops (argRegs.take k).reverse
  σ.ret

def openCall : Cpu → Cpu := wrapperCall 3 2
def closeCall : Cpu → Cpu := wrapperCall 1 3
def readCall : Cpu → Cpu := wrapperCall 3 4
def writeCall : Cpu → Cpu := wrapperCall 3 5
def lseekCall : Cpu → Cpu := wrapperCall 3 6
def unlinkCall : Cpu → Cpu := wrapperCall 1 7
def getpidCall : Cpu → Cpu := wrapperCall 0 8
def killCall : Cpu → Cpu := wrapperCall 2 9
def fstatCall : Cpu → Cpu := wrapperCall 2 10
def sbrkCall : Cpu → Cpu := wrapperCall 1 11
def usleepCall : Cpu → Cpu := wrapperCall 1 12

/-- `_exit` loads `eax` first. -/
def exitCall (σ : Cpu) : Cpu :=
  let σ := σ.push (σ.reg .ebx)
  let σ := σ.set .eax 1
  σ.movLoad .ebx (σ.reg .esp + UInt32.ofNat 8)

section Registers
variable {σ τ : Cpu} {rs : List Reg} {r : Reg} {vs : List UInt32} {o : Nat}

theorem pushRegs_eq (hesp : .esp ∉ rs) : pushRegs σ rs = σ.pushes (rs.map σ.reg) := by
  induction rs generalizing σ with
  | nil => rfl
  | cons r rs ih =>
    have hrest : .esp ∉ rs := fun h => hesp (List.mem_cons_of_mem r h)
    have hkept : ∀ q ∈ rs, (σ.push (σ.reg r)).reg q = σ.reg q := by
      intro q hq
      apply Cpu.push_reg
      rintro rfl
      exact hrest hq
    have hnext : pushRegs (σ.push (σ.reg r)) rs = (σ.push (σ.reg r)).pushes (rs.map σ.reg) := by
      rw [ih hrest, List.map_congr_left hkept]
    exact hnext

theorem movArgs_mem : (movArgs σ o rs).mem = σ.mem := by
  induction rs generalizing σ o with
  | nil => rfl
  | cons r rs ih => exact ih

theorem movArgs_eflags : (movArgs σ o rs).eflags = σ.eflags := by
  induction rs generalizing σ o with
  | nil => rfl
  | cons r rs ih => exact ih

theorem movArgs_other (hr : r ∉ rs) : (movArgs σ o rs).reg r = σ.reg r := by
  induction rs generalizing σ o with
  | nil => rfl
  | cons q rs ih =>
    have hne := List.ne_of_not_mem_cons hr
    have hrest := List.not_mem_of_not_mem_cons hr
    have hnext := ih (σ := σ.movLoad q (σ.reg .esp + UInt32.ofNat o)) (o := o + 4) hrest
    refine hnext.trans ?_
    simp [Cpu.movLoad, Cpu.set, hne]

theorem movArgs_words (hesp : .esp ∉ rs) (hnodup : rs.Nodup) (hlen : vs.length = rs.length)
    (hwords : Words σ.mem ((σ.reg .esp).toNat + o) vs)
    (hbound : (σ.reg .esp).toNat + o + 4 * vs.length < 2 ^ 32) :
    rs.map (movArgs σ o rs).reg = vs := by
  induction rs generalizing σ o vs with
  | nil => exact (List.length_eq_zero_iff.mp hlen).symm
  | cons r rs ih =>
    cases vs with
    | nil => simp at hlen
    | cons v vs =>
      have hne := List.ne_of_not_mem_cons hesp
      have hrest := List.not_mem_of_not_mem_cons hesp
      obtain ⟨hnot, hnodup⟩ := List.nodup_cons.mp hnodup
      simp only [List.length_cons] at hbound hlen
      have hat : (σ.reg .esp + UInt32.ofNat o).toNat = (σ.reg .esp).toNat + o :=
        toNat_add_offset (by omega)
      have hfirst : load σ.mem (σ.reg .esp + UInt32.ofNat o) = v := hwords.load hat
      have hsp : (σ.movLoad r (σ.reg .esp + UInt32.ofNat o)).reg .esp = σ.reg .esp := by
        simp [Cpu.movLoad, Cpu.set, hne]
      have hnext := ih (σ := σ.movLoad r (σ.reg .esp + UInt32.ofNat o)) (o := o + 4) hrest hnodup
        (Nat.add_right_cancel hlen) (by rw [hsp]; exact hwords.2) (by rw [hsp]; omega)
      have hthis : (movArgs σ o (r :: rs)).reg r = v := by
        refine (movArgs_other hnot).trans ?_
        simp [Cpu.movLoad, Cpu.set, hfirst]
      rw [List.map_cons, hthis]
      exact congrArg (v :: ·) hnext

end Registers

/-! A wrapper as a whole. -/

section Wrapper
variable {σ τ : Cpu} {k : Nat} {number back : UInt32} {args ws : List UInt32}

/-- The caller has put the return address and the arguments on its stack. -/
structure Calls (σ : Cpu) (k : Nat) (back : UInt32) (args : List UInt32) : Prop where
  three : k ≤ 3
  length : args.length = k
  words : Words σ.mem (σ.reg .esp).toNat (back :: args)
  room : 12 ≤ (σ.reg .esp).toNat
  bound : (σ.reg .esp).toNat + 16 < 2 ^ 32

/-- The registers of the caller at the `int 0x80`, and what the wrapper has saved. -/
structure AtInt (σ τ : Cpu) (k : Nat) (number back : UInt32) (args : List UInt32) : Prop where
  eax : τ.reg .eax = number
  reg : (argRegs.take k).map τ.reg = args
  other : ∀ r, r ∉ argRegs.take k → r ≠ .esp → r ≠ .eax → τ.reg r = σ.reg r
  esp : (τ.reg .esp).toNat = (σ.reg .esp).toNat - 4 * k
  words : Words τ.mem (τ.reg .esp).toNat (((argRegs.take k).map σ.reg).reverse ++ [back])
  out : ∀ n, n < (σ.reg .esp).toNat - 4 * k ∨ (σ.reg .esp).toNat ≤ n → τ.mem n = σ.mem n
  eflags : τ.eflags = σ.eflags

theorem argRegs_take (hk : k ≤ 3) : (argRegs.take k).length = k ∧ .esp ∉ argRegs.take k ∧
    .eax ∉ argRegs.take k ∧ (argRegs.take k).Nodup := by
  have hesp : Reg.esp ∉ argRegs := by decide
  have heax : Reg.eax ∉ argRegs := by decide
  have hnodup : argRegs.Nodup := by decide
  refine ⟨?_, fun h => hesp (List.mem_of_mem_take h), fun h => heax (List.mem_of_mem_take h),
    hnodup.sublist (List.take_sublist k argRegs)⟩
  rw [List.length_take]
  exact Nat.min_eq_left hk

theorem wrapperCall_spec (h : Calls σ k back args) :
    AtInt σ (wrapperCall k number σ) k number back args := by
  obtain ⟨hlen, hesp, heax, hnodup⟩ := argRegs_take h.three
  have hargs := h.length
  have hroom := h.room
  have hbound := h.bound
  have hthree := h.three
  have hpush := pushRegs_eq (σ := σ) hesp
  have hcount : ((argRegs.take k).map σ.reg).length = k := by
    rw [List.length_map, hlen]
  have hsp : ((pushRegs σ (argRegs.take k)).reg .esp).toNat = (σ.reg .esp).toNat - 4 * k := by
    rw [hpush, Cpu.pushes_esp (by omega), hcount]
  have hmem : ∀ n, n < (σ.reg .esp).toNat - 4 * k ∨ (σ.reg .esp).toNat ≤ n →
      (pushRegs σ (argRegs.take k)).mem n = σ.mem n := by
    intro n hn
    rw [hpush]
    apply Cpu.pushes_out
    · omega
    · rw [hcount]
      exact hn
  have hkept : Words (pushRegs σ (argRegs.take k)).mem (σ.reg .esp).toNat (back :: args) :=
    h.words.congr fun n hlo _ => hmem n (Or.inr hlo)
  have hsaved : Words (pushRegs σ (argRegs.take k)).mem ((σ.reg .esp).toNat - 4 * k)
      ((argRegs.take k).map σ.reg).reverse := by
    have hwords : Words (σ.pushes ((argRegs.take k).map σ.reg)).mem
        ((σ.reg .esp).toNat - 4 * ((argRegs.take k).map σ.reg).length)
            ((argRegs.take k).map σ.reg).reverse :=
      Cpu.pushes_words (by omega)
    rw [hcount] at hwords
    rw [hpush]
    exact hwords
  generalize hτ : pushRegs σ (argRegs.take k) = τ at hsp hmem hkept hsaved hpush
  have hreg : ∀ r, r ≠ .esp → τ.reg r = σ.reg r := by
    intro r hr
    rw [hpush]
    exact Cpu.pushes_reg hr
  have hmov : (argRegs.take k).map (movArgs τ (4 * k + 4) (argRegs.take k)).reg = args := by
    refine movArgs_words hesp hnodup (by omega) ?_ (by omega)
    rw [hsp, show (σ.reg .esp).toNat - 4 * k + (4 * k + 4) = (σ.reg .esp).toNat + 4 by omega]
    exact hkept.2
  have hcall : wrapperCall k number σ = (movArgs τ (4 * k + 4) (argRegs.take k)).set
      .eax number := by
    simp only [wrapperCall, hτ, hlen]
  have hset : ∀ r, r ≠ .eax → (wrapperCall k number σ).reg r =
      (movArgs τ (4 * k + 4) (argRegs.take k)).reg r := by
    intro r hr
    rw [hcall]
    simp [Cpu.set, hr]
  have hend : (wrapperCall k number σ).reg .esp = τ.reg .esp := by
    rw [hset _ (by simp)]
    exact movArgs_other hesp
  have hsame : (wrapperCall k number σ).mem = τ.mem := by
    rw [hcall]
    exact movArgs_mem
  refine ⟨?_, ?_, fun r hr hsp' heax' => ?_, ?_, ?_, fun n hn => ?_, ?_⟩
  · rw [hcall]
    simp [Cpu.set]
  · rw [← hmov]
    apply List.map_congr_left
    intro r hr
    apply hset
    rintro rfl
    exact heax hr
  · rw [hset r heax', movArgs_other hr, hreg r hsp']
  · rw [hend, hsp]
  · rw [hsame, hend, hsp, words_append]
    refine ⟨hsaved, ?_, trivial⟩
    rw [List.length_reverse, hcount, show (σ.reg .esp).toNat - 4 * k + 4 * k =
      (σ.reg .esp).toNat by omega]
    exact hkept.1
  · rw [hsame]
    exact hmem n hn
  · rw [hcall]
    refine movArgs_eflags.trans ?_
    rw [hpush]
    exact Cpu.pushes_eflags

theorem exitCall_eq : exitCall σ = wrapperCall 1 1 σ := by
  unfold exitCall wrapperCall
  simp only [argRegs, List.take_succ_cons, List.take_zero, pushRegs, List.foldl_cons,
    List.foldl_nil, movArgs,
    List.length_cons, List.length_nil, Cpu.movLoad, Cpu.set, Cpu.mk.injEq, and_true]
  funext r
  cases r <;> simp [Cpu.push, Cpu.set, Cpu.movStore]

/-- What the caller finds when the wrapper has returned. -/
structure Returned (σ τ ρ : Cpu) (back : UInt32) : Prop where
  eax : ρ.reg .eax = τ.reg .eax
  reg : ∀ r, r ≠ .eax → r ≠ .esp → ρ.reg r = σ.reg r
  esp : ρ.reg .esp = σ.reg .esp + UInt32.ofNat 4
  eip : ρ.eip = back
  eflags : ρ.eflags = τ.eflags
  mem : ρ.mem = τ.mem

theorem wrapperReturn_spec {τ' : Cpu} (h : Calls σ k back args) (hat : AtInt σ τ k number back args)
    (hreg : ∀ r, r ≠ .eax → τ'.reg r = τ.reg r)
    (hkept : ∀ n, (σ.reg .esp).toNat - 4 * k ≤ n → n < (σ.reg .esp).toNat + 4 →
    τ'.mem n = τ.mem n) :
    Returned σ τ' (wrapperReturn k τ') back := by
  obtain ⟨hlen, hesp, heax, hnodup⟩ := argRegs_take h.three
  have hroom := h.room
  have hbound := h.bound
  have hthree := h.three
  have hsp : (τ'.reg .esp).toNat = (σ.reg .esp).toNat - 4 * k := by
    rw [hreg .esp (by simp)]
    exact hat.esp
  have hcount : ((argRegs.take k).map σ.reg).reverse.length = (argRegs.take k).reverse.length := by
    simp only [List.length_reverse, List.length_map]
  have hrlen : (argRegs.take k).reverse.length = k := by
    rw [List.length_reverse, hlen]
  have hwords : Words τ'.mem (τ'.reg .esp).toNat
      (((argRegs.take k).map σ.reg).reverse ++ [back]) := by
    have hold := hat.words
    rw [hat.esp] at hold
    rw [hsp]
    apply hold.congr
    intro n hlo hhi
    apply hkept n hlo
    simp only [List.length_append, hcount, hrlen, List.length_cons, List.length_nil] at hhi
    omega
  obtain ⟨hsaved, hback⟩ := words_append.mp hwords
  have hpopped := Cpu.pops_spec (fun hmem => hesp (List.mem_reverse.mp hmem))
    (List.nodup_reverse.mpr hnodup) hcount
    hsaved (by omega)
  generalize hρ : τ'.pops (argRegs.take k).reverse = ρ at hpopped
  have hend := hpopped.esp
  have htop : ρ.reg .esp = σ.reg .esp := by
    apply UInt32.toNat_inj.mp
    omega
  have hsame : ∀ r, r ≠ .eax → r ≠ .esp → ρ.reg r = σ.reg r := by
    intro r hr hrsp
    by_cases hin : r ∈ argRegs.take k
    · have hmap : (argRegs.take k).reverse.map ρ.reg = (argRegs.take k).reverse.map σ.reg := by
        rw [hpopped.reg, List.map_reverse]
      exact List.map_inj_left.mp hmap r (List.mem_reverse.mpr hin)
    · rw [hpopped.other r (fun hmem => hin (List.mem_reverse.mp hmem)) hrsp, hreg r hr]
      exact hat.other r hin hrsp hr
  have hret : wrapperReturn k τ' = ρ.ret := congrArg Cpu.ret hρ
  rw [hret]
  refine ⟨?_, fun r hr hrsp => ?_, ?_, ?_, hpopped.eflags, hpopped.mem⟩
  · have hkeep : ρ.reg .eax = τ'.reg .eax :=
      hpopped.other .eax (fun hmem => heax (List.mem_reverse.mp hmem)) (by simp)
    rw [← hkeep]
    simp [Cpu.ret, Cpu.set]
  · rw [← hsame r hr hrsp]
    simp [Cpu.ret, Cpu.set, hrsp]
  · rw [← htop]
    simp [Cpu.ret, Cpu.set]
  · have hload : load ρ.mem (ρ.reg .esp) = back := by
      rw [hpopped.mem]
      apply hback.load
      rw [hend, hcount]
    exact hload

end Wrapper

/-! From the call of a wrapper to its return. -/

section Run
variable {i : Image} {boot t : UInt32} {s s' : Os} {a : Act} {as : List Act} {u : User} {k : Nat}

/-- A thread stays in its system call until it leaves it with the result. -/
theorem syscall_quiet (h : s.mode t = .trapped .syscall u) (hquiet : Quiet i t s a)
    (hstep : Traps.Step i boot s a s') :
    s'.mode t = .trapped .syscall u := by
  cases hstep with
  | instruction => exact h
  | refuse => exact h
  | trap hmode =>
    have hne : t ≠ s.current i := by
      rintro rfl
      rw [h] at hmode
      cases hmode
    exact (setMode_other hne).trans h
  | @kernel action sys hmode hstep hcode =>
    cases action with
    | exec cpu => exact h
    | create tcb kstack args => exact h
    | yield returned => exact h
    | reap tcb =>
      have hne : t ≠ tcb := fun heq => hquiet (congrArg some heq.symm)
      exact (if_neg hne).trans h
  | leave hmode =>
    have hne : t ≠ s.current i := by
      rintro rfl
      apply hquiet
      simp only [event, h, Event.thread]
    exact (setMode_other hne).trans h
  | start hmode =>
    have hne : t ≠ s.current i := by
      rintro rfl
      rw [h] at hmode
      cases hmode
    exact (setMode_other hne).trans h

theorem syscall_quiet_run (h : s.mode t = .trapped .syscall u)
    (hrun : Run (Guarded (Traps.Step i boot) (Quiet i t)) s as s') :
    s'.mode t = .trapped .syscall u :=
  hrun.invariant (fun s => s.mode t = .trapped .syscall u)
    (fun _ _ _ h hstep => syscall_quiet h hstep.1 hstep.2) h

theorem arguments_split (r : Reg → UInt32) :
    arguments r = (argRegs.take k).map r ++ ((argRegs.drop k).map r ++ [r .esi, r .edi]) := by
  rw [← List.append_assoc, ← List.map_append, List.take_append_drop]
  rfl

end Run

theorem libgloss_call_returns {i : Image} {boot : UInt32} {s₀ s s₁ s₂ s₃ s₄ : Os}
    {as bs : List Act} {k : Nat}
    {number back : UInt32} {args : List UInt32} (hboot : Traps.Booted i boot s₀)
    (hrun : Run (Traps.Step i boot) s₀ as s) (hcalls : Calls s.sys.cpu k back args)
    (h₁ : Traps.Step i boot s (.instruction (wrapperCall k number s.sys.cpu)) s₁)
    (h₂ : Traps.Step i boot s₁ (.trap .syscall) s₂)
    (h₃ : Run (Guarded (Traps.Step i boot) (Quiet i (s.current i))) s₂ bs s₃)
    (hcurrent : s₃.current i = s.current i) (h₄ : Traps.Step i boot s₃ .leave s₄)
    (hkept : ∀ n, (s.sys.cpu.reg .esp).toNat - 4 * k ≤ n → n < (s.sys.cpu.reg .esp).toNat + 4 →
      s₄.sys.cpu.mem n = s₁.sys.cpu.mem n) :
    (s₂.sys.cpu.eip = load s₁.sys.cpu.mem (i.syscallTable + number * 4) ∧
      Words s₂.sys.cpu.mem (s₂.sys.cpu.reg .esp).toNat (i.syscallBack :: args)) ∧
    (wrapperReturn k s₄.sys.cpu).reg .eax = s₃.sys.cpu.reg .eax ∧
    (∀ r, r ≠ .eax → r ≠ .esp → (wrapperReturn k s₄.sys.cpu).reg r = s.sys.cpu.reg r) ∧
    (wrapperReturn k s₄.sys.cpu).reg .esp = s.sys.cpu.reg .esp + UInt32.ofNat 4 ∧
    (wrapperReturn k s₄.sys.cpu).eip = back ∧
    (wrapperReturn k s₄.sys.cpu).eflags = s.sys.cpu.eflags := by
  have hinv := Inv.of_run hboot hrun
  have hinv₁ := (hinv.step h₁).1
  have hinv₂ := (hinv₁.step h₂).1
  have hat : AtInt s.sys.cpu s₁.sys.cpu k number back args := by
    cases h₁ with
    | instruction _ _ => exact wrapperCall_spec hcalls
  have hcurrent₁ : s₁.current i = s.current i := by
    cases h₁ with
    | instruction hmode hcpu =>
      have hown : Own i s.sys (wrapperCall k number s.sys.cpu) := by
        intro n hne
        by_contra hplace
        exact hne (hcpu.mem n fun hother => hplace (Or.inl hother))
      exact (hown.kept hinv).1
  obtain ⟨u, hu, hmode₂, hcall⟩ : ∃ u, u = userOf s₁.core ∧
    s₂.mode (s.current i) = .trapped .syscall u ∧
      s₂.sys.cpu.eip = load s₁.sys.cpu.mem (i.syscallTable + number * 4) ∧
      Words s₂.sys.cpu.mem (s₂.sys.cpu.reg .esp).toNat (i.syscallBack :: args) := by
    cases h₂ with
    | trap hmode hserved =>
      obtain ⟨sp, hentered⟩ := hinv₁.entered hmode hserved
      refine ⟨_, rfl, ?_, ?_, ?_⟩
      · rw [← hcurrent₁]
        exact setMode_self
      · refine hentered.eip.trans ?_
        rw [← hat.eax]
        rfl
      · have hall := hentered.words
        have hargs : Trap.syscall.given (userOf s₁.core) =
            args ++ ((argRegs.drop k).map s₁.sys.cpu.reg ++
                [s₁.sys.cpu.reg .esi, s₁.sys.cpu.reg .edi]) := by
          rw [← hat.reg]
          exact arguments_split _
        rw [hargs, List.append_assoc, ← List.cons_append] at hall
        exact (words_append.mp hall).1
  have hmode₃ := syscall_quiet_run hmode₂ h₃
  have hinv₃ : Inv i boot s₃ :=
    h₃.of_guarded.invariant _ (fun _ _ _ h hstep => (h.step hstep).1) hinv₂
  have hleft : s₄.sys.cpu.reg = (Trap.withResult u (s₃.sys.cpu.reg .eax)).reg ∧
      s₄.sys.cpu.eflags = u.eflags := by
    cases h₄ with
    | @leave trap u' hmode hreturned =>
      rw [hcurrent, hmode₃] at hmode
      cases hmode
      have heq := hinv₃.left (u := u)
        (by rw [hcurrent]; exact hmode₃ : s₃.mode (s₃.current i) = .trapped .syscall u) hreturned
      have hcpu :
        (((s₃.withCore (Trap.syscall.leave i s₃.core)).setMode (s₃.current i) .user).sys.cpu) =
          (restore (Trap.withResult u (s₃.sys.cpu.reg .eax)) s₃.core).cpu := congrArg Core.cpu heq
      rw [hcpu]
      exact ⟨rfl, rfl⟩
  have hreg : ∀ r, r ≠ .eax → s₄.sys.cpu.reg r = s₁.sys.cpu.reg r := by
    intro r hr
    rw [hleft.1, hu]
    exact if_neg hr
  have hreturned := wrapperReturn_spec hcalls hat hreg hkept
  refine ⟨hcall, ?_, hreturned.reg, hreturned.esp, hreturned.eip, ?_⟩
  · rw [hreturned.eax, hleft.1]
    simp [Trap.withResult]
  · rw [hreturned.eflags, hleft.2, hu]
    exact hat.eflags

/-- A program that asks for its process id, and a handler that returns 7. -/
theorem libgloss_call_returns_getpid : ∃ (s₀ s s₄ : Os) (as : List Act),
    Run (Traps.Step smallImage 0x5000) s₀ as s ∧ s.current smallImage = 0x8000 ∧
    (wrapperReturn 0 s₄.sys.cpu).reg .eax = 7 ∧
    (wrapperReturn 0 s₄.sys.cpu).reg .esp = s.sys.cpu.reg .esp + UInt32.ofNat 4 := by
  obtain ⟨as, s, hrun, hcurrent, hmode, htop, r, hprogram⟩ := smallBoot_runs
  have hinv := Inv.of_run smallBoot_booted hrun
  have huser : userOf s.core = Trap.started r 0x40000000 0xB0000000 := by
    rw [program_user hmode] at hprogram
    exact Option.some.inj hprogram
  have hesp : s.sys.cpu.reg .esp = 0xB0000000 := congrArg (fun u => u.reg .esp) huser
  have hstack : (s.sys.cpu.reg .esp).toNat = 0xB0000000 := by
    rw [hesp]
    rfl
  rw [← hcurrent] at hmode htop
  have hcalls : Calls s.sys.cpu 0 (load s.sys.cpu.mem (s.sys.cpu.reg .esp)) [] := by
    refine ⟨by omega, rfl, ⟨?_, trivial⟩, by omega, by omega⟩
    have hlt := Memory.read32_lt (m := s.sys.cpu.mem) (a := (s.sys.cpu.reg .esp).toNat)
    unfold load
    rw [UInt32.toNat_ofNat', Nat.mod_eq_of_lt hlt]
  have h₁ : Traps.Step smallImage 0x5000 s (.instruction (wrapperCall 0 8 s.sys.cpu)) _ :=
    .instruction hmode ⟨fun _ _ => rfl, rfl⟩
  have hinv₁ := (hinv.step h₁).1
  have hserved : Trap.Served smallImage { s.core with cpu := wrapperCall 0 8 s.sys.cpu }
      (top s.sys (s.current smallImage)) := by
    have heax : (wrapperCall 0 8 s.sys.cpu).reg .eax = 8 := rfl
    rw [htop]
    refine ⟨?_, ?_⟩
    · rw [Trap.syscallFaults_eq]
      simp only [heax]
      decide
    · simp only [heax]
      decide
  have hown₁ : Own smallImage s.sys (wrapperCall 0 8 s.sys.cpu) := fun n hne => absurd rfl hne
  obtain ⟨hcurrent₁, htop₁⟩ := hown₁.kept hinv
  generalize hs₁ : s.withCore { s.core with cpu := wrapperCall 0 8 s.sys.cpu } = s₁ at h₁ hinv₁
  have hthread₁ : s₁.current smallImage = s.current smallImage := by
    rw [← hs₁]
    exact hcurrent₁
  have hmode₁ : s₁.mode (s₁.current smallImage) = .user := by
    rw [hthread₁, ← hs₁]
    exact hmode
  have hserved₁ : Trap.Served smallImage s₁.core (top s₁.sys (s₁.current smallImage)) := by
    have hsame : top s₁.sys (s₁.current smallImage) = top s.sys (s.current smallImage) := by
      rw [hthread₁, ← hs₁]
      exact htop₁
    rw [hsame, ← hs₁]
    exact hserved
  have h₂ : Traps.Step smallImage 0x5000 s₁ (.trap .syscall) _ := .trap hmode₁ fun _ => hserved₁
  have hinv₂ := (hinv₁.step h₂).1
  obtain ⟨sp, hentered⟩ := (hinv₁.entered hmode₁ fun _ => hserved₁ : ∃ sp,
    Trap.Entered smallImage .syscall _ _ _ sp)
  have htop₂ : top s₁.sys (s₁.current smallImage) = 0x9FD0 := by
    rw [hthread₁, ← hs₁]
    exact htop₁.trans htop
  have hroomy := (hinv₁.trap_top (hinv₁.notBoot (t := s₁.current smallImage) (by simp [hmode₁]))).2
  have hown₂ : Own smallImage s₁.sys (Trap.syscall.enter smallImage s₁.core).cpu :=
    Own.of_stack hentered.out fun n hlo hhi => hroomy.stack n
      (by simp only [Trap.size] at hlo; omega) hhi
  obtain ⟨hcurrent₂, hkept₂⟩ := hown₂.kept hinv₁
  generalize hs₂ : (s₁.withCore (Trap.syscall.enter smallImage s₁.core)).setMode
    (s₁.current smallImage)
    (.trapped .syscall (userOf s₁.core)) = s₂ at h₂ hinv₂
  have hcpu₂ : s₂.sys.cpu = (Trap.syscall.enter smallImage s₁.core).cpu := by
    rw [← hs₂]
    rfl
  have hthread₂ : s₂.current smallImage = s₁.current smallImage := by
    rw [← hs₂]
    exact hcurrent₂
  have hmode₂ : s₂.mode (s₂.current smallImage) = .trapped .syscall (userOf s₁.core) := by
    rw [hthread₂, ← hs₂]
    exact setMode_self
  -- the handler returns
  generalize hcpu : ({ s₂.sys.cpu with
    reg := fun r => if r = .eax then 7 else if r = .esp then s₂.sys.cpu.reg .esp + UInt32.ofNat 4
      else s₂.sys.cpu.reg r,
    eip := smallImage.syscallBack } : Cpu) = cpu
  have hmem : cpu.mem = s₂.sys.cpu.mem := by
    rw [← hcpu]
  have hown₃ : Own smallImage s₂.sys cpu := fun n hne => absurd (congrFun hmem n) hne
  have h₃ : Traps.Step smallImage 0x5000 s₂ (.kernel (.exec cpu))
      { s₂ with sys := { s₂.sys with cpu := cpu } } :=
    .kernel (by rw [hmode₂]; simp) hown₃.step ⟨hown₃.orderly, fun _ n _ => congrFun hmem n⟩
  obtain ⟨hcurrent₃, hkept₃⟩ := hown₃.kept hinv₂
  have hesp₂ := hentered.esp
  rw [← hcpu₂, htop₂] at hesp₂
  simp only [Trap.size] at hesp₂
  have hreturned : Traps.Returned smallImage { s₂ with sys := { s₂.sys with cpu := cpu } } .syscall
      (userOf s₁.core) := by
    refine ⟨?_, ?_, ?_⟩
    · rw [← hcpu]
      rfl
    · have hsame : top { s₂.sys with cpu := cpu }
        (Os.current smallImage { s₂ with sys := { s₂.sys with cpu := cpu } }) = 0x9FD0 := by
        have hthis : Os.current smallImage { s₂ with sys := { s₂.sys with cpu := cpu } } =
            s₂.current smallImage :=
          hcurrent₃
        rw [hthis, hkept₃, hthread₂, ← hs₂]
        exact hkept₂.trans htop₂
      have hsp : cpu.reg .esp = s₂.sys.cpu.reg .esp + UInt32.ofNat 4 := by
        rw [← hcpu]
        rfl
      rw [hsame]
      simp only [hsp, Trap.size]
      rw [toNat_add_offset (by omega)]
      omega
    · have hbp : cpu.reg .ebp = s₂.sys.cpu.reg .ebp := by
        rw [← hcpu]
        rfl
      simp only [hbp]
      rw [hcpu₂]
      exact hentered.ebp
  have hmode₃ : Os.mode { s₂ with sys := { s₂.sys with cpu := cpu } }
      (Os.current smallImage { s₂ with sys := { s₂.sys with cpu := cpu } }) =
        .trapped .syscall (userOf s₁.core) := by
    have hthis : Os.current smallImage { s₂ with sys := { s₂.sys with cpu := cpu } } =
        s₂.current smallImage :=
      hcurrent₃
    rw [hthis]
    exact hmode₂
  have h₄ := (Traps.Step.leave hmode₃ hreturned : Traps.Step smallImage 0x5000 _ .leave _)
  have hinv₃ := (hinv₂.step h₃).1
  have hleft := hinv₃.left hmode₃ hreturned
  have hquiet : Run (Guarded (Traps.Step smallImage 0x5000)
    (Quiet smallImage (s.current smallImage))) s₂
      [.kernel (.exec cpu)] _ := .single ⟨by simp [Quiet, event, Event.thread], h₃⟩
  have hback : Os.current smallImage { s₂ with sys := { s₂.sys with cpu := cpu } } =
      s.current smallImage := by
    refine Eq.trans hcurrent₃ ?_
    rw [hthread₂, hthread₁]
  obtain ⟨_, heax, _, hesp', _⟩ :=
      libgloss_call_returns smallBoot_booted hrun hcalls h₁ h₂ hquiet hback h₄ (by
    intro n hlo hhi
    have hsame :
      ((Os.withCore { s₂ with sys := { s₂.sys with cpu := cpu } } (Trap.syscall.leave smallImage
        (Os.core { s₂ with sys := { s₂.sys with cpu := cpu } }))).sys.cpu).mem = cpu.mem :=
      congrArg (fun c => c.cpu.mem) hleft
    refine (congrFun (hsame.trans hmem) n).trans ?_
    rw [hcpu₂]
    apply hentered.out
    right
    rw [htop₂]
    omega)
  refine ⟨_, s, _, as, hrun, hcurrent, heax.trans ?_, hesp'⟩
  rw [← hcpu]
  rfl

end OsdevCourse.Libgloss
