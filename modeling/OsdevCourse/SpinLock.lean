import Mathlib.Data.Fintype.Defs
import Mathlib.Logic.Function.Basic
import OsdevCourse.Reachability

/-!
# The spin lock: `_SPIN_LOCK` and `_SPIN_UNLOCK`

The operand of the instructions is `"m"(lock)`, the memory in which the parameter `lock` is kept,
and that is a pointer of the call's own. So `lock bts` tests and sets bit 0 of the pointer, which
is clear in the address of an aligned lock, and no call ever finds the lock taken. `_SPIN_UNLOCK`
stores to the lock itself. One step is one instruction of one CPU.
-/

namespace OsdevCourse.SpinLock

set_option autoImplicit false

universe u

/-- A `_SPINLOCK` lies at a multiple of 16. -/
structure Spinlock where
  addr : Nat
  aligned : addr % 16 = 0

/-- The instruction a CPU is at. `inside` is between the return from `_SPIN_LOCK` and the store
of `_SPIN_UNLOCK`. -/
inductive Pc
  | outside | bts | jnc | pause | test | je | btsAgain | jc | inside
  deriving DecidableEq

/-- The lock, and the parameter of each CPU's call. -/
inductive Loc (Cpu : Type u)
  | lock
  | param (i : Cpu)
  deriving DecidableEq

structure State (Cpu : Type u) where
  mem : Loc Cpu → Nat
  pc : Cpu → Pc
  carry : Cpu → Bool
  zero : Cpu → Bool

/-- `"m"(lock)` -/
def operand {Cpu : Type u} (i : Cpu) : Loc Cpu := .param i

section Steps
variable {Cpu : Type u} [DecidableEq Cpu]

namespace State

def goto (s : State Cpu) (i : Cpu) (pc : Pc) : State Cpu :=
  { s with pc := Function.update s.pc i pc }

def store (s : State Cpu) (a : Loc Cpu) (v : Nat) : State Cpu :=
  { s with mem := Function.update s.mem a v }

/-- `lock bts %0, 0` -/
def lockBts (s : State Cpu) (i : Cpu) : State Cpu :=
  let v := s.mem (operand i)
  { s.store (operand i) (v ||| 1) with carry := Function.update s.carry i (v.testBit 0) }

/-- `test %0, 1` -/
def testOne (s : State Cpu) (i : Cpu) : State Cpu :=
  { s with zero := Function.update s.zero i (decide (s.mem (operand i) &&& 1 = 0)) }

end State

/-- The next instruction of a CPU. One that is outside calls `_SPIN_LOCK(&l)`, and one that is
inside does the store of `_SPIN_UNLOCK(&l)`. -/
def exec (l : Spinlock) (i : Cpu) (s : State Cpu) : State Cpu :=
  match s.pc i with
  | .outside => (s.store (.param i) l.addr).goto i .bts
  | .bts => (s.lockBts i).goto i .jnc
  | .jnc => s.goto i (if s.carry i then .pause else .inside)
  | .pause => s.goto i .test
  | .test => (s.testOne i).goto i .je
  | .je => s.goto i (if s.zero i then .pause else .btsAgain)
  | .btsAgain => (s.lockBts i).goto i .jc
  | .jc => s.goto i (if s.carry i then .pause else .inside)
  | .inside => (s.store .lock 0).goto i .outside

def Step (l : Spinlock) (s : State Cpu) (i : Cpu) (t : State Cpu) : Prop := t = exec l i s

/-- Every CPU is outside; the parameters hold what the stacks hold. -/
def start (params : Cpu → Nat) : State Cpu where
  mem
    | .lock => 0
    | .param i => params i
  pc _ := .outside
  carry _ := false
  zero _ := false

/-- A CPU that has called `_SPIN_LOCK` and not returned. -/
def InLock (pc : Pc) : Prop := pc ≠ .outside ∧ pc ≠ .inside

def Excludes (s : State Cpu) : Prop := ∀ i j, s.pc i = .inside → s.pc j = .inside → i = j

/-- A CPU with its `lock bts` behind it that has not reached its unlock. -/
def Entered (pc : Pc) : Prop := pc = .jnc ∨ pc = .inside

/-- A CPU executes its `lock bts` only where no other one has entered. -/
def Uncontended (s : State Cpu) (i : Cpu) : Prop := s.pc i = .bts → ∀ j, j ≠ i → ¬Entered (s.pc j)

end Steps

/-! What a step does. -/

section Lemmas
variable {Cpu : Type u} [DecidableEq Cpu] {l : Spinlock} {s : State Cpu} {i j : Cpu}

theorem exec_pc_other (hij : j ≠ i) : (exec l i s).pc j = s.pc j := by
  unfold exec
  split <;> exact Function.update_of_ne hij _ _

theorem exec_carry_other (hij : j ≠ i) : (exec l i s).carry j = s.carry j := by
  unfold exec
  split
  case h_2 => exact Function.update_of_ne hij _ _
  case h_7 => exact Function.update_of_ne hij _ _
  all_goals rfl

theorem exec_param_other (hij : j ≠ i) : (exec l i s).mem (.param j) = s.mem (.param j) := by
  have hloc : Loc.param j ≠ Loc.param i := fun h => hij (Loc.param.inj h)
  unfold exec
  split
  case h_1 => exact Function.update_of_ne hloc _ _
  case h_2 => exact Function.update_of_ne hloc _ _
  case h_7 => exact Function.update_of_ne hloc _ _
  case h_9 =>
    have hlock : Loc.param j ≠ Loc.lock := by simp
    exact Function.update_of_ne hlock 0 s.mem
  all_goals rfl

/-- A call finds its own pointer, and bit 0 of it is clear. -/
structure Sound (l : Spinlock) (s : State Cpu) : Prop where
  place : ∀ i, s.pc i = .outside ∨ s.pc i = .bts ∨ s.pc i = .jnc ∨ s.pc i = .inside
  param : ∀ i, s.pc i = .bts → s.mem (.param i) = l.addr
  carry : ∀ i, s.pc i = .jnc → s.carry i = false

theorem exec_outside (h : s.pc i = .outside) : (exec l i s).pc i = .bts := by
  unfold exec
  rw [h]
  exact Function.update_self ..

theorem exec_bts (h : s.pc i = .bts) : (exec l i s).pc i = .jnc := by
  unfold exec
  rw [h]
  exact Function.update_self ..

theorem exec_jnc (h : s.pc i = .jnc) (hcarry : s.carry i = false) :
    (exec l i s).pc i = .inside := by
  unfold exec
  rw [h]
  simp only [hcarry]
  exact Function.update_self ..

theorem exec_inside (h : s.pc i = .inside) : (exec l i s).pc i = .outside := by
  unfold exec
  rw [h]
  exact Function.update_self ..

theorem Spinlock.bit_clear (l : Spinlock) : l.addr.testBit 0 = false := by
  have haligned := l.aligned
  rw [Nat.testBit_zero, decide_eq_false_iff_not]
  omega

theorem exec_bts_carry (h : s.pc i = .bts) (hparam : s.mem (.param i) = l.addr) :
    (exec l i s).carry i = false := by
  unfold exec
  rw [h]
  have hset : (s.lockBts i).carry i = (s.mem (.param i)).testBit 0 := Function.update_self ..
  rw [hparam, l.bit_clear] at hset
  exact hset

theorem exec_outside_param (h : s.pc i = .outside) : (exec l i s).mem (.param i) = l.addr := by
  unfold exec
  rw [h]
  exact Function.update_self ..

omit [DecidableEq Cpu] in
theorem Sound.start (params : Cpu → Nat) : Sound l (start params) := by
  refine ⟨fun i => Or.inl rfl, fun i hi => ?_, fun i hi => ?_⟩
  · exact absurd hi (by simp [SpinLock.start])
  · exact absurd hi (by simp [SpinLock.start])

theorem Sound.exec (h : Sound l s) (i : Cpu) : Sound l (exec l i s) := by
  have hpc : (SpinLock.exec l i s).pc i = .outside ∨ (SpinLock.exec l i s).pc i = .bts ∨
      (SpinLock.exec l i s).pc i = .jnc ∨ (SpinLock.exec l i s).pc i = .inside := by
    rcases h.place i with ho | hb | hj | hin
    · exact Or.inr (Or.inl (exec_outside ho))
    · exact Or.inr (Or.inr (Or.inl (exec_bts hb)))
    · exact Or.inr (Or.inr (Or.inr (exec_jnc hj (h.carry i hj))))
    · exact Or.inl (exec_inside hin)
  constructor
  · intro j
    by_cases hij : j = i
    · rw [hij]
      exact hpc
    · rw [exec_pc_other hij]
      exact h.place j
  · intro j hj
    by_cases hij : j = i
    · subst hij
      rcases h.place j with ho | hb | hjnc | hin
      · exact exec_outside_param ho
      · exact absurd (hj.symm.trans (exec_bts hb)) (by decide)
      · exact absurd (hj.symm.trans (exec_jnc hjnc (h.carry j hjnc))) (by decide)
      · exact absurd (hj.symm.trans (exec_inside hin)) (by decide)
    · rw [exec_pc_other hij] at hj
      rw [exec_param_other hij]
      exact h.param j hj
  · intro j hj
    by_cases hij : j = i
    · subst hij
      rcases h.place j with ho | hb | hjnc | hin
      · exact absurd (hj.symm.trans (exec_outside ho)) (by decide)
      · exact exec_bts_carry hb (h.param j hb)
      · exact absurd (hj.symm.trans (exec_jnc hjnc (h.carry j hjnc))) (by decide)
      · exact absurd (hj.symm.trans (exec_inside hin)) (by decide)
    · rw [exec_pc_other hij] at hj
      rw [exec_carry_other hij]
      exact h.carry j hj

theorem Sound.reached {t : State Cpu} {as : List Cpu} {params : Cpu → Nat}
    (hrun : Run (Step l) (SpinLock.start params) as t) : Sound l t := by
  apply hrun.invariant (Sound l)
  · intro s i t hs hstep
    rw [hstep]
    exact hs.exec i
  · exact Sound.start params

/-! Where the calls meet. -/

/-- At most one CPU has entered. -/
def Alone (s : State Cpu) : Prop := ∀ i j, Entered (s.pc i) → Entered (s.pc j) → i = j

omit [DecidableEq Cpu] in
theorem Alone.excludes (h : Alone s) : Excludes s :=
  fun i j hi hj => h i j (Or.inr hi) (Or.inr hj)

theorem entered_before (h : Sound l s) (hi : Entered ((exec l i s).pc i)) :
    s.pc i = .bts ∨ Entered (s.pc i) := by
  rcases h.place i with ho | hb | hj | hin
  · rw [exec_outside ho] at hi
    rcases hi with hi | hi <;> exact absurd hi (by decide)
  · exact Or.inl hb
  · exact Or.inr (Or.inl hj)
  · exact Or.inr (Or.inr hin)

theorem Alone.exec (h : Alone s) (hs : Sound l s) (hcond : Uncontended s i) :
    Alone (exec l i s) := by
  have hother : ∀ j, j ≠ i → Entered ((SpinLock.exec l i s).pc i) →
      ¬Entered ((SpinLock.exec l i s).pc j) := by
    intro j hij hi hj
    rw [exec_pc_other hij] at hj
    rcases entered_before hs hi with hb | hbefore
    · exact hcond hb j hij hj
    · exact hij (h j i hj hbefore)
  intro j k hj hk
  by_cases hji : j = i
  · by_cases hki : k = i
    · rw [hji, hki]
    · rw [hji] at hj
      exact absurd hk (hother k hki hj)
  · by_cases hki : k = i
    · rw [hki] at hk
      exact absurd hj (hother j hji hk)
    · rw [exec_pc_other hji] at hj
      rw [exec_pc_other hki] at hk
      exact h j k hj hk

theorem Alone.reached {t : State Cpu} {as : List Cpu} {params : Cpu → Nat}
    (hrun : Run (Guarded (Step l) Uncontended) (start params) as t) : Alone t := by
  have hboth := hrun.invariant (fun s => Sound l s ∧ Alone s) ?_ ?_
  · exact hboth.2
  · rintro s i t ⟨hs, halone⟩ ⟨hcond, hstep⟩
    rw [hstep]
    exact ⟨hs.exec i, halone.exec hs hcond⟩
  · refine ⟨Sound.start params, fun i j hi _ => ?_⟩
    rcases hi with hi | hi <;> exact absurd hi (by simp [start])

theorem returns_alone (hs : Sound l s) (hin : InLock (s.pc i)) :
    ∃ n ≤ 2, ∃ t, Run (Step l) s (List.replicate n i) t ∧ t.pc i = .inside := by
  rcases hs.place i with ho | hb | hj | hi
  · exact absurd ho hin.1
  · have hcarry := exec_bts_carry hb (hs.param i hb)
    exact ⟨2, Nat.le_refl 2, _, .cons rfl (.cons rfl (.nil _)), exec_jnc (exec_bts hb) hcarry⟩
  · exact ⟨1, by omega, _, .cons rfl (.nil _), exec_jnc hj (hs.carry i hj)⟩
  · exact absurd hi hin.2

theorem contended_meet (hs : Sound l s) (hcond : ¬Uncontended s i) :
    ∃ as t, Run (Step l) s (i :: as) t ∧ ¬Excludes t := by
  simp only [Uncontended, not_forall, not_not] at hcond
  obtain ⟨hb, j, hij, hj⟩ := hcond
  have hcarry := exec_bts_carry hb (hs.param i hb)
  have hi₁ := exec_bts (l := l) hb
  have hi₂ := exec_jnc (l := l) hi₁ hcarry
  have hji : i ≠ j := fun h => hij h.symm
  rcases hj with hjnc | hinside
  · have hjpc : (exec l i (exec l i s)).pc j = .jnc := by
      rw [exec_pc_other hij, exec_pc_other hij, hjnc]
    have hjcarry : (exec l i (exec l i s)).carry j = false := by
      rw [exec_carry_other hij, exec_carry_other hij, hs.carry j hjnc]
    refine ⟨[i, j], _, .cons rfl (.cons rfl (.cons rfl (.nil _))), fun hexcl => ?_⟩
    have hi₃ : (exec l j (exec l i (exec l i s))).pc i = .inside := by
      rw [exec_pc_other hji, hi₂]
    exact hij (hexcl j i (exec_jnc hjpc hjcarry) hi₃)
  · have hjpc : (exec l i (exec l i s)).pc j = .inside := by
      rw [exec_pc_other hij, exec_pc_other hij, hinside]
    refine ⟨[i], _, .cons rfl (.cons rfl (.nil _)), fun hexcl => ?_⟩
    exact hij (hexcl j i hjpc hi₂)

end Lemmas

/-! The jump back to the `pause` is taken when the bit is clear. -/

section Retry
variable {Cpu : Type u} [DecidableEq Cpu] {l : Spinlock} {i : Cpu}

/-- In the loop, with the bit clear, and with the flag of the `test` if that is behind. -/
def Waits (s : State Cpu) (i : Cpu) : Prop :=
  s.mem (.param i) &&& 1 = 0 ∧
    (s.pc i = .pause ∨ s.pc i = .test ∨ s.pc i = .je ∧ s.zero i = true)

theorem Waits.exec {s : State Cpu} (h : Waits s i) : Waits (exec l i s) i := by
  obtain ⟨hclear, hpause | htest | ⟨hje, hzero⟩⟩ := h
  · unfold SpinLock.exec
    rw [hpause]
    exact ⟨hclear, Or.inr (Or.inl (Function.update_self ..))⟩
  · unfold SpinLock.exec
    rw [htest]
    refine ⟨hclear, Or.inr (Or.inr ⟨Function.update_self .., ?_⟩)⟩
    have hset : (s.testOne i).zero i = decide (s.mem (.param i) &&& 1 = 0) :=
      Function.update_self ..
    rw [decide_eq_true hclear] at hset
    exact hset
  · unfold SpinLock.exec
    rw [hje]
    simp only [hzero]
    exact ⟨hclear, Or.inl (Function.update_self ..)⟩

/-- A CPU that is in the loop does not return while the bit it waits for is clear. -/
theorem Waits.forever {s t : State Cpu} {n : Nat} (h : Waits s i)
    (hrun : Run (Step l) s (List.replicate n i) t) : Waits t i := by
  induction n generalizing s with
  | zero =>
    cases hrun
    exact h
  | succ n ih =>
    rw [List.replicate_succ] at hrun
    cases hrun with
    | cons hstep hrest =>
      rw [hstep] at hrest
      exact ih h.exec hrest

end Retry

/-- For any number of CPUs: a run keeps the CPUs apart when every `lock bts` of it is executed
where no other CPU has entered, and where one is not, two CPUs can be inside soon after. A CPU
that runs alone returns after two instructions, whatever the others do. Without a condition only
a single CPU is kept apart. -/
theorem spin_lock_excludes_when {Cpu : Type u} [DecidableEq Cpu] (l : Spinlock)
    (params : Cpu → Nat) :
    (∀ as s, Run (Guarded (Step l) Uncontended) (start params) as s → Excludes s) ∧
    (∀ as s i, Run (Step l) (start params) as s → ¬Uncontended s i →
      ∃ bs t, Run (Step l) s (i :: bs) t ∧ ¬Excludes t) ∧
    (∀ as s i, Run (Step l) (start params) as s → InLock (s.pc i) →
      ∃ n ≤ 2, ∃ t, Run (Step l) s (List.replicate n i) t ∧ t.pc i = .inside) ∧
    ((∀ as s, Run (Step l) (start params) as s → Excludes s) ↔ Subsingleton Cpu) := by
  refine ⟨fun as s hrun => (Alone.reached hrun).excludes, fun as s i hrun hcond => ?_,
    fun as s i hrun hin => returns_alone (Sound.reached hrun) hin, ?_, fun hone as s _ => ?_⟩
  · exact contended_meet (Sound.reached hrun) hcond
  · intro hall
    refine ⟨fun i j => ?_⟩
    by_contra hij
    -- both CPUs call, and the second comes to its instruction when the first has entered
    let called := exec l i (exec l i (exec l j (start params)))
    have hrun : Run (Step l) (start params) [j, i, i] called :=
      .cons rfl (.cons rfl (.cons rfl (.nil _)))
    have hji : j ≠ i := fun h => hij h.symm
    have hfirst : called.pc i = .jnc := by
      apply exec_bts
      apply exec_outside
      rw [exec_pc_other hij]
      rfl
    have hsecond : called.pc j = .bts := by
      rw [exec_pc_other hji, exec_pc_other hji]
      exact exec_outside rfl
    obtain ⟨bs, t, hmore, hboth⟩ := contended_meet (i := j) (Sound.reached hrun)
      (fun h => h hsecond i hij (Or.inl hfirst))
    exact hboth (hall _ t (hrun.append hmore))
  · exact fun i j _ _ => Subsingleton.elim i j

/-- Two CPUs that call one after the other are both inside. -/
theorem spin_lock_both_inside : ∃ (l : Spinlock) (as : List (Fin 2)) (s : State (Fin 2)),
    Run (Step l) (start fun _ => 0) as s ∧ s.pc 0 = .inside ∧ s.pc 1 = .inside ∧ ¬Excludes s := by
  refine ⟨⟨16, rfl⟩, [0, 0, 0, 1, 1, 1], _, .cons rfl (.cons rfl (.cons rfl (.cons rfl (.cons rfl
    (.cons rfl (.nil _)))))), by decide, by decide, fun h => ?_⟩
  exact absurd (h 0 1 (by decide) (by decide)) (by decide)

end OsdevCourse.SpinLock
