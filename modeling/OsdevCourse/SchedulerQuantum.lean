import OsdevCourse.SchedulerConservation

/-!
# The quantum of a thread is never overdrawn

`scheduler_tick` moves one tick from `g_scheduler.quantum` to `g_scheduler.elapsed`, and
`scheduler_pick` charges the elapsed ticks to the thread that gives up the CPU. What was
charged, what has elapsed and what is left stay together within the quantum of the
current thread, so none of the 32-bit operations wraps.
-/

namespace OsdevCourse.Scheduler

set_option autoImplicit false

/-- A thread is added with a quantum that is not empty and that a `uint32_t` holds. -/
def Timed (_ : Machine) : Action → Prop
  | .run _ _ quantum _ => 1 ≤ quantum ∧ quantum < 2 ^ 32
  | _ => True

structure Metered (threads : List TcbPtr) (s : State) : Prop where
  quantum : ∀ x ∈ threads, 1 ≤ (s.tcb x).quantum ∧ (s.tcb x).quantum < 2 ^ 32
  elapsed : ∀ x ∈ threads, (s.tcb x).elapsed ≤ (s.tcb x).quantum
  current : s.current ∈ threads
  sum : s.elapsed + s.quantum + (s.tcb s.current).elapsed ≤ (s.tcb s.current).quantum

/-- The counters of a TCB. -/
def Tcb.meter (t : Tcb) : Nat × Nat := (t.elapsed, t.quantum)

namespace Metered
variable {threads : List TcbPtr} {s s' : State} {x : TcbPtr}

theorem bound (h : Metered threads s) : s.elapsed + s.quantum < 2 ^ 32 := by
  have hsum := h.sum
  have hquantum := (h.quantum _ h.current).2
  omega

theorem congr (h : Metered threads s) (hmeter : ∀ y ∈ threads, (s'.tcb y).meter = (s.tcb y).meter)
    (helapsed : s'.elapsed = s.elapsed) (hquantum : s'.quantum = s.quantum)
    (hcurrent : s'.current = s.current) : Metered threads s' := by
  have hel : ∀ y ∈ threads, (s'.tcb y).elapsed = (s.tcb y).elapsed := fun y hy =>
    congrArg Prod.fst (hmeter y hy)
  have hqu : ∀ y ∈ threads, (s'.tcb y).quantum = (s.tcb y).quantum := fun y hy =>
    congrArg Prod.snd (hmeter y hy)
  refine ⟨fun y hy => ?_, fun y hy => ?_, hcurrent ▸ h.current, ?_⟩
  · rw [hqu y hy]
    exact h.quantum y hy
  · rw [hel y hy, hqu y hy]
    exact h.elapsed y hy
  · rw [hcurrent, helapsed, hquantum, hel _ h.current, hqu _ h.current]
    exact h.sum

theorem modify (h : Metered threads s) {f : Tcb → Tcb} (hf : ∀ t, (f t).meter = t.meter)
    (p : TcbPtr) :
    Metered threads (s.modify p f) := by
  refine h.congr (fun y _ => ?_) rfl rfl rfl
  by_cases hy : y = p
  · subst hy
    simp [hf]
  · simp [hy]

theorem run (h : Metered threads s) {priority quantum kstack : Nat} (hx : x ≠ s.current)
    (hquantum : 1 ≤ quantum ∧ quantum < 2 ^ 32) :
    Metered (x :: threads) (runFresh s x priority quantum kstack) := by
  have hunch := Unchanged.schedulerAdd
    (s := assignThreadId (s.modify x fun _ => tcbInit priority quantum kstack) x) x
  have hdata := fun y => runFresh_data s x y priority quantum kstack
  have hnew : ((runFresh s x priority quantum kstack).tcb x).meter = (0, quantum) := by
    have hx := congrArg Tcb.meter (hdata x)
    rw [if_pos rfl] at hx
    exact hx
  have hold : ∀ y, y ≠ x → ((runFresh s x priority quantum kstack).tcb y).meter =
      (s.tcb y).meter := by
    intro y hy
    have hsame := congrArg Tcb.meter (hdata y)
    rw [if_neg hy] at hsame
    exact hsame
  have hcurrent : (runFresh s x priority quantum kstack).current = s.current := hunch.current
  have helapsed : (runFresh s x priority quantum kstack).elapsed = s.elapsed := hunch.elapsed
  have hleft : (runFresh s x priority quantum kstack).quantum = s.quantum := hunch.quantum
  generalize runFresh s x priority quantum kstack = s' at hcurrent helapsed hleft hnew hold
  have hnew₁ : (s'.tcb x).elapsed = 0 := congrArg Prod.fst hnew
  have hnew₂ : (s'.tcb x).quantum = quantum := congrArg Prod.snd hnew
  have hold₁ : ∀ y, y ≠ x → (s'.tcb y).elapsed = (s.tcb y).elapsed := fun y hy =>
    congrArg Prod.fst (hold y hy)
  have hold₂ : ∀ y, y ≠ x → (s'.tcb y).quantum = (s.tcb y).quantum := fun y hy =>
    congrArg Prod.snd (hold y hy)
  refine ⟨fun y hy => ?_, fun y hy => ?_, ?_, ?_⟩
  · by_cases hyx : y = x
    · rw [hyx, hnew₂]
      exact hquantum
    · rw [hold₂ y hyx]
      exact h.quantum y ((List.mem_cons.mp hy).resolve_left hyx)
  · by_cases hyx : y = x
    · rw [hyx, hnew₁]
      exact Nat.zero_le _
    · rw [hold₁ y hyx, hold₂ y hyx]
      exact h.elapsed y ((List.mem_cons.mp hy).resolve_left hyx)
  · rw [hcurrent]
    exact List.mem_cons_of_mem x h.current
  · rw [hcurrent, helapsed, hleft, hold₁ _ hx.symm, hold₂ _ hx.symm]
    exact h.sum

theorem countTick_eq (h : Metered threads s) (hquantum : 1 ≤ s.quantum) :
    (countTick s).elapsed = s.elapsed + 1 ∧ (countTick s).quantum + 1 = s.quantum := by
  have hbound := h.bound
  have helapsed : (s.elapsed + 1) % 2 ^ 32 = s.elapsed + 1 := Nat.mod_eq_of_lt (by omega)
  have hwrap : s.quantum + 2 ^ 32 - 1 = s.quantum - 1 + 2 ^ 32 := by omega
  have hleft : (s.quantum + 2 ^ 32 - 1) % 2 ^ 32 = s.quantum - 1 := by
    rw [hwrap, Nat.add_mod_right]
    exact Nat.mod_eq_of_lt (by omega)
  refine ⟨helapsed, ?_⟩
  have hcount : (countTick s).quantum = s.quantum - 1 := hleft
  omega

theorem countTick (h : Metered threads s) (hquantum : 1 ≤ s.quantum) :
    Metered threads (countTick s) := by
  obtain ⟨helapsed, hleft⟩ := h.countTick_eq hquantum
  refine ⟨h.quantum, h.elapsed, h.current, ?_⟩
  have hsum := h.sum
  have htcb : (Scheduler.countTick s).tcb = s.tcb := rfl
  have hcurrent : (Scheduler.countTick s).current = s.current := rfl
  rw [htcb, hcurrent]
  omega

/-- What the thread that gives up the CPU is charged is within its quantum. -/
theorem charge (h : Metered threads s) (hx : x ∈ threads) :
    ((chargeCurrent s).tcb x).elapsed ≤ ((chargeCurrent s).tcb x).quantum := by
  unfold chargeCurrent
  by_cases hc : x = s.current
  · have hsum := h.sum
    have hquantum := (h.quantum _ h.current).2
    subst hc
    simp only [State.tcb_modify, if_true]
    rw [Nat.mod_eq_of_lt (by omega)]
    omega
  · simp only [State.tcb_modify, if_neg hc]
    exact h.elapsed x hx

theorem charge_quantum (s : State) (y : TcbPtr) :
    ((chargeCurrent s).tcb y).quantum = (s.tcb y).quantum := by
  unfold chargeCurrent
  by_cases hy : y = s.current
  · subst hy
    simp
  · simp [hy]

theorem dispatch (h : Metered threads s) (hx : x ∈ threads)
    (hunch : Unchanged (chargeCurrent s) s') :
    ((dispatch s' x).tcb x).elapsed < ((dispatch s' x).tcb x).quantum ∧
    Metered threads { Scheduler.dispatch s' x with current := x } := by
  have hmeter := fun y => congrArg Tcb.meter (hunch.fixed y)
  have hel : ∀ y, (s'.tcb y).elapsed = ((chargeCurrent s).tcb y).elapsed := fun y =>
    congrArg Prod.fst (hmeter y)
  have hsnd : ∀ y, (s'.tcb y).quantum = ((chargeCurrent s).tcb y).quantum := fun y =>
    congrArg Prod.snd (hmeter y)
  have hqu : ∀ y, (s'.tcb y).quantum = (s.tcb y).quantum := fun y =>
    (hsnd y).trans (charge_quantum s y)
  have hle : ∀ y ∈ threads, (s'.tcb y).elapsed ≤ (s'.tcb y).quantum := by
    intro y hy
    have hcharged := h.charge hy
    rw [charge_quantum] at hcharged
    rw [hel, hqu]
    exact hcharged
  have hquantum : ∀ y, ((Scheduler.dispatch s' x).tcb y).quantum = (s'.tcb y).quantum := by
    intro y
    by_cases hy : y = x <;> simp [Scheduler.dispatch, hy]
  have hother : ∀ y, y ≠ x → ((Scheduler.dispatch s' x).tcb y).elapsed = (s'.tcb y).elapsed := by
    intro y hy
    simp [Scheduler.dispatch, hy]
  have hself : ((Scheduler.dispatch s' x).tcb x).elapsed =
      if (s'.tcb x).elapsed ≥ (s'.tcb x).quantum then 0 else (s'.tcb x).elapsed := by
    simp [Scheduler.dispatch]
  have hpos := (h.quantum x hx).1
  have hlt : ((Scheduler.dispatch s' x).tcb x).elapsed <
      ((Scheduler.dispatch s' x).tcb x).quantum := by
    rw [hself, hquantum, hqu]
    split <;> omega
  refine ⟨hlt, ⟨fun y hy => ?_, fun y hy => ?_, hx, ?_⟩⟩
  · have hsame : ((Scheduler.dispatch s' x).tcb y).quantum = (s.tcb y).quantum := by
      rw [hquantum, hqu]
    exact hsame.symm ▸ h.quantum y hy
  · by_cases hyx : y = x
    · rw [hyx]
      exact Nat.le_of_lt hlt
    · have hsame := hother y hyx
      have hsame' := hquantum y
      have hbound := hle y hy
      simp only
      omega
  · have hleft : (Scheduler.dispatch s' x).quantum =
        ((Scheduler.dispatch s' x).tcb x).quantum - ((Scheduler.dispatch s' x).tcb x).elapsed := rfl
    have helapsed : (Scheduler.dispatch s' x).elapsed = 0 := rfl
    simp only [helapsed, hleft]
    omega

end Metered

section Steps
variable {linked : Prop} {m m' : Machine} {v : Layout} {x : TcbPtr} {s' : State}

/-- Between the operations there is time left, and it is the current thread's. -/
structure Machine.Budget (m : Machine) : Prop where
  counters : Metered m.added m.sched
  left : 1 ≤ m.sched.quantum

/-- A pick in a machine whose counters are within the quantum, also when nothing is left. -/
theorem Metered.pick (h : Conserved linked m v) (hm : Metered m.added m.sched)
    (hpick : schedulerPick m.fuel m.sched = some (x, s')) :
    (s'.tcb x).elapsed < (s'.tcb x).quantum ∧
    s'.quantum = (s'.tcb x).quantum - (s'.tcb x).elapsed ∧
    (m.withSched { s' with current := x }).Budget := by
  obtain ⟨hx, s, hunch, rfl⟩ := h.pick_eq hpick
  obtain ⟨hlt, hmetered⟩ := hm.dispatch hx hunch
  refine ⟨hlt, rfl, ⟨hmetered, ?_⟩⟩
  have hleft : (Scheduler.dispatch s x).quantum =
      ((Scheduler.dispatch s x).tcb x).quantum - ((Scheduler.dispatch s x).tcb x).elapsed := rfl
  simp only [Machine.withSched, hleft]
  omega

theorem Machine.Budget.yield (hq : Conserved linked m v) (h : Metered m.added m.sched)
    (hrun : schedulerYield m.fuel m.sched = some s') : (m.withSched s').Budget := by
  rw [schedulerYield, Option.bind_eq_bind, Option.bind_eq_some_iff] at hrun
  obtain ⟨⟨x, s⟩, hpick, heq⟩ := hrun
  cases heq
  exact (h.pick hq hpick).2.2

theorem sleepMark_meter (s : State) (tick : Nat) (y : TcbPtr) :
    ((sleepMark s tick).tcb y).meter = (s.tcb y).meter := by
  by_cases ht : tick = 0
  · simp [sleepMark, ht]
  · by_cases hy : y = s.current <;> simp [sleepMark, ht, hy, Tcb.meter]

/-- The counters at a pick are within the quantum, though nothing may be left. -/
theorem Machine.Budget.pickCall {e : Machine} {a : Action} (h : m.Budget)
    (hcall : m.pickCall a = some e) : Metered e.added e.sched := by
  cases a with
  | tick =>
    rw [Machine.pickCall, Option.ite_none_right_eq_some] at hcall
    obtain ⟨_, heq⟩ := hcall
    cases heq
    exact h.counters.countTick h.left
  | yield =>
    cases hcall
    exact h.counters
  | run | sleep | exitthread | cleanzombie => simp [Machine.pickCall] at hcall

theorem Machine.Budget.step {a : Action} (h : m.Budget) (hq : Conserved linked m v)
    (hstep : Guarded Step Timed m a m') : m'.Budget := by
  obtain ⟨htimed, hstep⟩ := hstep
  cases a with
  | run id priority quantum kstack =>
    obtain ⟨⟨_, hfresh, _⟩, heq⟩ := Option.ite_none_right_eq_some.mp hstep
    cases heq
    have hne : TcbPtr.thread id ≠ m.sched.current := by
      intro heq
      apply hq.not_mem_of_fresh hfresh
      rw [heq]
      exact List.mem_cons_self
    have hleft : (runFresh m.sched (.thread id) priority quantum kstack).quantum =
        m.sched.quantum :=
      (Unchanged.schedulerAdd (.thread id)).quantum
    refine ⟨h.counters.run hne htimed, ?_⟩
    rw [hleft]
    exact h.left
  | tick =>
    simp only [Step, Scheduler.step, Option.map_eq_some_iff] at hstep
    obtain ⟨s', hrun, rfl⟩ := hstep
    have hcount := h.counters.countTick h.left
    by_cases hquantum : (Scheduler.countTick m.sched).quantum = 0
    · rw [schedulerTick, if_pos hquantum] at hrun
      exact Machine.Budget.yield (m := m.withSched (Scheduler.countTick m.sched))
        hq.countTick hcount hrun
    · rw [schedulerTick, if_neg hquantum] at hrun
      cases hrun
      exact ⟨hcount, Nat.pos_of_ne_zero hquantum⟩
  | yield =>
    simp only [Step, Scheduler.step, Option.map_eq_some_iff] at hstep
    obtain ⟨s', hrun, rfl⟩ := hstep
    exact Machine.Budget.yield hq h.counters hrun
  | sleep tick =>
    obtain ⟨_, heq⟩ := Option.ite_none_right_eq_some.mp hstep
    cases heq
    obtain ⟨helapsed, hleft, hcurrent⟩ := sleepMark_counters m.sched tick
    refine ⟨h.counters.congr (fun y _ => sleepMark_meter m.sched tick y) helapsed hleft hcurrent,
      ?_⟩
    exact hleft.symm ▸ h.left
  | exitthread =>
    obtain ⟨_, heq⟩ := Option.ite_none_right_eq_some.mp hstep
    cases heq
    have hmark : Metered m.added (exitMark m.sched) := by
      apply h.counters.modify
      intro t
      rfl
    exact ⟨hmark, h.left⟩
  | cleanzombie =>
    obtain ⟨_, heq⟩ := Option.ite_none_right_eq_some.mp hstep
    cases heq
    obtain ⟨helapsed, hleft, hcurrent⟩ := cleanzombie_counters m.sched
    have hmeter := fun y => congrArg Tcb.meter (congrFun (cleanzombie_data m.sched) y)
    refine ⟨h.counters.congr (fun y _ => hmeter y) helapsed hleft hcurrent, ?_⟩
    exact hleft.symm ▸ h.left

theorem Conserved.idle {a : Action} (hq : Conserved linked m v) (h : m.Budget) (hstep : Step m a m')
    (hcall : m.pickCall a = none) : m'.sched.current = m.sched.current ∧
    (m'.sched.tcb m.sched.current).quantum = (m.sched.tcb m.sched.current).quantum ∧
    m'.sched.elapsed = m.sched.elapsed + [a].count .tick := by
  cases a with
  | run id priority quantum kstack =>
    obtain ⟨⟨_, hfresh, _⟩, heq⟩ := Option.ite_none_right_eq_some.mp hstep
    cases heq
    have hne : m.sched.current ≠ .thread id := by
      intro heq
      apply hq.not_mem_of_fresh hfresh
      rw [heq]
      exact List.mem_cons_self
    have hdata := congrArg Tcb.quantum (runFresh_data m.sched (.thread id) m.sched.current priority
      quantum kstack)
    rw [if_neg hne] at hdata
    exact ⟨runFresh_current _ _ _ _ _, hdata, (Unchanged.schedulerAdd (.thread id)).elapsed⟩
  | tick =>
    rw [Machine.pickCall, ite_eq_right_iff] at hcall
    have hquantum : (Scheduler.countTick m.sched).quantum ≠ 0 := fun hzero =>
      Option.some_ne_none _ (hcall hzero)
    simp only [Step, Scheduler.step, Option.map_eq_some_iff] at hstep
    obtain ⟨s', hrun, rfl⟩ := hstep
    rw [schedulerTick, if_neg hquantum] at hrun
    cases hrun
    exact ⟨rfl, rfl, (h.counters.countTick_eq h.left).1⟩
  | yield => simp [Machine.pickCall] at hcall
  | sleep tick =>
    obtain ⟨_, heq⟩ := Option.ite_none_right_eq_some.mp hstep
    cases heq
    obtain ⟨helapsed, _, hcurrent⟩ := sleepMark_counters m.sched tick
    exact ⟨hcurrent, congrArg Prod.snd (sleepMark_meter m.sched tick m.sched.current), helapsed⟩
  | exitthread =>
    obtain ⟨_, heq⟩ := Option.ite_none_right_eq_some.mp hstep
    cases heq
    refine ⟨rfl, ?_, rfl⟩
    simp [Machine.withSched, exitMark]
  | cleanzombie =>
    obtain ⟨_, heq⟩ := Option.ite_none_right_eq_some.mp hstep
    cases heq
    obtain ⟨helapsed, _, hcurrent⟩ := cleanzombie_counters m.sched
    have hdata := congrArg Tcb.quantum (congrFun (cleanzombie_data m.sched) m.sched.current)
    exact ⟨hcurrent, hdata, helapsed⟩

end Steps

/-! Runs from `scheduler_init`. -/

theorem Machine.Budget.init : Machine.init.Budget := by
  refine ⟨⟨?_, ?_, List.mem_singleton_self _, by decide⟩, by decide⟩
  · intro x hx
    rw [List.mem_singleton.mp hx]
    decide
  · intro x hx
    rw [List.mem_singleton.mp hx]
    decide

/-- The invariant of the runs whose threads have a quantum. -/
def Machine.Accounted (m : Machine) : Prop := (∃ v, Conserved True m v) ∧ m.Budget

theorem Machine.Accounted.step {m m' : Machine} {a : Action} (h : m.Accounted)
    (hstep : Guarded Step Timed m a m') : m'.Accounted := by
  obtain ⟨⟨v, hv⟩, hbudget⟩ := h
  obtain ⟨v', hv', _⟩ := hv.step hstep.2
  exact ⟨⟨v', hv'⟩, hbudget.step hv hstep⟩

theorem Machine.Accounted.of_run {m : Machine} {as : List Action}
    (hrun : Run (Guarded Step Timed) Machine.init as m) : m.Accounted :=
  hrun.invariant _ (fun _ _ _ h hstep => h.step hstep) ⟨⟨_, Conserved.init⟩, .init⟩

/-- A step in which `scheduler_pick` is not run. -/
def Unpicked (m : Machine) (a : Action) : Prop := Timed m a ∧ m.pickCall a = none

/-- The ticks of a thread that no pick interrupts stay below its quantum. -/
theorem Machine.Accounted.ticks {m m' : Machine} {as : List Action} (h : m.Accounted)
    (hrun : Run (Guarded Step Unpicked) m as m') :
    as.count .tick < (m.sched.tcb m.sched.current).quantum := by
  have hend := hrun.trace_invariant (fun bs m' => m'.Accounted ∧
    m'.sched.current = m.sched.current ∧
    (m'.sched.tcb m.sched.current).quantum = (m.sched.tcb m.sched.current).quantum ∧
    m'.sched.elapsed = m.sched.elapsed + bs.count .tick) ?_ ⟨h, rfl, rfl, rfl⟩
  · obtain ⟨⟨_, hbudget⟩, hcurrent, hquantum, helapsed⟩ := hend
    have hsum := hbudget.counters.sum
    have hleft := hbudget.left
    rw [hcurrent, hquantum] at hsum
    omega
  · rintro bs m₁ a m₂ ⟨hacc, hcurrent, hquantum, helapsed⟩ ⟨⟨htimed, hcall⟩, hstep⟩
    obtain ⟨⟨v, hv⟩, hbudget⟩ := id hacc
    obtain ⟨hcurrent', hquantum', helapsed'⟩ := hv.idle hbudget hstep hcall
    rw [hcurrent] at hcurrent' hquantum'
    refine ⟨hacc.step ⟨htimed, hstep⟩, hcurrent', hquantum'.trans hquantum, ?_⟩
    rw [List.count_append]
    omega

theorem quantum_never_underflows {m : Machine} {as : List Action}
    (hrun : Run (Guarded Step Timed) Machine.init as m) :
    (1 ≤ m.sched.quantum ∧
      m.sched.elapsed + m.sched.quantum + (m.sched.tcb m.sched.current).elapsed ≤
        (m.sched.tcb m.sched.current).quantum ∧
      ∀ x ∈ m.added, (m.sched.tcb x).elapsed ≤ (m.sched.tcb x).quantum ∧
        (m.sched.tcb x).quantum < 2 ^ 32) ∧
    ((countTick m.sched).quantum + 1 = m.sched.quantum ∧
      (countTick m.sched).elapsed = m.sched.elapsed + 1) ∧
    (∀ a e x s', m.pickCall a = some e → schedulerPick e.fuel e.sched = some (x, s') →
      (s'.tcb x).elapsed < (s'.tcb x).quantum ∧
      s'.quantum = (s'.tcb x).quantum - (s'.tcb x).elapsed) ∧
    ∀ bs m', Run (Guarded Step Unpicked) m bs m' →
      bs.count .tick < (m.sched.tcb m.sched.current).quantum := by
  have hacc := Machine.Accounted.of_run hrun
  obtain ⟨⟨v, hv⟩, hbudget⟩ := id hacc
  obtain ⟨helapsed, hleft⟩ := hbudget.counters.countTick_eq hbudget.left
  refine ⟨⟨hbudget.left, hbudget.counters.sum, fun x hx => ?_⟩, ⟨hleft, helapsed⟩, ?_,
    fun bs m' => hacc.ticks⟩
  · exact ⟨hbudget.counters.elapsed x hx, (hbudget.counters.quantum x hx).2⟩
  · intro a e x s' hcall hpick
    obtain ⟨hlt, heq, _⟩ := (hbudget.pickCall hcall).pick (hv.pickCall hcall) hpick
    exact ⟨hlt, heq⟩

theorem quantum_never_underflows_two : ∃ m, Run (Guarded Step Timed) Machine.init
    [.run 1 2 5 0, .tick, .tick, .tick, .yield, .sleep 2, .yield] m ∧ 1 ≤ m.sched.quantum := by
  have hrun : ∃ m, Run (Guarded Step Timed) Machine.init
      [.run 1 2 5 0, .tick, .tick, .tick, .yield, .sleep 2, .yield] m :=
    ⟨_, .cons ⟨⟨by decide, by decide⟩, rfl⟩
      (.cons ⟨trivial, rfl⟩ (.cons ⟨trivial, rfl⟩ (.cons ⟨trivial, rfl⟩
      (.cons ⟨trivial, rfl⟩ (.cons ⟨trivial, rfl⟩ (.cons ⟨trivial, rfl⟩ (.nil _)))))))⟩
  obtain ⟨m, hm⟩ := hrun
  exact ⟨m, hm, (quantum_never_underflows hm).1.1⟩

end OsdevCourse.Scheduler
