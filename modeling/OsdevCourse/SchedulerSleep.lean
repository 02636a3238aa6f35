import OsdevCourse.SchedulerConservation

/-!
# How long a sleeping thread sleeps

`scheduler_pick` charges the elapsed ticks in full to every delta it looks at, and it
inserts the caller before it charges. A thread is woken no earlier than it asked for
when it went to sleep with no tick pending, and when each later pick charges what a
delta queue should be charged. Otherwise it can be woken early.
-/

namespace OsdevCourse.Scheduler

set_option autoImplicit false

open DeltaQueue (remaining advance)

/-! What the wake-up loop does to the deltas, against a proper advance of the queue. -/

/-- The deltas at the front of the queue that do not exceed the elapsed ticks, added up. -/
def dueSum (e : Nat) : List (TcbPtr × Nat) → Nat
  | [] => 0
  | (_, d) :: q => if d ≤ e then d + dueSum e q else 0

def Charged (e : Nat) (d : List (TcbPtr × Nat)) : Prop :=
  dueSum e d ≤ e ∧ (left e d = [] ∨ dueSum e d = 0)

instance (e : Nat) (d : List (TcbPtr × Nat)) : Decidable (Charged e d) :=
  inferInstanceAs (Decidable (_ ∧ _))

theorem left_length (e : Nat) (d : List (TcbPtr × Nat)) : (left e d).length ≤ d.length := by
  have hsplit := congrArg List.length (due_append_left e d)
  simp only [List.length_append, List.length_map] at hsplit
  omega

theorem left_eq_advance_part {a e : Nat} (hle : a ≤ e) (d : List (TcbPtr × Nat)) :
    left e d = advance a d ↔ dueSum e d ≤ a ∧ (left e d = [] ∨ a - dueSum e d = e) := by
  induction d generalizing a with
  | nil => simp [left, advance, dueSum]
  | cons p d ih =>
    obtain ⟨x, w⟩ := p
    by_cases hwe : w ≤ e
    · by_cases hwa : w ≤ a
      · simp only [left, advance, dueSum, if_pos hwe, if_pos hwa]
        rw [ih (by omega)]
        constructor
        · rintro ⟨hsum, h⟩
          exact ⟨by omega, h.imp_right fun heq => by omega⟩
        · rintro ⟨hsum, h⟩
          exact ⟨by omega, h.imp_right fun heq => by omega⟩
      · simp only [left, advance, dueSum, if_pos hwe, if_neg hwa]
        have hlen := left_length e d
        constructor
        · intro heq
          have hlen' := congrArg List.length heq
          rw [List.length_cons] at hlen'
          omega
        · rintro ⟨hsum, _⟩
          omega
    · have hwa : ¬ w ≤ a := by omega
      simp only [left, advance, dueSum, if_neg hwe, if_neg hwa, List.cons.injEq, Prod.mk.injEq,
        true_and, and_true, reduceCtorEq, false_or]
      omega

/-- The wake-up loop is a proper advance of the queue exactly when `Charged` holds. -/
theorem left_eq_advance_iff (e : Nat) (d : List (TcbPtr × Nat)) :
    left e d = advance e d ↔ Charged e d := by
  rw [left_eq_advance_part (Nat.le_refl e), Charged]
  constructor
  · rintro ⟨hsum, h⟩
    exact ⟨hsum, h.imp_right fun heq => by omega⟩
  · rintro ⟨hsum, h⟩
    exact ⟨hsum, h.imp_right fun heq => by omega⟩

-- Two threads sleep 5 and 8 ticks: the charge of 5 elapsed ticks wakes both.
example : left 5 [(.thread 1, 5), (.thread 2, 3)] = [] ∧
    advance 5 [(TcbPtr.thread 1, 5), (.thread 2, 3)] = [(.thread 2, 3)] := by decide

/-- The sleepers with their deltas, the current thread included once it is marked. -/
def Machine.deltaQueue (m : Machine) : List (TcbPtr × Nat) :=
  let slept := m.sched.deltas (walk m.sched.next m.fuel (.head .slept))
  if (m.sched.tcb m.sched.current).flags.slept then
    DeltaQueue.insert m.sched.current (m.sched.ticks m.sched.current) slept
  else slept

/-- The elapsed ticks that a call of `scheduler_pick` in this step charges. -/
def Machine.charges (m : Machine) : Action → Option Nat
  | .yield => some m.sched.elapsed
  | .tick => if (countTick m.sched).quantum = 0 then some (countTick m.sched).elapsed else none
  | _ => none

def OnTime (m : Machine) (a : Action) : Prop := ∀ e ∈ m.charges a, Charged e m.deltaQueue

section Queue
variable {linked : Prop} {m m' : Machine} {v v' : Layout} {l : ListId} {s' : State} {x : TcbPtr}

theorem Conserved.deltaQueue (h : Conserved linked m v) : m.deltaQueue =
    if (m.sched.tcb m.sched.current).flags.slept then
      DeltaQueue.insert m.sched.current (m.sched.ticks m.sched.current)
        (m.sched.deltas (v.queues .slept))
    else m.sched.deltas (v.queues .slept) := by
  have hfuel := h.fuel_enough
  have hpath := h.queued.path .slept
  rw [Queues.hang_slept] at hpath
  rw [Machine.deltaQueue, hpath.walk_eq (by omega)]

theorem Conserved.deltaQueue_parked (h : Conserved linked m v)
    (hl : Belongs l (m.sched.data m.sched.current)) :
    m.deltaQueue = parkedDeltas l m.sched.current (m.sched.ticks m.sched.current)
      (m.sched.deltas (v.queues .slept)) := by
  have hflags : (m.sched.data m.sched.current).flags = (m.sched.tcb m.sched.current).flags := rfl
  rw [h.deltaQueue, parkedDeltas, ← hflags]
  cases l with
  | active p => simp [hl.2, Flags.clear]
  | slept => simp [show (m.sched.data m.sched.current).flags = ⟨true, false⟩ from hl]
  | zombie => simp [show (m.sched.data m.sched.current).flags = ⟨false, true⟩ from hl]

theorem Conserved.deltaQueue_congr (h : Conserved linked m v) (h' : Conserved linked m' v')
    (hslept : v'.queues .slept = v.queues .slept) (hcurrent : m'.sched.current = m.sched.current)
    (hticks : ∀ y ∈ m.sched.current :: v.queues .slept, m'.sched.ticks y = m.sched.ticks y)
    (hflag : (m'.sched.tcb m.sched.current).flags.slept =
    (m.sched.tcb m.sched.current).flags.slept) :
    m'.deltaQueue = m.deltaQueue := by
  have hdeltas : m'.sched.deltas (v.queues .slept) = m.sched.deltas (v.queues .slept) :=
    deltas_congr fun y hy => hticks y (List.mem_cons_of_mem _ hy)
  rw [h.deltaQueue, h'.deltaQueue, hcurrent, hflag, hslept, hdeltas, hticks _ List.mem_cons_self]

theorem Conserved.slept_of_mem_deltaQueue (h : Conserved linked m v)
    (hx : x ∈ m.deltaQueue.map Prod.fst) :
    (m.sched.tcb x).flags.slept = true := by
  have hlisted : x ∈ v.queues .slept → (m.sched.tcb x).flags.slept = true := by
    intro hmem
    have hflags : (m.sched.data x).flags = ⟨true, false⟩ :=
      (h.queued.member .slept x (v.queues.mem_hang hmem)).2
    exact congrArg Flags.slept hflags
  rw [h.deltaQueue] at hx
  by_cases hslept : (m.sched.tcb m.sched.current).flags.slept = true
  · rw [if_pos hslept] at hx
    rcases List.mem_cons.mp ((DeltaQueue.insert_names _ _ _).subset hx) with rfl | hx
    · exact hslept
    · exact hlisted (by simpa using hx)
  · rw [if_neg hslept] at hx
    exact hlisted (by simpa using hx)

/-- After a pick the current thread is not asleep, and the queue is what the loop left. -/
theorem Yielded.deltaQueue (h : Conserved linked m v) (hy : Yielded linked m v s' v' l) :
    (m.withSched s').deltaQueue = left m.sched.elapsed m.deltaQueue := by
  have hflags : ((m.withSched s').sched.tcb (m.withSched s').sched.current).flags.slept = false :=
    congrArg Flags.slept hy.flags
  rw [hy.conserved.deltaQueue, if_neg (by simp [hflags]), h.deltaQueue_parked hy.parked]
  exact hy.deltas

end Queue

/-- The thread has slept its time, or at least what is missing is still ahead of it. -/
def Waiting (x : TcbPtr) (t n : Nat) (m : Machine) : Prop :=
  t ≤ n ∨ ∃ w, (x, w) ∈ remaining m.deltaQueue ∧ t + m.sched.elapsed ≤ n + w

section Waiting
variable {linked : Prop} {m m' : Machine} {v : Layout} {x : TcbPtr} {t n : Nat}

theorem Waiting.congr (h : Waiting x t n m) (hqueue : m'.deltaQueue = m.deltaQueue)
    (helapsed : m'.sched.elapsed = m.sched.elapsed) : Waiting x t n m' := by
  rw [Waiting, hqueue, helapsed]
  exact h

theorem Waiting.pick (h : Waiting x t n m) (hq : Conserved linked m v)
    (hcharged : Charged m.sched.elapsed m.deltaQueue) {s' : State}
    (hrun : schedulerYield m.fuel m.sched = some s') : Waiting x t n (m.withSched s') := by
  obtain ⟨v', l, hy⟩ := hq.yield hrun
  have hqueue := hy.deltaQueue hq
  rw [(left_eq_advance_iff _ _).mpr hcharged] at hqueue
  rcases h with h | ⟨w, hw, hle⟩
  · exact Or.inl h
  · by_cases hwe : w ≤ m.sched.elapsed
    · exact Or.inl (by omega)
    · have helapsed : (m.withSched s').sched.elapsed = 0 := hy.elapsed
      refine Or.inr ⟨w - m.sched.elapsed, ?_, by omega⟩
      rw [hqueue, DeltaQueue.mem_remaining_advance, Nat.sub_add_cancel (by omega)]
      exact ⟨by omega, hw⟩

theorem Waiting.tick (h : Waiting x t n m) :
    Waiting x t (n + 1) (m.withSched (countTick m.sched)) := by
  have hmod : (m.sched.elapsed + 1) % 2 ^ 32 ≤ m.sched.elapsed + 1 := Nat.mod_le _ _
  rcases h with h | ⟨w, hw, hle⟩
  · exact Or.inl (by omega)
  · refine Or.inr ⟨w, hw, ?_⟩
    simp only [Machine.withSched, Scheduler.countTick]
    omega

theorem sleepMark_elapsed (s : State) (tick : Nat) : (sleepMark s tick).elapsed = s.elapsed := by
  unfold sleepMark
  split <;> rfl

theorem Conserved.deltaQueue_sleep (hq : Conserved linked m v) (hcall : m.atCall) {tick : Nat}
    (ht : tick ≠ 0) :
    (m.withSched (sleepMark m.sched tick)).deltaQueue =
      DeltaQueue.insert m.sched.current tick m.deltaQueue := by
  have hclear : (m.sched.tcb m.sched.current).flags.slept = false := congrArg Flags.slept hcall
  have hdeltas : (sleepMark m.sched tick).deltas (v.queues .slept) = m.sched.deltas
      (v.queues .slept) := by
    refine deltas_congr fun y hy => ?_
    have hne : y ≠ m.sched.current := fun heq => hq.absent .slept (v.queues.mem_hang (heq ▸ hy))
    simp [sleepMark, ht, State.ticks, hne]
  rw [(hq.sleep hcall tick).deltaQueue, hq.deltaQueue, hclear]
  simp only [Machine.withSched]
  rw [hdeltas]
  simp [sleepMark, ht, State.ticks]

theorem Waiting.sleep (h : Waiting x t n m) (hq : Conserved linked m v) (hcall : m.atCall)
    (tick : Nat) :
    Waiting x t n (m.withSched (sleepMark m.sched tick)) := by
  by_cases ht : tick = 0
  · have hsame : sleepMark m.sched tick = m.sched := by simp [sleepMark, ht]
    rw [hsame]
    exact h
  · rcases h with h | ⟨w, hw, hle⟩
    · exact Or.inl h
    · refine Or.inr ⟨w, ?_, ?_⟩
      · rw [hq.deltaQueue_sleep hcall ht, DeltaQueue.mem_remaining_insert]
        exact Or.inr hw
      · exact (sleepMark_elapsed m.sched tick).symm ▸ hle

theorem Conserved.waiting_sleep (hq : Conserved linked m v) (hcall : m.atCall) (ht : t ≠ 0)
    (helapsed : m.sched.elapsed = 0) :
    Waiting m.sched.current t 0 (m.withSched (sleepMark m.sched t)) := by
  refine Or.inr ⟨t, ?_, ?_⟩
  · rw [hq.deltaQueue_sleep hcall ht, DeltaQueue.mem_remaining_insert]
    exact Or.inl ⟨rfl, rfl⟩
  · have hsame := sleepMark_elapsed m.sched t
    simp only [Machine.withSched]
    omega

theorem Waiting.exitthread (h : Waiting x t n m) (hq : Conserved linked m v) (hcall : m.atCall) :
    Waiting x t n (m.withSched (exitMark m.sched)) := by
  refine h.congr (hq.deltaQueue_congr (hq.exitthread hcall) rfl rfl (fun y _ => ?_) ?_) rfl
  · by_cases hy : y = m.sched.current <;> simp [Machine.withSched, exitMark, State.ticks, hy]
  · simp [Machine.withSched, exitMark]

theorem cleanzombie_fixed (s : State) : (schedulerCleanzombie s).2.current = s.current ∧
    (schedulerCleanzombie s).2.elapsed = s.elapsed := by
  unfold schedulerCleanzombie
  split <;> exact ⟨rfl, rfl⟩

theorem Waiting.cleanzombie (h : Waiting x t n m) (hq : Conserved linked m v) :
    Waiting x t n (m.withSched (schedulerCleanzombie m.sched).2) := by
  obtain ⟨q', hq', hslept⟩ := hq.cleanzombie
  obtain ⟨hcurrent, helapsed⟩ := cleanzombie_fixed m.sched
  have hdata := congrFun (cleanzombie_data m.sched)
  have hflag := congrArg (fun t => t.flags.slept) (hdata m.sched.current)
  exact h.congr (hq.deltaQueue_congr hq' hslept hcurrent (fun y _ => ticks_of_data (hdata y)) hflag)
    helapsed

theorem Waiting.run (h : Waiting x t n m) (hq : Conserved linked m v)
    {id priority quantum kstack : Nat}
    (hfresh : m.fresh (.thread id)) (hpriority : priority < schedulePriorityMax) :
    Waiting x t n ⟨runFresh m.sched (.thread id) priority quantum kstack,
      .thread id :: m.added⟩ := by
  obtain ⟨v', hv', _, hslept⟩ := hq.run hfresh hpriority
  have hnot := hq.not_mem_of_fresh hfresh
  have hdata : ∀ y ∈ m.sched.current :: v.queues .slept,
      (runFresh m.sched (.thread id) priority quantum kstack).data y = m.sched.data y := by
    intro y hy
    have hmem : y ∈ m.sched.current :: v.threads := by
      rcases List.mem_cons.mp hy with rfl | hy
      · exact List.mem_cons_self
      · exact List.mem_cons_of_mem _ (hq.mem_threads (v.queues.mem_hang hy))
    have hne : y ≠ .thread id := fun heq => hnot (heq ▸ hmem)
    rw [runFresh_data, if_neg hne]
  have hflag := congrArg (fun t => t.flags.slept) (hdata m.sched.current List.mem_cons_self)
  refine h.congr (hq.deltaQueue_congr hv' hslept (runFresh_current _ _ _ _ _)
    (fun y hy => ticks_of_data (hdata y hy)) hflag) ?_
  exact (Unchanged.schedulerAdd (.thread id)).elapsed

theorem Waiting.step {a : Action} (h : Waiting x t n m) (hq : Conserved linked m v)
    (hstep : Guarded Step OnTime m a m') : Waiting x t (n + [a].count .tick) m' := by
  obtain ⟨htime, hstep⟩ := hstep
  cases a with
  | run id priority quantum kstack =>
    obtain ⟨⟨_, hfresh, hpriority⟩, heq⟩ := Option.ite_none_right_eq_some.mp hstep
    cases heq
    exact h.run hq hfresh hpriority
  | tick =>
    simp only [Step, Scheduler.step, Option.map_eq_some_iff] at hstep
    obtain ⟨s', hrun, rfl⟩ := hstep
    have hcount : [Action.tick].count .tick = 1 := rfl
    rw [hcount]
    by_cases hquantum : (countTick m.sched).quantum = 0
    · rw [schedulerTick, if_pos hquantum] at hrun
      have hcharges : m.charges .tick = some (countTick m.sched).elapsed := by
        rw [Machine.charges, if_pos hquantum]
      exact h.tick.pick hq.countTick (htime _ hcharges) hrun
    · rw [schedulerTick, if_neg hquantum] at hrun
      cases hrun
      exact h.tick
  | yield =>
    simp only [Step, Scheduler.step, Option.map_eq_some_iff] at hstep
    obtain ⟨s', hrun, rfl⟩ := hstep
    exact h.pick hq (htime _ rfl) hrun
  | sleep tick =>
    obtain ⟨hcall, heq⟩ := Option.ite_none_right_eq_some.mp hstep
    cases heq
    exact h.sleep hq hcall tick
  | exitthread =>
    obtain ⟨hcall, heq⟩ := Option.ite_none_right_eq_some.mp hstep
    cases heq
    exact h.exitthread hq hcall
  | cleanzombie =>
    obtain ⟨_, heq⟩ := Option.ite_none_right_eq_some.mp hstep
    cases heq
    exact h.cleanzombie hq

theorem Waiting.awake (h : Waiting x t n m) (hq : Conserved linked m v)
    (hawake : (m.sched.tcb x).flags.slept = false) : t ≤ n := by
  rcases h with hle | ⟨w, hw, _⟩
  · exact hle
  · have hslept := hq.slept_of_mem_deltaQueue (DeltaQueue.mem_remaining_name hw)
    exact absurd (hslept.symm.trans hawake) (by simp)

end Waiting

theorem Waiting.of_sleep {m₀ m₁ m₂ : Machine} {as₀ as : List Action} {t : Nat}
    (hreach : Run Step Machine.init as₀ m₀) (hsleep : Step m₀ (.sleep t) m₁) (ht : 0 < t)
    (helapsed : m₀.sched.elapsed = 0) (hrun : Run (Guarded Step OnTime) m₁ as m₂) :
    ∃ v, Conserved True m₂ v ∧ Waiting m₀.sched.current t (as.count .tick) m₂ := by
  obtain ⟨q₀, hq₀⟩ := Conserved.of_run hreach
  obtain ⟨v₁, hv₁, _⟩ := hq₀.step hsleep
  obtain ⟨hcall, heq⟩ := Option.ite_none_right_eq_some.mp hsleep
  have hstart : Waiting m₀.sched.current t 0 m₁ := by
    cases heq
    exact hq₀.waiting_sleep hcall (Nat.ne_of_gt ht) helapsed
  refine hrun.trace_invariant
    (fun bs m => ∃ v, Conserved True m v ∧ Waiting m₀.sched.current t (bs.count .tick) m) ?_
    ⟨v₁, hv₁, hstart⟩
  rintro bs m a m' ⟨v, hv, hwait⟩ hstep
  obtain ⟨v', hv', _⟩ := hv.step hstep.2
  refine ⟨v', hv', ?_⟩
  rw [List.count_append]
  exact hwait.step hv hstep

/-- A thread runs for a tick, sleeps for one, and is awake after the next. -/
theorem short_sleep : ∃ m₀ m₁ m₂ : Machine,
    Run Step Machine.init [.run 1 3 4 0, .tick] m₀ ∧ Step m₀ (.sleep 1) m₁ ∧ m₀.sched.elapsed = 0 ∧
    Run (Guarded Step OnTime) m₁ [.yield, .tick, .yield] m₂ ∧
    (m₂.sched.tcb m₀.sched.current).flags.slept = false := by
  refine ⟨_, _, _, .cons rfl (.cons rfl (.nil _)), rfl, rfl,
    .cons ⟨?_, rfl⟩ (.cons ⟨?_, rfl⟩ (.cons ⟨?_, rfl⟩ (.nil _))), rfl⟩
  · rintro e ⟨⟩
    decide
  · rintro e ⟨⟩
  · rintro e ⟨⟩
    decide

theorem sleeper_not_woken_early {m₀ m₁ m₂ : Machine} {as₀ as : List Action} {t : Nat}
    (hreach : Run Step Machine.init as₀ m₀) (hsleep : Step m₀ (.sleep t) m₁) (ht : 0 < t)
    (helapsed : m₀.sched.elapsed = 0) (hrun : Run (Guarded Step OnTime) m₁ as m₂)
    (hawake : (m₂.sched.tcb m₀.sched.current).flags.slept = false) : t ≤ as.count .tick := by
  obtain ⟨v, hv, hwait⟩ := Waiting.of_sleep hreach hsleep ht helapsed hrun
  exact hwait.awake hv hawake

theorem sleeper_not_woken_early_one : ∃ m₀ m₁ m₂ : Machine,
    Run Step Machine.init [.run 1 3 4 0, .tick] m₀ ∧ Step m₀ (.sleep 1) m₁ ∧
    Run (Guarded Step OnTime) m₁ [.yield, .tick, .yield] m₂ ∧
    1 ≤ [Action.yield, .tick, .yield].count .tick := by
  obtain ⟨m₀, m₁, m₂, hreach, hsleep, helapsed, hrun, hawake⟩ := short_sleep
  exact ⟨m₀, m₁, m₂, hreach, hsleep, hrun,
    sleeper_not_woken_early hreach hsleep Nat.one_pos helapsed hrun hawake⟩

/-- A thread that ran for one tick before it sleeps for one tick is not delayed at all. -/
theorem sleeper_woken_early : ¬ ∀ (m₀ m₁ m₂ : Machine) (as₀ as : List Action) (t : Nat),
    Run Step Machine.init as₀ m₀ → Step m₀ (.sleep t) m₁ → 0 < t → Run Step m₁ as m₂ →
    (m₂.sched.tcb m₀.sched.current).flags.slept = false → t ≤ as.count .tick := by
  intro hclaim
  have hcount := hclaim _ _ _ [.run 1 3 4 0, .tick, .tick] [.yield] 1
    (.cons rfl (.cons rfl (.cons rfl (.nil _)))) rfl Nat.one_pos (.cons rfl (.nil _)) rfl
  exact absurd hcount (by decide)

end OsdevCourse.Scheduler
