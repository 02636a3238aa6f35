import Mathlib.Data.List.Perm.Subperm
import OsdevCourse.RoundRobin
import OsdevCourse.SchedulerSleep

/-!
# Strict priority, and first come first served

A thread becomes runnable when `scheduler_run` adds it, when it gives up the CPU without a mark
and when it wakes up; `arrivals` lists these events of a run in order. Each active list holds
its threads in the order of their last arrivals, and `scheduler_pick` takes the
first thread of the first list that has one.
-/

namespace OsdevCourse.Scheduler

set_option autoImplicit false

/-- The threads that `scheduler_pick` adds to the active lists, in order. -/
def Machine.returning (m : Machine) : List TcbPtr :=
  (if m.atCall then [m.sched.current] else []) ++ due m.sched.elapsed m.deltaQueue

/-- The active list in which `scheduler_pick` looks for its target. -/
def Machine.ready (m : Machine) (q : Queues) (p : Nat) : List TcbPtr :=
  q (.active p) ++ m.returning.filter fun y => (m.sched.tcb y).priority = p

theorem Queued.unique {linked : Prop} {s : State} {q q' : Queues} (h : Queued linked s q none)
    (h' : Queued linked s q' none) : q = q' := by
  funext l
  have hpath := h.path l
  have hpath' := h'.path l
  rw [Queues.hang_none] at hpath hpath'
  exact hpath.functional hpath'

theorem Queues.enqueueAll_active (q : Queues) (priority : TcbPtr → Nat)
    (xs : List TcbPtr) (p : Nat) :
    q.enqueueAll priority xs (.active p) = q (.active p) ++ xs.filter fun y => priority y = p := by
  induction xs generalizing q with
  | nil => simp [enqueueAll]
  | cons x xs ih =>
    rw [enqueueAll, ih]
    by_cases hx : priority x = p
    · subst hx
      rw [enqueue, set_self, List.filter_cons_of_pos (by simp), List.append_assoc,
        List.singleton_append]
    · have hne : ListId.active p ≠ .active (priority x) :=
        fun heq => hx (ListId.active.inj heq).symm
      rw [enqueue, q.set_other _ hne, List.filter_cons_of_neg (by simpa using hx)]

theorem pickTarget_first {linked : Prop} {s s' : State} {q : Queues} {x : TcbPtr} {ps : List Nat}
    (h : Queued linked s q none) (hps : ps.Pairwise (· < ·))
    (hrun : pickTarget ps s = some (x, s')) :
    ∃ p ∈ ps, ∃ xs, q (.active p) = x :: xs ∧ (∀ j ∈ ps, j < p → q (.active j) = []) ∧
      s' = unlinkTarget s (.active p) x := by
  induction ps with
  | nil => exact absurd hrun (by simp [pickTarget])
  | cons i ps ih =>
    have hpath := h.path (.active i)
    rw [Queues.hang_none] at hpath
    obtain ⟨hlt, hps⟩ := List.pairwise_cons.mp hps
    cases hq : q (.active i) with
    | nil =>
      rw [hq] at hpath
      have hnone : s.next (.head (.active i)) = none := hpath
      simp only [pickTarget, hnone] at hrun
      obtain ⟨p, hp, xs, hxs, hempty, heq⟩ := ih hps hrun
      refine ⟨p, List.mem_cons_of_mem i hp, xs, hxs, fun j hj hjp => ?_, heq⟩
      rcases List.mem_cons.mp hj with rfl | hj
      · exact hq
      · exact hempty j hj hjp
    | cons y ys =>
      rw [hq] at hpath
      have hnext : s.next (.head (.active i)) = some y := hpath.1
      simp only [pickTarget, hnext, Option.some.injEq, Prod.mk.injEq] at hrun
      obtain ⟨rfl, rfl⟩ := hrun
      refine ⟨i, List.mem_cons_self, ys, hq, fun j hj hji => ?_, rfl⟩
      rcases List.mem_cons.mp hj with rfl | hj
      · exact absurd hji (Nat.lt_irrefl j)
      · exact absurd (hlt j hj) (Nat.lt_asymm hji)

section Pick
variable {linked : Prop} {m m' : Machine} {q q' : Queues} {s' : State}

theorem Conserved.nodes_ofQueues (h : Conserved linked m (.ofQueues q)) :
    Queued linked m.sched q none := h.queued

theorem Conserved.parked_lists (h : Conserved linked m (.ofQueues q)) :
    ∃ s q₁, park m.fuel m.sched = some s ∧ Unchanged (chargeCurrent m.sched) s ∧
      Queued linked s q₁ none ∧
      (∀ y, (s.data y).place = (m.sched.data y).place) ∧
      s.deltas (q₁ .slept) = m.deltaQueue ∧ (q₁ .slept).length < m.fuel ∧
      ∀ p, q₁ (.active p) = q (.active p) ++
        (if m.atCall then [m.sched.current] else []).filter fun y =>
            (m.sched.tcb y).priority = p := by
  obtain ⟨l, hl⟩ := h.current
  have hc := (h.thread _ h.current_mem).1
  have habsent : (q.hang none).Absent m.sched.current := h.absent
  obtain ⟨s, xs, hung, hpark, hunch, hhung, hqueued, hperm, hdeltas, hplace, _⟩ :=
    park_spec h.nodes_ofQueues hc habsent hl (Nat.lt_of_succ_lt h.fuel_enough)
  have hnone : hung = none := hhung.elim id id
  subst hnone
  have hqueue : s.deltas (q.set l xs .slept) = m.deltaQueue := by
    rw [h.deltaQueue_parked hl]
    exact hdeltas
  have hlen : (q.set l xs .slept).length < m.fuel := by
    have hfuel : (q .slept).length + 1 < m.fuel := h.fuel_enough
    by_cases hslept : l = .slept
    · subst hslept
      rw [Queues.set_self, hperm.length_eq]
      exact hfuel
    · rw [q.set_other xs (Ne.symm hslept)]
      exact Nat.lt_of_succ_lt hfuel
  refine ⟨s, _, hpark, hunch, hqueued, hplace, hqueue, hlen, fun p => ?_⟩
  have hflags : (m.sched.data m.sched.current).flags = (m.sched.tcb m.sched.current).flags := rfl
  cases l with
  | active i =>
    -- the thread stays runnable: `scheduler_add` puts it at the end of its list
    have hcall : m.atCall := hl.2
    have hpriority : (m.sched.tcb m.sched.current).priority = i := hl.1
    have hbelongs := hl.chargeCurrent
    have hadd := h.nodes_ofQueues.chargeCurrent.add hc habsent hbelongs.2
    rw [chargeCurrent_priority, hpriority] at hadd
    have hrun : park m.fuel m.sched = some
        (schedulerAdd (chargeCurrent m.sched) m.sched.current) := by
      have hclear := congrArg Prod.snd (chargeCurrent_place (s := m.sched) (y := m.sched.current))
      have hzero : ((chargeCurrent m.sched).tcb m.sched.current).flags = .clear :=
        hclear.trans hcall
      simp [park, hzero, Flags.clear]
    have hsame : s = schedulerAdd (chargeCurrent m.sched) m.sched.current :=
      Option.some.inj (hpark.symm.trans hrun)
    rw [hsame] at hqueued
    rw [hqueued.unique hadd, if_pos hcall]
    have hone := q.enqueueAll_active (fun y => (m.sched.tcb y).priority) [m.sched.current] p
    rw [← hone, Queues.enqueueAll, hpriority]
    rfl
  | slept =>
    have hnot : ¬ m.atCall := by
      intro hcall
      exact absurd (hl.unique (m := .active _) ⟨rfl, hcall⟩) (by simp)
    rw [q.set_other xs (by simp), if_neg hnot, List.filter_nil, List.append_nil]
  | zombie =>
    have hnot : ¬ m.atCall := by
      intro hcall
      exact absurd (hl.unique (m := .active _) ⟨rfl, hcall⟩) (by simp)
    rw [q.set_other xs (by simp), if_neg hnot, List.filter_nil, List.append_nil]

/-- What a pick does to the lists: its target is the first of the first list that is not empty. -/
structure Served (linked : Prop) (m : Machine) (q : Queues) (s' : State) (q' : Queues) : Prop where
  conserved : Conserved linked (m.withSched s') (.ofQueues q')
  flags : (s'.tcb s'.current).flags = .clear
  priority : ∀ y, (s'.tcb y).priority = (m.sched.tcb y).priority
  deltas : (m.withSched s').deltaQueue = left m.sched.elapsed m.deltaQueue
  above : ∀ p < (s'.tcb s'.current).priority, m.ready q p = []
  first : m.ready q (s'.tcb s'.current).priority =
    s'.current :: q' (.active (s'.tcb s'.current).priority)
  other : ∀ p, p ≠ (s'.tcb s'.current).priority → q' (.active p) = m.ready q p

theorem Conserved.served (h : Conserved linked m (.ofQueues q))
    (hrun : schedulerYield m.fuel m.sched = some s') : ∃ q', Served linked m q s' q' := by
  obtain ⟨v', l, hy⟩ := h.yield hrun
  have hlayout := hy.settles.ofQueues
  have hconserved := hy.conserved
  rw [hlayout] at hconserved
  obtain ⟨s₁, q₁, hpark, hunch₁, hqueued₁, hplace₁, hdeltas₁, hlen, hlists₁⟩ := h.parked_lists
  obtain ⟨s₂, hung₂, hawake, hunch₂, hhung₂, hqueued₂, _, _, _⟩ := awakeAll_spec hqueued₁ rfl hlen
  have hnone : hung₂ = none := hhung₂.elim id id
  subst hnone
  have helapsed : s₁.elapsed = m.sched.elapsed := hunch₁.elapsed
  have hpriority₁ : (fun y => (s₁.tcb y).priority) = fun y => (m.sched.tcb y).priority := by
    funext y
    have hsame := congrArg Prod.fst (hplace₁ y)
    exact hsame
  rw [hdeltas₁, helapsed, hpriority₁] at hqueued₂
  generalize hw : (q₁.set .slept ((left m.sched.elapsed m.deltaQueue).map Prod.fst)).enqueueAll
    (fun y => (m.sched.tcb y).priority) (due m.sched.elapsed m.deltaQueue) = w at hqueued₂
  have hready : ∀ p, w (.active p) = m.ready q p := by
    intro p
    rw [← hw, Queues.enqueueAll_active, Queues.set_other _ _ (by simp), hlists₁, Machine.ready,
      Machine.returning, List.filter_append, List.append_assoc]
  rw [schedulerYield, schedulerPick_eq, hpark, Option.bind_some, hawake, Option.bind_some] at hrun
  cases htarget : pickTarget (List.range schedulePriorityMax) s₂ with
  | none => simp [htarget] at hrun
  | some r =>
    obtain ⟨x, s₃⟩ := r
    simp only [htarget, Option.map_some, Option.bind_eq_bind, Option.bind_some, Option.pure_def,
      Option.some.injEq] at hrun
    obtain ⟨p, hp, xs, hxs, hempty, rfl⟩ :=
      pickTarget_first hqueued₂ (List.pairwise_lt_range) htarget
    have hcurrent : s'.current = x := by
      rw [← hrun]
    have htaken : Taken w none p x (w.set (.active p) xs) none := Or.inl ⟨xs, hxs, rfl, rfl⟩
    have hqueued₃ : Queued linked s' (w.set (.active p) xs) none := by
      rw [← hrun]
      exact ((hqueued₂.unlinkTarget htaken).dispatch x).congr (fun _ _ _ => rfl)
        (fun _ _ _ _ => rfl) rfl
        fun _ _ _ => rfl
    have hlists : v'.queues = w.set (.active p) xs := hconserved.nodes_ofQueues.unique hqueued₃
    have hown : (m.sched.tcb x).priority = p := by
      have hmem : x ∈ w.hang none (.active p) := by
        rw [Queues.hang_none, hxs]
        exact List.mem_cons_self
      have hbelongs : (s₂.tcb x).priority = p := (hqueued₂.member _ x hmem).2.1
      rw [hunch₂.priority x] at hbelongs
      exact (congrFun hpriority₁ x).symm.trans hbelongs
    have hpriority : (s'.tcb s'.current).priority = p := by
      rw [hy.priority, hcurrent, hown]
    refine ⟨v'.queues, hconserved, hy.flags, hy.priority, hy.deltaQueue h, ?_, ?_, ?_⟩
    · intro j hj
      rw [hpriority] at hj
      rw [← hready]
      exact hempty j (List.mem_range.mpr (Nat.lt_trans hj (List.mem_range.mp hp))) hj
    · rw [hpriority, hcurrent, ← hready, hxs, hlists, Queues.set_self]
    · intro j hj
      rw [hpriority] at hj
      rw [hlists, ← hready]
      exact w.set_other xs fun heq => hj (ListId.active.inj heq)

/-- Who may come to the active lists in a pick: the current thread and the sleepers. -/
theorem Conserved.returning_perm (h : Conserved linked m (.ofQueues q)) :
    (m.returning ++ (left m.sched.elapsed m.deltaQueue).map Prod.fst).Perm
    (m.sched.current :: q .slept) ∨
    (m.returning ++ (left m.sched.elapsed m.deltaQueue).map Prod.fst).Perm (q .slept) := by
  have hnames : m.returning ++ (left m.sched.elapsed m.deltaQueue).map Prod.fst =
      (if m.atCall then [m.sched.current] else []) ++ m.deltaQueue.map Prod.fst := by
    rw [Machine.returning, List.append_assoc, due_append_left]
  rw [hnames, h.deltaQueue]
  by_cases hcall : m.atCall
  · have hslept : (m.sched.tcb m.sched.current).flags.slept = false := congrArg Flags.slept hcall
    rw [if_pos hcall, if_neg (by simp [hslept]), deltas_names]
    exact Or.inl (.refl _)
  · rw [if_neg hcall, List.nil_append]
    by_cases hslept : (m.sched.tcb m.sched.current).flags.slept = true
    · rw [if_pos hslept]
      refine Or.inl ((DeltaQueue.insert_names _ _ _).trans ?_)
      rw [deltas_names]
      exact .refl _
    · rw [if_neg hslept, deltas_names]
      exact Or.inr (.refl _)

theorem Conserved.returning_mem (h : Conserved linked m (.ofQueues q)) {x : TcbPtr}
    (hx : x ∈ m.returning) :
    x ∈ m.sched.current :: q .slept := by
  have hall := List.mem_append_left ((left m.sched.elapsed m.deltaQueue).map Prod.fst) hx
  rcases h.returning_perm with hperm | hperm
  · exact hperm.subset hall
  · exact List.mem_cons_of_mem _ (hperm.subset hall)

theorem Conserved.returning_nodup (h : Conserved linked m (.ofQueues q)) : m.returning.Nodup := by
  have hpath := h.nodes_ofQueues.path .slept
  rw [Queues.hang_none] at hpath
  have hslept : (q .slept).Nodup := (List.nodup_cons.mp hpath.nodup).2
  have hcurrent : m.sched.current ∉ q .slept := fun hmem => h.absent .slept (q.mem_hang hmem)
  rcases h.returning_perm with hperm | hperm
  · exact (List.nodup_append.mp (hperm.symm.nodup (List.nodup_cons.mpr ⟨hcurrent, hslept⟩))).1
  · exact (List.nodup_append.mp (hperm.symm.nodup hslept)).1

theorem Conserved.returning_new (h : Conserved linked m (.ofQueues q)) (p : Nat) {x : TcbPtr}
    (hx : x ∈ m.returning) : x ∉ q (.active p) := by
  intro hmem
  rcases List.mem_cons.mp (h.returning_mem hx) with rfl | hslept
  · exact h.absent (.active p) (q.mem_hang hmem)
  · have hlist := h.nodes_ofQueues.same_list (q.mem_hang hmem) (q.mem_hang hslept)
    exact absurd hlist (by simp)

end Pick

/-! The arrivals of a run. -/

def Action.adds : Action → List TcbPtr
  | .run id _ _ _ => [.thread id]
  | _ => []

/-- The threads that were asleep and are not any more, in the order of their sleep. -/
def Machine.awoken (m m' : Machine) : List TcbPtr :=
  (m.deltaQueue.map Prod.fst).filter fun x => !(m'.sched.tcb x).flags.slept

/-- The threads that become runnable in a step, in order. -/
def Machine.readied (m : Machine) (a : Action) (m' : Machine) : List TcbPtr :=
  match m.pickCall a with
  | none => a.adds
  | some e => (if e.atCall then [e.sched.current] else []) ++ e.awoken m'

def arrivals : Machine → List Action → List TcbPtr
  | _, [] => []
  | m, a :: as =>
    match step m a with
    | none => []
    | some m' => m.readied a m' ++ arrivals m' as

theorem arrivals_snoc {m m' m'' : Machine} {a : Action} {as : List Action} (hrun : Run Step m as m')
    (hstep : Step m' a m'') : arrivals m (as ++ [a]) = arrivals m as ++ m'.readied a m'' := by
  induction hrun with
  | nil =>
    simp only [List.nil_append, arrivals]
    rw [show step _ a = some m'' from hstep]
    simp
  | cons h _ ih =>
    simp only [List.cons_append, arrivals]
    rw [show step _ _ = some _ from h]
    simp only [ih hstep, List.append_assoc]

section Steps
variable {linked : Prop} {m m' e : Machine} {q q' : Queues} {s' : State} {a : Action}

theorem Served.awoken (hs : Served linked m q s' q') :
    m.awoken (m.withSched s') = due m.sched.elapsed m.deltaQueue := by
  rw [Machine.awoken, ← due_append_left m.sched.elapsed m.deltaQueue, List.filter_append]
  have hdue : ∀ x ∈ due m.sched.elapsed m.deltaQueue, (s'.tcb x).flags.slept = false := by
    intro x hx
    have hready : x ∈ m.ready q (m.sched.tcb x).priority := by
      refine List.mem_append_right _ (List.mem_filter.mpr ⟨?_, by simp⟩)
      exact List.mem_append_right _ hx
    have hactive : x = s'.current ∨ x ∈ q' (.active (m.sched.tcb x).priority) := by
      by_cases hp : (m.sched.tcb x).priority = (s'.tcb s'.current).priority
      · rw [hp, hs.first] at hready
        rw [hp]
        exact List.mem_cons.mp hready
      · rw [hs.other _ hp]
        exact Or.inr hready
    rcases hactive with rfl | hmem
    · rw [hs.flags]
      rfl
    · have hclear := (hs.conserved.nodes_ofQueues.member _ x (q'.mem_hang hmem)).2.2
      exact congrArg Flags.slept hclear
  have hleft : ∀ x ∈ (left m.sched.elapsed m.deltaQueue).map Prod.fst,
      (s'.tcb x).flags.slept = true := by
    intro x hx
    rw [← hs.deltas] at hx
    exact hs.conserved.slept_of_mem_deltaQueue hx
  rw [List.filter_eq_self.mpr fun x hx => ?_, List.filter_eq_nil_iff.mpr fun x hx => ?_,
    List.append_nil]
  · simpa [Machine.withSched] using hleft x hx
  · simpa [Machine.withSched] using hdue x hx

/-- A step with a pick is the call of `scheduler_yield` in its machine. -/
theorem Conserved.pick_step (h : Conserved linked m (.ofQueues q)) (hcall : m.pickCall a = some e)
    (hstep : Step m a m') : ∃ s' q', m' = e.withSched s' ∧ Served linked e q s' q' ∧
      m.readied a m' = e.returning := by
  have he := h.pickCall hcall
  rw [Step, step_of_pickCall hcall, Option.map_eq_some_iff] at hstep
  obtain ⟨s', hrun, rfl⟩ := hstep
  obtain ⟨q', hs⟩ := he.served hrun
  refine ⟨s', q', rfl, hs, ?_⟩
  simp only [Machine.readied, hcall]
  rw [hs.awoken, Machine.returning]

/-- A step without a pick keeps the current thread, and no active list loses a thread. -/
structure Idle (linked : Prop) (m : Machine) (q : Queues) (a : Action) (m' : Machine)
    (q' : Queues) :
    Prop where
  conserved : Conserved linked m' (.ofQueues q')
  current : m'.sched.current = m.sched.current
  active : ∀ p, (q (.active p)) <+: q' (.active p)
  arrived : ∀ p, (q' (.active p)).Sublist (q (.active p) ++ a.adds)
  added : a.adds.Nodup ∧ ∀ x ∈ a.adds, ∀ p, x ∉ q (.active p)

theorem Idle.of_same (h : Conserved linked m' (.ofQueues q))
    (hcurrent : m'.sched.current = m.sched.current)
    (hadds : a.adds = []) : Idle linked m q a m' q := by
  refine ⟨h, hcurrent, fun p => List.prefix_refl _, fun p => List.sublist_append_left _ _, ?_⟩
  rw [hadds]
  exact ⟨List.nodup_nil, fun x hx => absurd hx List.not_mem_nil⟩

theorem Conserved.run_lists (h : Conserved linked m (.ofQueues q))
    {id priority quantum kstack : Nat}
    (hfresh : m.fresh (.thread id)) (hpriority : priority < schedulePriorityMax) :
    Conserved linked ⟨runFresh m.sched (.thread id) priority quantum kstack, .thread id :: m.added⟩
      (.ofQueues (q.enqueue priority (.thread id))) := by
  obtain ⟨v', hv', hsettles, _⟩ : ∃ v', Conserved linked
      ⟨runFresh m.sched (.thread id) priority quantum kstack, .thread id :: m.added⟩ v' ∧
      (Layout.ofQueues q).Settles v' ∧ v'.queues .slept = q .slept := h.run hfresh hpriority
  rw [hsettles.ofQueues] at hv'
  have habsent : (q.hang none).Absent (.thread id) := fun _ hmem =>
    h.not_mem_of_fresh hfresh (List.mem_cons_of_mem _ (h.mem_threads hmem))
  have hthread : (TcbPtr.thread id).IsThread := trivial
  have hadd := (h.nodes_ofQueues.init habsent hthread priority quantum kstack).add hthread habsent
    (by simp [assignThreadId, State.data, tcbInit, zeroTcb])
  have hpr : ((assignThreadId (m.sched.modify (.thread id) fun _ => tcbInit priority quantum kstack)
      (.thread id)).tcb (.thread id)).priority = priority := by simp [assignThreadId, tcbInit]
  rw [hpr] at hadd
  rw [← hv'.nodes_ofQueues.unique hadd]
  exact hv'

theorem Conserved.idle_lists (h : Conserved linked m (.ofQueues q)) (hstep : Step m a m')
    (hcall : m.pickCall a = none) : ∃ q', Idle linked m q a m' q' := by
  cases a with
  | run id priority quantum kstack =>
    obtain ⟨⟨_, hfresh, hpriority⟩, heq⟩ := Option.ite_none_right_eq_some.mp hstep
    cases heq
    have hnew : ∀ p, TcbPtr.thread id ∉ q (.active p) := fun p hmem =>
      h.not_mem_of_fresh hfresh (List.mem_cons_of_mem _ (h.mem_threads (q.mem_hang hmem)))
    refine ⟨_, h.run_lists hfresh hpriority, runFresh_current _ _ _ _ _, fun p => ?_, fun p => ?_,
      List.nodup_singleton _, fun x hx p => ?_⟩
    · by_cases hp : ListId.active p = .active priority
      · rw [hp, Queues.enqueue, Queues.set_self]
        exact List.prefix_append _ _
      · rw [Queues.enqueue, q.set_other _ hp]
    · by_cases hp : ListId.active p = .active priority
      · rw [hp, Queues.enqueue, Queues.set_self]
        exact List.Sublist.refl _
      · rw [Queues.enqueue, q.set_other _ hp]
        exact List.sublist_append_left _ _
    · rw [List.mem_singleton.mp hx]
      exact hnew p
  | tick =>
    rw [Machine.pickCall, ite_eq_right_iff] at hcall
    have hquantum : (Scheduler.countTick m.sched).quantum ≠ 0 := fun hzero =>
      Option.some_ne_none _ (hcall hzero)
    simp only [Step, Scheduler.step, Option.map_eq_some_iff] at hstep
    obtain ⟨s', hrun, rfl⟩ := hstep
    rw [schedulerTick, if_neg hquantum] at hrun
    cases hrun
    exact ⟨q, .of_same h.countTick rfl rfl⟩
  | yield => simp [Machine.pickCall] at hcall
  | sleep tick =>
    obtain ⟨hat, heq⟩ := Option.ite_none_right_eq_some.mp hstep
    cases heq
    exact ⟨q, .of_same (h.sleep hat tick) (sleepMark_counters m.sched tick).2.2 rfl⟩
  | exitthread =>
    obtain ⟨hat, heq⟩ := Option.ite_none_right_eq_some.mp hstep
    cases heq
    exact ⟨q, .of_same (h.exitthread hat) rfl rfl⟩
  | cleanzombie =>
    obtain ⟨_, heq⟩ := Option.ite_none_right_eq_some.mp hstep
    cases heq
    obtain ⟨q', hq', _⟩ := h.cleanzombie
    have hactive : ∀ p, q' (.active p) = q (.active p) := by
      intro p
      have hpath := h.nodes_ofQueues.path (.active p)
      have hpath' := hq'.nodes_ofQueues.path (.active p)
      rw [Queues.hang_none] at hpath hpath'
      refine hpath'.functional (hpath.congr fun y hy => cleanzombie_next fun heq => ?_)
      have hnode : y ∈ TcbPtr.head (.active p) :: q.hang none (.active p) := by
        rwa [Queues.hang_none]
      have hhead : y ∈ TcbPtr.head .zombie :: q.hang none .zombie := by
        rw [heq]
        exact List.mem_cons_self
      exact absurd (h.nodes_ofQueues.same_node hnode hhead) (by simp)
    refine ⟨q', hq', (cleanzombie_fixed m.sched).1, fun p => ?_, fun p => ?_, List.nodup_nil,
      fun x hx => absurd hx List.not_mem_nil⟩
    · rw [hactive]
    · rw [hactive]
      exact List.sublist_append_left _ _

/-- The active lists take up who arrives, at their ends, and lose the target of a pick. -/
theorem Conserved.arrive (h : Conserved linked m (.ofQueues q)) (hstep : Step m a m') :
    ∃ q', Conserved linked m' (.ofQueues q') ∧ (m.readied a m').Nodup ∧
      (∀ p, ∀ x ∈ m.readied a m', x ∉ q (.active p)) ∧
      ∀ p, (q' (.active p)).Sublist (q (.active p) ++ m.readied a m') := by
  cases hcall : m.pickCall a with
  | none =>
    obtain ⟨q', hidle⟩ := h.idle_lists hstep hcall
    have hreadied : m.readied a m' = a.adds := by simp only [Machine.readied, hcall]
    rw [hreadied]
    exact ⟨q', hidle.conserved, hidle.added.1, fun p x hx => hidle.added.2 x hx p, hidle.arrived⟩
  | some e =>
    have he := h.pickCall hcall
    obtain ⟨s', q', rfl, hs, hreadied⟩ := h.pick_step hcall hstep
    rw [hreadied]
    refine ⟨q', hs.conserved, he.returning_nodup, fun p x hx => he.returning_new p hx, fun p => ?_⟩
    have hready : (e.ready q p).Sublist (q (.active p) ++ e.returning) :=
      List.filter_sublist.append_left (q (.active p))
    refine List.Sublist.trans ?_ hready
    by_cases hp : p = (s'.tcb s'.current).priority
    · subst hp
      rw [hs.first]
      exact List.sublist_cons_self _ _
    · rw [hs.other p hp]

/-- The lists of a run, in the order of the arrivals. -/
def Ordered (log : List TcbPtr) (q : Queues) : Prop := ∀ p, (q (.active p)).Sublist log.dedup

theorem Ordered.of_run {as : List Action} (hrun : Run Step Machine.init as m) :
    ∃ q, Conserved True m (.ofQueues q) ∧ Ordered (arrivals Machine.init as) q := by
  have hend := hrun.trace_invariant (fun bs m => Run Step Machine.init bs m ∧
    ∃ q, Conserved True m (.ofQueues q) ∧ Ordered (arrivals Machine.init bs) q) ?_
    ⟨.nil _, _, Conserved.init, fun p => List.nil_sublist _⟩
  · exact hend.2
  · rintro bs m a m' ⟨hbs, q, hq, hordered⟩ hstep
    obtain ⟨q', hq', hnodup, hnew, hsub⟩ := hq.arrive hstep
    refine ⟨hbs.snoc hstep, q', hq', fun p => ?_⟩
    rw [arrivals_snoc hbs hstep]
    exact (hsub p).trans (sublist_dedup_append (hordered p) hnodup (hnew p))

end Steps

/-! The picks of a run, one after the other. -/

/-- An active list, as following the links from its head gives it. -/
def Machine.activeThreads (m : Machine) (p : Nat) : List TcbPtr :=
  walk m.sched.next m.fuel (.head (.active p))

/-- Right after a pick: the runnable threads of the highest priority that has any. -/
def Machine.ring (m : Machine) : List TcbPtr :=
  m.sched.current :: m.activeThreads (m.sched.tcb m.sched.current).priority

/-- The machines right after the picks of a run, in order. -/
inductive Picks : Machine → List Machine → Prop where
  | nil (m : Machine) : Picks m []
  | idle {m m' : Machine} {a : Action} {ms : List Machine} :
    Step m a m' → m.pickCall a = none → Picks m' ms → Picks m ms
  | pick {m m' : Machine} {a : Action} {ms : List Machine} :
    Step m a m' → m.pickCall a ≠ none → Picks m' ms → Picks m (m' :: ms)

section Rings
variable {linked : Prop} {m m' e : Machine} {q q' : Queues} {s' : State} {a : Action} {x : TcbPtr}
  {xs : List TcbPtr} {ms : List Machine}

theorem Conserved.active_length (h : Conserved linked m (.ofQueues q)) (p : Nat) :
    (q (.active p)).length < m.fuel := by
  have hnodup : (q (.active p)).Nodup := by
    have hpath := h.nodes_ofQueues.path (.active p)
    rw [Queues.hang_none] at hpath
    exact (List.nodup_cons.mp hpath.nodup).2
  have hsub : q (.active p) ⊆ m.added := fun y hy => h.listed (.active p) y (q.mem_hang hy)
  have hlen := (List.Nodup.subperm hnodup hsub).length_le
  unfold Machine.fuel
  omega

theorem Conserved.activeThreads (h : Conserved linked m (.ofQueues q)) (p : Nat) :
    m.activeThreads p = q (.active p) := by
  have hpath := h.nodes_ofQueues.path (.active p)
  rw [Queues.hang_none] at hpath
  exact hpath.walk_eq (h.active_length p)

/-- Since the last pick: the current thread came first, and these were left behind it. -/
structure Serving (linked : Prop) (m : Machine) (q : Queues) (x : TcbPtr)
    (xs : List TcbPtr) (p : Nat) :
    Prop where
  conserved : Conserved linked m (.ofQueues q)
  current : m.sched.current = x
  priority : (m.sched.tcb x).priority = p
  behind : xs <+: q (.active p)

theorem Served.serving (hs : Served linked m q s' q') : ∃ xs p,
    Serving linked (m.withSched s') q' s'.current xs p ∧ (m.withSched s').ring = s'.current :: xs ∧
    (m.withSched s').ring = m.ready q p := by
  refine ⟨_, _, ⟨hs.conserved, rfl, rfl, List.prefix_refl _⟩, ?_, ?_⟩
  · rw [Machine.ring, hs.conserved.activeThreads]
    rfl
  · rw [Machine.ring, hs.conserved.activeThreads]
    exact hs.first.symm

theorem Serving.idle {p : Nat} (h : Serving linked m q x xs p) (hstep : Step m a m')
    (hcall : m.pickCall a = none) : ∃ q', Serving linked m' q' x xs p := by
  obtain ⟨q', hidle⟩ := h.conserved.idle_lists hstep hcall
  obtain ⟨_, _, _, hkeeps⟩ := h.conserved.step hstep
  have hused : ¬ m.fresh x := by
    intro hfresh
    apply h.conserved.not_mem_of_fresh hfresh
    rw [h.current]
    exact List.mem_cons_self
  refine ⟨q', hidle.conserved, hidle.current.trans h.current, ?_, h.behind.trans (hidle.active p)⟩
  rw [hkeeps x hused]
  exact h.priority

theorem pickCall_tcb (hcall : m.pickCall a = some e) : e.sched.tcb = m.sched.tcb := by
  cases a with
  | tick =>
    rw [Machine.pickCall, Option.ite_none_right_eq_some] at hcall
    obtain ⟨_, heq⟩ := hcall
    cases heq
    rfl
  | yield =>
    cases hcall
    rfl
  | run | sleep | exitthread | cleanzombie => simp [Machine.pickCall] at hcall

theorem Serving.pick {p : Nat} (h : Serving linked m q x xs p) (hcall : m.pickCall a = some e)
    (hs : Served linked e q s' q') (hring : (e.withSched s').ring.Perm (x :: xs)) :
    (e.withSched s').ring = (x :: xs).rotate 1 := by
  obtain ⟨xs', p', hserving, hhead, hready⟩ := hs.serving
  have hpriority : (s'.tcb s'.current).priority = p' := hserving.priority
  have hsame : (s'.tcb s'.current).priority = p := by
    have hmem : s'.current ∈ x :: xs := by
      apply hring.subset
      rw [hhead]
      exact List.mem_cons_self
    rw [hs.priority, pickCall_tcb hcall]
    rcases List.mem_cons.mp hmem with heq | hmem
    · rw [heq]
      exact h.priority
    · have hlisted : s'.current ∈ q.hang none (.active p) := q.mem_hang (h.behind.subset hmem)
      exact (h.conserved.nodes_ofQueues.member _ _ hlisted).2.1
  obtain ⟨ys, hys⟩ := h.behind
  rw [← hpriority, hsame, Machine.ready, ← hys, List.append_assoc] at hready
  rw [hready] at hring ⊢
  exact rotate_one_of_perm hring

theorem Serving.rings {p : Nat} (h : Serving linked m q x xs p) (hpicks : Picks m ms)
    (hrings : ∀ m' ∈ ms, m'.ring.Perm (x :: xs)) :
    ∀ i, ∀ m' ∈ ms[i]?, m'.ring = (x :: xs).rotate (i + 1) := by
  induction hpicks generalizing q x xs p with
  | nil => simp
  | idle hstep hcall _ ih =>
    obtain ⟨q', hq'⟩ := h.idle hstep hcall
    exact ih hq' hrings
  | pick hstep hcall _ ih =>
    obtain ⟨e, hcall⟩ := Option.ne_none_iff_exists'.mp hcall
    obtain ⟨s', q', rfl, hs, _⟩ := h.conserved.pick_step hcall hstep
    have hturn := h.pick hcall hs (hrings _ List.mem_cons_self)
    obtain ⟨xs', p', hserving, hhead, _⟩ := hs.serving
    rw [hhead] at hturn
    intro i m' hm'
    cases i with
    | zero =>
      simp only [List.getElem?_cons_zero, Option.mem_def, Option.some.injEq] at hm'
      rw [← hm', hhead, hturn]
    | succ i =>
      have hrest := ih hserving (fun m'' hm'' => ?_) i m' (by simpa using hm')
      · rw [hrest, hturn, List.rotate_rotate, Nat.add_comm 1]
      · rw [hturn]
        exact (hrings m'' (List.mem_cons_of_mem _ hm'')).trans (List.rotate_perm _ 1).symm

/-- As long as the threads of the highest priority stay the same, they take turns. -/
theorem Conserved.turns {threads : List TcbPtr} (h : Conserved linked m (.ofQueues q))
    (hpicks : Picks m ms)
    (hrings : ∀ m' ∈ ms, m'.ring.Perm threads) :
    ∃ ring, ring.Perm threads ∧ Turns ring (ms.map fun m' => m'.sched.current) ∧
      (ms ≠ [] → ring.Nodup) := by
  induction hpicks generalizing q with
  | nil => exact ⟨threads, .refl _, fun i x hx => by simp at hx, fun hne => absurd rfl hne⟩
  | idle hstep hcall _ ih =>
    obtain ⟨q', hidle⟩ := h.idle_lists hstep hcall
    exact ih hidle.conserved hrings
  | pick hstep hcall hpicks _ =>
    obtain ⟨e, hcall⟩ := Option.ne_none_iff_exists'.mp hcall
    obtain ⟨s', q', rfl, hs, _⟩ := h.pick_step hcall hstep
    obtain ⟨xs', p', hserving, hhead, _⟩ := hs.serving
    have hfirst := hrings _ List.mem_cons_self
    have hrest := hserving.rings hpicks fun m'' hm'' => by
      rw [← hhead]
      exact (hrings m'' (List.mem_cons_of_mem _ hm'')).trans hfirst.symm
    refine ⟨_, hfirst, fun i x hx => ?_, fun _ => ?_⟩
    · rw [hhead]
      cases i with
      | zero =>
        have hx' : some s'.current = some x := hx
        simpa using hx'
      | succ i =>
        rw [List.map_cons, List.getElem?_cons_succ, List.getElem?_map, Option.mem_def,
          Option.map_eq_some_iff] at hx
        obtain ⟨m', hm', rfl⟩ := hx
        rw [← hrest i m' hm']
        rfl
    · have hpath := hs.conserved.nodes_ofQueues.path (.active (s'.tcb s'.current).priority)
      rw [Queues.hang_none] at hpath
      have habsent : s'.current ∉ q' (.active (s'.tcb s'.current).priority) := fun hmem =>
        hs.conserved.absent _ (q'.mem_hang hmem)
      rw [Machine.ring, hs.conserved.activeThreads]
      exact List.nodup_cons.mpr ⟨habsent, (List.nodup_cons.mp hpath.nodup).2⟩

end Rings

/-- The current thread stays runnable, or another one is. -/
def Machine.CanPick (m : Machine) : Prop :=
  m.atCall ∨ ∃ p < schedulePriorityMax, m.sched.next (.head (.active p)) ≠ none

theorem Conserved.pick_returns {linked : Prop} {m e : Machine} {q : Queues} {a : Action}
    (h : Conserved linked m (.ofQueues q)) (hcall : m.pickCall a = some e) (hcan : e.CanPick) :
    ∃ m', Step m a m' := by
  have he := h.pickCall hcall
  have hreturns := he.yield_returns (hcan.imp_right ?_)
  · obtain ⟨m', hm'⟩ := hreturns
    exact ⟨m', (step_of_pickCall hcall).trans hm'⟩
  · rintro ⟨p, hp, hnext⟩
    refine ⟨p, hp, fun hnil => hnext ?_⟩
    have hpath := he.nodes_ofQueues.path (.active p)
    rw [Queues.hang_none] at hpath
    rwa [show q (.active p) = [] from hnil] at hpath

theorem strict_priority_first_come_first_served {m : Machine} {as : List Action}
    (hrun : Run Step Machine.init as m) :
    (∀ a e, m.pickCall a = some e → e.CanPick → ∃ m', Step m a m') ∧
    (∀ a m', m.pickCall a ≠ none → Step m a m' →
      (m'.sched.tcb m'.sched.current).flags = .clear ∧
      (∀ p < (m'.sched.tcb m'.sched.current).priority, m'.sched.next (.head (.active p)) = none) ∧
      ∀ y ∈ m'.activeThreads (m'.sched.tcb m'.sched.current).priority,
        ArrivedBefore (arrivals Machine.init (as ++ [a])) m'.sched.current y) ∧
    ∀ ms threads, Picks m ms → (∀ m' ∈ ms, m'.ring.Perm threads) →
      (∀ i, i + threads.length < ms.length →
        (ms.map fun m' => m'.sched.current)[i + threads.length]? =
          (ms.map fun m' => m'.sched.current)[i]?) ∧
      ∀ i, i + threads.length ≤ ms.length →
        (((ms.map fun m' => m'.sched.current).drop i).take threads.length).Perm threads ∧
        (((ms.map fun m' => m'.sched.current).drop i).take threads.length).Nodup := by
  obtain ⟨q, hq, hordered⟩ := Ordered.of_run hrun
  refine ⟨fun a e => hq.pick_returns, ?_, ?_⟩
  · intro a m' hcall hstep
    obtain ⟨e, hcall⟩ := Option.ne_none_iff_exists'.mp hcall
    have he := hq.pickCall hcall
    obtain ⟨s', q', rfl, hs, hreadied⟩ := hq.pick_step hcall hstep
    refine ⟨hs.flags, fun p hp => ?_, fun y hy => ?_⟩
    · have hpath := hs.conserved.nodes_ofQueues.path (.active p)
      rw [Queues.hang_none, hs.other p (Nat.ne_of_lt hp), hs.above p hp] at hpath
      exact hpath
    · rw [hs.conserved.activeThreads] at hy
      refine ArrivedBefore.of_head ?_ hy
      rw [arrivals_snoc hrun hstep, hreadied]
      have hfirst : (e.ready q (s'.tcb s'.current).priority).Sublist
          (arrivals Machine.init as ++ e.returning).dedup := by
        refine List.Sublist.trans ?_ (sublist_dedup_append (hordered (s'.tcb s'.current).priority)
          he.returning_nodup fun x hx => he.returning_new _ hx)
        exact List.filter_sublist.append_left _
      rw [hs.first] at hfirst
      exact hfirst
  · intro ms threads hpicks hrings
    obtain ⟨ring, hperm, hturns, hnodup⟩ := hq.turns hpicks hrings
    rw [← hperm.length_eq]
    refine ⟨fun i hi => hturns.periodic (by simpa using hi), fun i hi => ?_⟩
    rw [hturns.window (by simpa using hi)]
    have hrotate := List.rotate_perm ring i
    refine ⟨hrotate.trans hperm, hrotate.symm.nodup ?_⟩
    cases ms with
    | nil =>
      have hzero : ring = [] := by
        rw [List.length_nil] at hi
        exact List.length_eq_zero_iff.mp (by omega)
      rw [hzero]
      exact List.nodup_nil
    | cons m' ms => exact hnodup (List.cons_ne_nil _ _)

theorem strict_priority_first_come_first_served_three : ∃ m ms, Run Step Machine.init
    [.run 1 3 4 0, .run 2 3 4 0, .yield] m ∧ Picks m ms ∧ ms.length = 4 ∧
      (ms.map fun m' => m'.sched.current)[0 + 3]? = (ms.map fun m' => m'.sched.current)[0]? := by
  have hruns : ∃ m ms, Run Step Machine.init [.run 1 3 4 0, .run 2 3 4 0, .yield] m ∧ Picks m ms ∧
      ms.length = 4 ∧ ∀ m' ∈ ms, m'.ring.Perm [.thread 0, .thread 1, .thread 2] := by
    refine ⟨_, _, .cons rfl (.cons rfl (.cons rfl (.nil _))),
      .pick (a := .yield) rfl (by simp [Machine.pickCall])
        (.pick (a := .yield) rfl (by simp [Machine.pickCall])
        (.pick (a := .yield) rfl (by simp [Machine.pickCall])
          (.pick (a := .yield) rfl (by simp [Machine.pickCall]) (.nil _)))), rfl, ?_⟩
    simp only [List.forall_mem_cons]
    decide
  obtain ⟨m, ms, hrun, hpicks, hlen, hrings⟩ := hruns
  exact ⟨m, ms, hrun, hpicks, hlen,
    ((strict_priority_first_come_first_served hrun).2.2 ms _ hpicks hrings).1 0 (by simp [hlen])⟩

end OsdevCourse.Scheduler
