import OsdevCourse.SchedulerPick

/-!
# No thread is lost and none is duplicated

`Machine` is the scheduler together with the list of all TCBs ever added, each as often as
it was added: a TCB that was freed may be handed out by `kmalloc` again. An interrupt may
come after `scheduler_sleep` or `scheduler_exitthread` has set its flag and before
it yields, so these two calls are two steps each: the mark, and a `yield`. Until the
current thread with a pending mark has yielded it makes no other call.
-/

namespace OsdevCourse.Scheduler

set_option autoImplicit false

structure Machine where
  sched : State
  added : List TcbPtr

inductive Action where
  | run (id priority quantum kstack : Nat)
  | tick
  | yield
  | sleep (tick : Nat)
  | exitthread
  | cleanzombie
  deriving DecidableEq, Repr

namespace Machine

def init : Machine := ⟨schedulerInit, [kthreadMain]⟩

/-- The TCBs that `scheduler_cleanzombie` gave to `kfree`. -/
def freed (m : Machine) : List TcbPtr := m.sched.kfreed.filterMap fun
  | .tcb p => some p
  | .kstack _ => none

/-- The current thread is not between setting its flag and yielding. -/
def atCall (m : Machine) : Prop := (m.sched.tcb m.sched.current).flags = .clear

instance (m : Machine) : Decidable m.atCall := inferInstanceAs (Decidable (_ = _))

/-- No use of this TCB is left: it was never added, or freed after each time. -/
def fresh (m : Machine) (x : TcbPtr) : Prop := m.added.count x = m.freed.count x

instance (m : Machine) (x : TcbPtr) : Decidable (m.fresh x) := inferInstanceAs (Decidable (_ = _))

/-- More than any loop of `scheduler_pick` needs: no list is longer than `added`. -/
def fuel (m : Machine) : Nat := m.added.length + 1

def withSched (m : Machine) (s : State) : Machine := { m with sched := s }

end Machine

/-- `tcb_init` writes the new TCB, and `scheduler_run` adds it. -/
def runFresh (s : State) (x : TcbPtr) (priority quantum kstack : Nat) : State :=
  schedulerRun (s.modify x fun _ => tcbInit priority quantum kstack) x

def step (m : Machine) : Action → Option Machine
  | .run id priority quantum kstack =>
    if m.atCall ∧ m.fresh (.thread id) ∧ priority < schedulePriorityMax then
      some ⟨runFresh m.sched (.thread id) priority quantum kstack, .thread id :: m.added⟩
    else none
  | .tick => (schedulerTick m.fuel m.sched).map m.withSched
  | .yield => (schedulerYield m.fuel m.sched).map m.withSched
  | .sleep tick => if m.atCall then some (m.withSched (sleepMark m.sched tick)) else none
  | .exitthread => if m.atCall then some (m.withSched (exitMark m.sched)) else none
  | .cleanzombie =>
    if m.atCall then some (m.withSched (schedulerCleanzombie m.sched).2) else none

def Step (m : Machine) (a : Action) (m' : Machine) : Prop := step m a = some m'

/-- The machine at the call of `scheduler_pick` in this step, if the step has one. -/
def Machine.pickCall (m : Machine) : Action → Option Machine
  | .yield => some m
  | .tick => if (countTick m.sched).quantum = 0 then some
    (m.withSched (countTick m.sched)) else none
  | _ => none

/-- The current thread has set its flag and not yielded since. -/
inductive Marked : Machine → Prop where
  | sleep {m m' : Machine} {tick : Nat} : Step m (.sleep tick) m' → Marked m'
  | exitthread {m m' : Machine} : Step m .exitthread m' → Marked m'
  | stay {m m' : Machine} {a : Action} : Marked m → Step m a m' → m.pickCall a = none → Marked m'

/-- A call of `scheduler_sleep` is two steps: an interrupt may come before it yields. -/
theorem schedulerSleep_run {m : Machine} {tick : Nat} {s' : State} (hcall : m.atCall)
    (hsleep : schedulerSleep m.fuel m.sched tick = some s') :
    Run Step m [.sleep tick, .yield] (m.withSched s') := by
  have hmark : Step m (.sleep tick) (m.withSched (sleepMark m.sched tick)) := if_pos hcall
  exact .cons hmark (.single (congrArg (Option.map m.withSched) hsleep))

theorem schedulerExitthread_run {m : Machine} {s' : State} (hcall : m.atCall)
    (hexit : schedulerExitthread m.fuel m.sched = some s') :
    Run Step m [.exitthread, .yield] (m.withSched s') := by
  have hmark : Step m .exitthread (m.withSched (exitMark m.sched)) := if_pos hcall
  exact .cons hmark (.single (congrArg (Option.map m.withSched) hexit))

/-- Where the threads are that are not the current one: on the lists, hanging after the tail of
one, or on none. -/
structure Layout where
  queues : Queues
  hung : Option (Nat × TcbPtr)
  lost : List TcbPtr

namespace Layout

def nodes (v : Layout) : Queues := v.queues.hang v.hung
def aside (v : Layout) : List TcbPtr := (v.hung.map Prod.snd).toList ++ v.lost
def threads (v : Layout) : List TcbPtr := v.queues.everything ++ v.aside

theorem mem_aside {v : Layout} {x : TcbPtr} {l : ListId} (hx : x ∈ Queues.hungAt v.hung l) :
    x ∈ v.aside := by
  refine List.mem_append_left _ ?_
  obtain ⟨q, _ | ⟨p, y⟩, lost⟩ := v
  · simp [Queues.hungAt] at hx
  · by_cases hl : l = .active p
    · simpa [Queues.hungAt, hl] using hx
    · simp [Queues.hungAt, hl] at hx

/-- Every thread is on the lists. -/
def ofQueues (q : Queues) : Layout := ⟨q, none, []⟩

@[simp] theorem threads_ofQueues (q : Queues) : (ofQueues q).threads = q.everything := by
  simp [threads, ofQueues, aside]

/-- Nobody is lost but the thread that hangs after a tail, and it comes back only when it is
picked. -/
def Settles (v v' : Layout) : Prop :=
  (v'.hung = v.hung ∧ v'.lost = v.lost) ∨
  (v'.hung = none ∧ (v'.lost = v.lost ∨ v'.lost = v.aside))

theorem Settles.ofQueues {q : Queues} {v : Layout} (h : Settles (ofQueues q) v) :
    v = Layout.ofQueues v.queues := by
  obtain ⟨q', hung, lost⟩ := v
  rcases h with ⟨hhung, hlost⟩ | ⟨hhung, hlost | hlost⟩ <;>
  · dsimp only [Layout.ofQueues, aside] at hhung hlost
    subst hhung hlost
    rfl

end Layout

theorem exists_lost {hung hung' : Option (Nat × TcbPtr)} (h : hung' = hung ∨ hung' = none)
    (lost : List TcbPtr) : ∃ lost', (hung'.map Prod.snd).toList ++ lost' =
    (hung.map Prod.snd).toList ++ lost ∧
      ((hung' = hung ∧ lost' = lost) ∨ (hung' = none ∧ lost' = (hung.map Prod.snd).toList ++ lost))
          := by
  rcases h with rfl | rfl
  · exact ⟨lost, rfl, Or.inl ⟨rfl, rfl⟩⟩
  · exact ⟨_, rfl, Or.inr ⟨rfl, rfl⟩⟩

/-- Every TCB is in exactly one place. -/
structure Conserved (linked : Prop) (m : Machine) (v : Layout) : Prop where
  queued : Queued linked m.sched v.queues v.hung
  accounted : (m.sched.current :: v.threads ++ m.freed).Perm m.added
  nodup : (m.sched.current :: v.threads).Nodup
  thread : ∀ x ∈ m.added, x.IsThread ∧ (m.sched.tcb x).priority < schedulePriorityMax
  listed : ∀ l, ∀ x ∈ v.nodes l, x ∈ m.added
  current : ∃ l, Belongs l (m.sched.data m.sched.current)
  unlinked : ∀ x ∈ v.lost, (m.sched.tcb x).flags = .clear ∧ m.sched.next x = none

namespace Conserved
variable {linked : Prop} {m m' : Machine} {v : Layout} {x : TcbPtr} {l : ListId}

theorem threads_mem (h : Conserved linked m v) (hx : x ∈ m.sched.current :: v.threads) :
    x ∈ m.added :=
  h.accounted.subset (List.mem_append_left _ hx)

theorem current_mem (h : Conserved linked m v) : m.sched.current ∈ m.added :=
  h.threads_mem List.mem_cons_self

theorem mem_listIds (h : Conserved linked m v) (hx : x ∈ m.added)
    (hl : Belongs l (m.sched.data x)) :
    l ∈ listIds := by
  cases l with
  | active p =>
    have hp : (m.sched.tcb x).priority = p := hl.1
    exact active_mem_listIds (hp ▸ (h.thread x hx).2)
  | slept => decide
  | zombie => decide

theorem mem_everything (h : Conserved linked m v) (hx : x ∈ v.queues l) :
    x ∈ v.queues.everything := by
  have hnode : x ∈ v.nodes l := v.queues.mem_hang hx
  have hl := h.mem_listIds (h.listed l x hnode) (h.queued.member l x hnode).2
  exact List.mem_flatMap.mpr ⟨l, hl, hx⟩

theorem mem_threads (h : Conserved linked m v) (hx : x ∈ v.nodes l) : x ∈ v.threads := by
  rcases List.mem_append.mp hx with hx | hx
  · exact List.mem_append_left _ (h.mem_everything hx)
  · exact List.mem_append_right _ (Layout.mem_aside hx)

theorem absent (h : Conserved linked m v) : v.nodes.Absent m.sched.current :=
  fun _ hmem => (List.nodup_cons.mp h.nodup).1 (h.mem_threads hmem)

theorem not_mem_of_fresh (h : Conserved linked m v) (hx : m.fresh x) :
    x ∉ m.sched.current :: v.threads := by
  have hcount := h.accounted.count_eq x
  rw [List.count_append, show m.added.count x = m.freed.count x from hx] at hcount
  exact List.count_eq_zero.mp (by omega)

theorem fuel_enough (h : Conserved linked m v) : (v.queues .slept).length + 1 < m.fuel := by
  have hslept : (v.queues .slept).length ≤ v.queues.everything.length :=
    (List.sublist_flatten_of_mem (List.mem_map_of_mem (by decide))).length_le
  have hlen := h.accounted.length_eq
  simp only [List.length_cons, List.length_append, Layout.threads] at hlen
  unfold Machine.fuel
  omega

/-- A thread that is on none of the lists is ready, linked to nothing, and not the current one. -/
theorem detached (h : Conserved linked m v) (hx : x ∈ v.aside) :
    x.IsThread ∧ (m.sched.tcb x).flags = .clear ∧ m.sched.next x = none ∧ v.queues.Absent x ∧
      x ≠ m.sched.current := by
  obtain ⟨hcurrent, hnodup⟩ := List.nodup_cons.mp h.nodup
  have hthreads : x ∈ v.threads := List.mem_append_right _ hx
  have hne : x ≠ m.sched.current := fun heq => hcurrent (heq ▸ hthreads)
  have habsent : v.queues.Absent x := fun l hmem =>
    (List.nodup_append.mp hnodup).2.2 x (h.mem_everything hmem) x hx rfl
  have hthread := (h.thread x (h.threads_mem (List.mem_cons_of_mem _ hthreads))).1
  rcases List.mem_append.mp hx with hx | hx
  · obtain ⟨q, _ | ⟨p, y⟩, lost⟩ := v
    · simp at hx
    · have hxy : x = y := by simpa using hx
      subst hxy
      have hnodes : q.hang (some (p, x)) (.active p) = q (.active p) ++ [x] := by
        simp [Queues.hang, Queues.hungAt]
      have hmem : x ∈ q.hang (some (p, x)) (.active p) := by simp [hnodes]
      have hlast := (h.queued.path (.active p)).next_last
      rw [hnodes, List.getLastD_concat] at hlast
      exact ⟨hthread, (h.queued.member _ x hmem).2.2, hlast, habsent, hne⟩
  · obtain ⟨hflags, hnext⟩ := h.unlinked x hx
    exact ⟨hthread, hflags, hnext, habsent, hne⟩

/-- A step that keeps the lists, the current thread, the added and the freed ones. -/
theorem congr (h : Conserved linked m v) (hqueued : Queued linked m'.sched v.queues v.hung)
    (hcurrent : m'.sched.current = m.sched.current) (hadded : m'.added = m.added)
    (hkfreed : m'.sched.kfreed = m.sched.kfreed)
    (hpriority : ∀ y, (m'.sched.tcb y).priority = (m.sched.tcb y).priority)
    (hbelongs : ∃ l, Belongs l (m'.sched.data m.sched.current))
    (hlost : ∀ y, y ≠ m.sched.current → (m'.sched.tcb y).flags = (m.sched.tcb y).flags ∧
      m'.sched.next y = m.sched.next y) : Conserved linked m' v := by
  have hfreed : m'.freed = m.freed := by rw [Machine.freed, hkfreed, Machine.freed]
  refine ⟨hqueued, ?_, hcurrent ▸ h.nodup, ?_, hadded ▸ h.listed, hcurrent ▸ hbelongs, ?_⟩
  · rw [hcurrent, hfreed, hadded]
    exact h.accounted
  · intro y hy
    rw [hpriority y]
    exact h.thread y (hadded ▸ hy)
  · intro y hy
    obtain ⟨_, _, _, _, hne⟩ := h.detached (List.mem_append_right _ hy)
    rw [(hlost y hne).1, (hlost y hne).2]
    exact h.unlinked y hy

theorem mem_parked (h : Conserved linked m v) {xs : List TcbPtr} {k : ListId}
    (hperm : xs.Perm (m.sched.current :: v.queues l)) (hx : x ∈ v.queues.set l xs k) :
    x ∈ m.added := by
  by_cases hk : k = l
  · subst hk
    rw [Queues.set_self] at hx
    rcases List.mem_cons.mp (hperm.subset hx) with rfl | hx
    · exact h.current_mem
    · exact h.listed k x (v.queues.mem_hang hx)
  · rw [v.queues.set_other xs hk] at hx
    exact h.listed k x (v.queues.mem_hang hx)

theorem everything_woken (h : Conserved linked m v) {xs : List TcbPtr} {d : List (TcbPtr × Nat)}
    (hl : Belongs l (m.sched.data m.sched.current))
    (hnames : d.map Prod.fst = v.queues.set l xs .slept)
    (hperm : xs.Perm (m.sched.current :: v.queues l)) :
    (((v.queues.set l xs).afterWake
      (fun y => (m.sched.tcb y).priority) m.sched.elapsed d).everything).Perm
      (m.sched.current :: v.queues.everything) := by
  have hmem := h.mem_listIds h.current_mem hl
  refine (Queues.everything_afterWake _ hnames fun x hx => ?_).trans ?_
  · have hslept : x ∈ v.queues.set l xs .slept := by
      rw [← hnames]
      exact mem_due_or_left.mpr (Or.inl hx)
    exact (h.thread x (h.mem_parked hperm hslept)).2
  · have hset : (v.queues.set l xs).everything.Perm ([m.sched.current] ++ v.queues.everything) :=
      v.queues.everything_set hperm hmem
    exact hset

end Conserved

/-- The lists in which `scheduler_pick` looks for its target: everybody is on them or aside. -/
structure Woken (linked : Prop) (m : Machine) (v : Layout) (s : State) (w : Layout) (l : ListId) :
    Prop where
  run : (park m.fuel m.sched).bind (awakeAll m.fuel) = some s
  unchanged : Unchanged (chargeCurrent m.sched) s
  parked : Belongs l (m.sched.data m.sched.current)
  stays : l ≠ .slept → l ≠ .zombie → m.sched.current ∈ w.queues l
  keeps : ∀ p, ∀ y ∈ v.queues (.active p), y ∈ w.queues (.active p)
  queued : Queued linked s w.queues w.hung
  threads : w.threads.Perm (m.sched.current :: v.threads)
  aside : w.aside = v.aside
  hung : w.hung = v.hung ∨ w.hung = none
  listed : ∀ k, ∀ y ∈ w.nodes k, y ∈ m.added
  deltas : s.deltas (w.queues .slept) = left m.sched.elapsed
    (parkedDeltas l m.sched.current (m.sched.ticks m.sched.current)
    (m.sched.deltas (v.queues .slept)))
  detached : ∀ y ∈ v.aside, (s.tcb y).flags = .clear ∧ s.next y = none

theorem Conserved.woken {linked : Prop} {m : Machine} {v : Layout} (h : Conserved linked m v) :
    ∃ s w l, Woken linked m v s w l := by
  obtain ⟨l, hl⟩ := h.current
  have hc := (h.thread _ h.current_mem).1
  obtain ⟨s, xs, hung, hrun, hunch, hhung, hperm, hnames, hqueued, hleft, hframe⟩ :=
    wake_spec h.queued hc h.absent hl h.fuel_enough
  have hall := h.everything_woken hl hnames hperm
  obtain ⟨lost, haside, _⟩ := exists_lost hhung v.lost
  generalize hd : parkedDeltas l m.sched.current (m.sched.ticks m.sched.current)
    (m.sched.deltas (v.queues .slept)) = d at hnames hqueued hleft hall
  have hkept : ∀ p, ∀ y ∈ v.queues.set l xs (.active p), y ∈ (v.queues.set l xs).afterWake
      (fun y => (m.sched.tcb y).priority) m.sched.elapsed d (.active p) := by
    intro p y hy
    rw [Queues.afterWake, Queues.mem_enqueueAll, Queues.set_other _ _ (by simp)]
    exact Or.inl hy
  refine ⟨s, ⟨_, hung, lost⟩, l, hrun, hunch, hl, ?_, ?_, hqueued, ?_, haside, hhung, ?_, ?_, ?_⟩
  · intro hslept hzombie
    cases l with
    | active p =>
      refine hkept p _ ?_
      rw [Queues.set_self]
      exact hperm.symm.subset List.mem_cons_self
    | slept => exact absurd rfl hslept
    | zombie => exact absurd rfl hzombie
  · intro p y hy
    refine hkept p y ?_
    by_cases hp : ListId.active p = l
    · subst hp
      rw [Queues.set_self]
      exact hperm.symm.subset (List.mem_cons_of_mem _ hy)
    · rwa [v.queues.set_other xs hp]
  · rw [Layout.threads, Layout.threads, show Layout.aside ⟨_, hung, lost⟩ = v.aside from haside,
      ← List.cons_append]
    exact hall.append_right _
  · intro k y hy
    rcases List.mem_append.mp hy with hy | hy
    · obtain ⟨k', hy⟩ := Queues.mem_afterWake hnames hy
      exact h.mem_parked hperm hy
    · have hy' : y ∈ Layout.aside ⟨v.queues, hung, lost⟩ := Layout.mem_aside hy
      rw [show Layout.aside ⟨v.queues, hung, lost⟩ = v.aside from haside] at hy'
      exact h.threads_mem (List.mem_cons_of_mem _ (List.mem_append_right _ hy'))
  · have hslept := (v.queues.set l xs).afterWake_slept (fun y => (m.sched.tcb y).priority)
      m.sched.elapsed d
    rw [hd]
    exact (congrArg s.deltas hslept).trans hleft
  · intro y hy
    obtain ⟨hthread, hflags, hnext, habsent, hne⟩ := h.detached hy
    obtain ⟨hnext', hplace⟩ := hframe y hthread habsent hne
    have hflags' := congrArg Prod.snd hplace
    exact ⟨hflags'.trans hflags, hnext'.trans hnext⟩

theorem chargeCurrent_priority (s : State) (y : TcbPtr) :
    ((chargeCurrent s).tcb y).priority = (s.tcb y).priority := by
  have hplace := congrArg Prod.fst (chargeCurrent_place (s := s) (y := y))
  exact hplace

theorem dispatch_data (s : State) (x y : TcbPtr) :
    ((dispatch s x).data y).place = (s.data y).place := by
  by_cases hy : y = x <;> simp [dispatch, State.data, Tcb.place, hy]

theorem dispatch_ticks (s : State) (x y : TcbPtr) : (dispatch s x).ticks y = s.ticks y := by
  by_cases hy : y = x <;> simp [dispatch, State.ticks, hy]

theorem dispatch_next (s : State) (x y : TcbPtr) : (dispatch s x).next y = s.next y := by
  by_cases hy : y = x <;> simp [dispatch, State.next, hy]

theorem dispatch_prev (s : State) (x y : TcbPtr) : (dispatch s x).prev y = s.prev y := by
  by_cases hy : y = x <;> simp [dispatch, State.prev, hy]

theorem Queued.dispatch {linked : Prop} {s : State} {q : Queues} {hung : Option (Nat × TcbPtr)}
    (h : Queued linked s q hung) (x : TcbPtr) : Queued linked (dispatch s x) q hung :=
  h.congr (fun _ y _ => dispatch_next s x y) (fun _ _ y _ => dispatch_prev s x y) rfl
    fun _ y _ => dispatch_data s x y

theorem Taken.threads {q q' : Queues} {hung hung' : Option (Nat × TcbPtr)} {p : Nat} {x : TcbPtr}
    (h : Taken q hung p x q' hung') (hp : p < schedulePriorityMax) (lost : List TcbPtr) :
    (x :: Layout.threads ⟨q', hung', lost⟩).Perm (Layout.threads ⟨q, hung, lost⟩) := by
  rcases h with ⟨xs, hl, rfl, rfl⟩ | ⟨hl, rfl, rfl, rfl⟩
  · have hback : ((q.set (.active p) xs).set (.active p) (x :: xs)).everything.Perm
        ([x] ++ (q.set (.active p) xs).everything) :=
      Queues.everything_set _ (by simp) (active_mem_listIds hp)
    rw [Queues.set_set, ← hl, Queues.set_eq] at hback
    exact hback.symm.append_right _
  · simpa [Layout.threads, Layout.aside] using List.perm_middle.symm

/-- The call of `scheduler_yield` picks a thread whose flags are clear, and charges the slept
list. -/
structure Yielded (linked : Prop) (m : Machine) (v : Layout) (s' : State) (v' : Layout)
    (l : ListId) :
    Prop where
  conserved : Conserved linked (m.withSched s') v'
  settles : v.Settles v'
  parked : Belongs l (m.sched.data m.sched.current)
  deltas : s'.deltas (v'.queues .slept) =
    left m.sched.elapsed (parkedDeltas l m.sched.current (m.sched.ticks m.sched.current)
      (m.sched.deltas (v.queues .slept)))
  elapsed : s'.elapsed = 0
  flags : (s'.data s'.current).flags = .clear
  priority : ∀ y, (s'.tcb y).priority = (m.sched.tcb y).priority

theorem Woken.lost_eq {linked : Prop} {m : Machine} {v w : Layout} {s : State} {l : ListId}
    (h : Woken linked m v s w l) (hhung : w.hung = v.hung) : w.lost = v.lost := by
  have haside := h.aside
  rw [Layout.aside, Layout.aside, hhung] at haside
  exact List.append_cancel_left haside

theorem Woken.settles {linked : Prop} {m : Machine} {v w : Layout} {s : State}
    {l : ListId} {q : Queues}
    {hung : Option (Nat × TcbPtr)} {p : Nat} {x : TcbPtr} (h : Woken linked m v s w l)
    (ht : Taken w.queues w.hung p x q hung) : v.Settles ⟨q, hung, w.lost⟩ := by
  rcases ht with ⟨_, _, _, rfl⟩ | ⟨_, hsome, _, rfl⟩
  · rcases h.hung with hhung | hnone
    · exact Or.inl ⟨hhung, h.lost_eq hhung⟩
    · have haside := h.aside
      rw [Layout.aside, hnone] at haside
      exact Or.inr ⟨hnone, Or.inr haside⟩
  · rcases h.hung with hhung | hnone
    · exact Or.inr ⟨rfl, Or.inl (h.lost_eq hhung)⟩
    · exact absurd (hsome.symm.trans hnone) (by simp)

theorem Conserved.yield {linked : Prop} {m : Machine} {v : Layout} {s' : State}
    (h : Conserved linked m v) (hrun : schedulerYield m.fuel m.sched = some s') :
    ∃ v' l, Yielded linked m v s' v' l := by
  obtain ⟨s, w, l, hw⟩ := h.woken
  rw [schedulerYield, schedulerPick_eq, hw.run] at hrun
  rcases pickTarget_spec hw.queued (List.range schedulePriorityMax) with
    ⟨hnone, _⟩ | ⟨i, hi, x, q, hung, ht, hpick⟩
  · simp [hnone] at hrun
  · simp only [Option.bind_some, hpick, Option.map_some, Option.bind_eq_bind, Option.pure_def,
      Option.some.injEq] at hrun
    subst hrun
    have hi' : i < schedulePriorityMax := List.mem_range.mp hi
    have hx : x ∈ w.nodes (.active i) := by
      rw [Layout.nodes, ht.nodes]
      exact List.mem_cons_self
    obtain ⟨_, hbelongs⟩ := hw.queued.member (.active i) x hx
    have hplace := dispatch_data (unlinkTarget s (.active i) x) x x
    rw [unlinkTarget_data] at hplace
    have hplaces : (x :: Layout.threads ⟨q, hung, w.lost⟩).Perm (m.sched.current :: v.threads) :=
      (ht.threads hi' w.lost).trans hw.threads
    have hunch := hw.unchanged.trans (.unlinkTarget (.active i) x)
    have hpriority : ∀ y, ((dispatch (unlinkTarget s (.active i) x) x).tcb y).priority =
        (m.sched.tcb y).priority := by
      intro y
      have hkept := congrArg Prod.fst (dispatch_data (unlinkTarget s (.active i) x) x y)
      exact hkept.trans ((hunch.priority y).trans (chargeCurrent_priority m.sched y))
    have hticks : ∀ y, (dispatch (unlinkTarget s (.active i) x) x).ticks y = s.ticks y := by
      intro y
      rw [dispatch_ticks]
      exact ticks_of_data (congrFun unlinkTarget_data y)
    refine ⟨⟨q, hung, w.lost⟩, l, ⟨?_, ?_, hplaces.symm.nodup h.nodup, ?_, ?_, ?_, ?_⟩,
      hw.settles ht,
      hw.parked, ?_, rfl, ?_, hpriority⟩
    · exact ((hw.queued.unlinkTarget ht).dispatch x).congr (fun _ _ _ => rfl)
        (fun _ _ _ _ => rfl) rfl
        fun _ _ _ => rfl
    · have hfreed : Machine.freed (m.withSched
          { dispatch (unlinkTarget s (.active i) x) x with current := x }) = m.freed := by
        simp only [Machine.freed, Machine.withSched]
        exact congrArg _ hunch.kfreed
      rw [hfreed]
      exact (hplaces.append_right m.freed).trans h.accounted
    · intro y hy
      exact ⟨(h.thread y hy).1, lt_of_eq_of_lt (hpriority y) (h.thread y hy).2⟩
    · intro k y hy
      refine hw.listed k y ?_
      by_cases hk : k = .active i
      · subst hk
        rw [Layout.nodes, ht.nodes]
        exact List.mem_cons_of_mem x hy
      · rwa [Layout.nodes, (ht.other hk).2] at hy
    · exact ⟨.active i, hbelongs.congr hplace⟩
    · intro y hy
      have hy' : y ∈ v.aside := hw.aside ▸ List.mem_append_right _ hy
      obtain ⟨hthread, _⟩ := h.detached hy'
      obtain ⟨hflags, hnext⟩ := hw.detached y hy'
      have hhead : y ≠ .head (.active i) := by
        rintro rfl
        exact hthread
      have hkept := congrArg Prod.snd (dispatch_data (unlinkTarget s (.active i) x) x y)
      rw [unlinkTarget_data] at hkept
      refine ⟨hkept.trans hflags, (dispatch_next _ _ _).trans ?_⟩
      rw [unlinkTarget_next, if_neg hhead, hnext]
    · have hslept : q .slept = w.queues .slept := (ht.other (by simp)).1
      rw [← hw.deltas, ← hslept]
      exact deltas_congr fun y _ => hticks y
    · exact (hbelongs.congr hplace).2

theorem Queued.modify {linked : Prop} {s : State} {q : Queues}
    {hung : Option (Nat × TcbPtr)} {x : TcbPtr}
    (h : Queued linked s q hung) (habsent : (q.hang hung).Absent x) (hx : x.IsThread)
    (f : Tcb → Tcb) :
    Queued linked (s.modify x f) q hung := by
  refine h.congr (fun l y hy => ?_) (fun _ l y hy => ?_) rfl fun l y hy => ?_
  · have hyx : y ≠ x := fun heq => not_node habsent hx (heq ▸ hy)
    simp [State.next, hyx]
  · have hyx : y ≠ x := fun heq => habsent l (heq ▸ hy)
    simp [State.prev, hyx]
  · have hyx : y ≠ x := fun heq => habsent l (heq ▸ hy)
    simp [State.data, hyx]

theorem Queued.unlinkZombie {linked : Prop} {s : State} {q : Queues} {hung : Option (Nat × TcbPtr)}
    {x : TcbPtr} {xs : List TcbPtr} (h : Queued linked s q hung) (hq : q .zombie = x :: xs) :
    Queued linked (s.setNext (.head .zombie) (s.next x)) (q.set .zombie xs) hung := by
  have hnodes : (q.set .zombie xs).hang hung .zombie = xs := by
    rw [Queues.hang_zombie, Queues.set_self]
  have hpath := h.path .zombie
  have hmem : ∀ y ∈ xs, y ∈ q.hang hung .zombie := by
    intro y hy
    rw [Queues.hang_zombie, hq]
    exact List.mem_cons_of_mem x hy
  rw [Queues.hang_zombie, hq] at hpath
  refine h.replace (l := .zombie) ?_ (fun _ hne => absurd rfl hne) (fun p hp => nomatch hp) ?_
    (fun k hk => ⟨q.set_other xs hk, q.hang_set_other xs hk⟩) ?_ (by simp) (by simp) (by simp)
  · rw [hnodes]
    refine hpath.pop ?_ fun y hy => ?_
    · rw [State.next_setNext, if_pos rfl]
    · rw [State.next_setNext, if_neg (h.thread_ne_head (hmem y hy))]
  · intro y hy
    rw [hnodes] at hy
    rw [State.data_setNext]
    exact h.member .zombie y (hmem y hy)
  · intro l hl y hy
    have hne : y ≠ .head .zombie := by
      rintro rfl
      exact hl (h.same_node hy List.mem_cons_self)
    rw [State.next_setNext, if_neg hne]

section Steps
variable {linked : Prop} {m : Machine} {v : Layout}

theorem Conserved.modify_current (h : Conserved linked m v) {f : Tcb → Tcb}
    (hf : ∀ t, (f t).priority = t.priority)
    (hbelongs : ∃ l, Belongs l (f (m.sched.tcb m.sched.current))) :
    Conserved linked (m.withSched (m.sched.modify m.sched.current f)) v := by
  refine h.congr (h.queued.modify h.absent (h.thread _ h.current_mem).1 f) rfl rfl rfl
    (fun y => ?_) ?_
    fun y hy => ?_
  · by_cases hy : y = m.sched.current <;> simp [Machine.withSched, hy, hf]
  · obtain ⟨l, hl⟩ := hbelongs
    refine ⟨l, hl.congr ?_⟩
    simp [Machine.withSched, State.data, Tcb.place]
  · simp [Machine.withSched, State.next, hy]

theorem Conserved.sleep (h : Conserved linked m v) (hcall : m.atCall) (tick : Nat) :
    Conserved linked (m.withSched (sleepMark m.sched tick)) v := by
  unfold sleepMark
  split
  · have hticks := h.modify_current (f := fun t => { t with sleepTick := tick }) (fun _ => rfl)
      ⟨.active (m.sched.tcb m.sched.current).priority, rfl, hcall⟩
    refine hticks.modify_current (fun _ => rfl) ⟨.slept, ?_⟩
    have hzombie : (m.sched.tcb m.sched.current).flags.zombie = false := congrArg Flags.zombie hcall
    simp [Belongs, Machine.withSched, hzombie]
  · exact h

theorem Conserved.exitthread (h : Conserved linked m v) (hcall : m.atCall) :
    Conserved linked (m.withSched (exitMark m.sched)) v := by
  refine h.modify_current (fun _ => rfl) ⟨.zombie, ?_⟩
  have hslept : (m.sched.tcb m.sched.current).flags.slept = false := congrArg Flags.slept hcall
  simp [Belongs, hslept]

theorem Conserved.countTick (h : Conserved linked m v) :
    Conserved linked (m.withSched (Scheduler.countTick m.sched)) v :=
  h.congr (h.queued.congr (fun _ _ _ => rfl) (fun _ _ _ _ => rfl) rfl fun _ _ _ => rfl) rfl rfl rfl
    (fun _ => rfl) h.current fun _ _ => ⟨rfl, rfl⟩

theorem Conserved.cleanzombie (h : Conserved linked m v) :
    ∃ q, Conserved linked (m.withSched (schedulerCleanzombie m.sched).2) ⟨q, v.hung, v.lost⟩ ∧
      q .slept = v.queues .slept := by
  have hpath := h.queued.path .zombie
  rw [Queues.hang_zombie] at hpath
  cases hq : v.queues .zombie with
  | nil =>
    rw [hq] at hpath
    have hnone : m.sched.next (.head .zombie) = none := hpath
    refine ⟨v.queues, ?_, rfl⟩
    simp only [schedulerCleanzombie, hnone]
    exact h
  | cons x xs =>
    rw [hq] at hpath
    have hnodes : ∀ k, ∀ y ∈ (v.queues.set .zombie xs).hang v.hung k, y ∈ v.nodes k := by
      intro k y hy
      by_cases hk : k = .zombie
      · subst hk
        rw [Queues.hang_zombie, Queues.set_self] at hy
        rw [Layout.nodes, Queues.hang_zombie, hq]
        exact List.mem_cons_of_mem x hy
      · rwa [v.queues.hang_set_other xs hk] at hy
    have hmove : (x :: Layout.threads ⟨v.queues.set .zombie xs, v.hung, v.lost⟩).Perm
        v.threads := by
      have hback : ((v.queues.set .zombie xs).set .zombie (x :: xs)).everything.Perm
          ([x] ++ (v.queues.set .zombie xs).everything) :=
            Queues.everything_set _ (by simp) (by decide)
      rw [Queues.set_set, ← hq, Queues.set_eq] at hback
      exact hback.symm.append_right _
    refine ⟨v.queues.set .zombie xs, ?_, v.queues.set_other xs (by simp)⟩
    have hfreed : Machine.freed (m.withSched (schedulerCleanzombie m.sched).2) = x :: m.freed := by
      simp only [schedulerCleanzombie, hpath.1, Machine.freed, Machine.withSched]
      split <;> simp [State.setNext, State.modify]
    simp only [schedulerCleanzombie, hpath.1] at hfreed ⊢
    refine ⟨(h.queued.unlinkZombie hq).congr (fun _ _ _ => rfl) (fun _ _ _ _ => rfl) rfl
      (fun _ _ _ => rfl), ?_, ?_, fun y hy => ?_, fun k y hy => h.listed k y (hnodes k y hy), ?_,
        fun y hy => ?_⟩
    · rw [hfreed]
      refine (List.perm_middle.trans ?_).trans h.accounted
      exact (List.Perm.swap _ _ _).trans ((hmove.append_right m.freed).cons _)
    · have hnodup := ((hmove.cons m.sched.current).symm.nodup h.nodup)
      exact hnodup.sublist ((List.sublist_cons_self x _).cons_cons _)
    · have hsame := (Unchanged.setNext (s := m.sched) (.head .zombie) (m.sched.next x)).priority y
      exact ⟨(h.thread y hy).1, lt_of_eq_of_lt hsame (h.thread y hy).2⟩
    · obtain ⟨l, hl⟩ := h.current
      exact ⟨l, hl.congr (congrArg Tcb.place (congrFun (State.data_setNext _ _ _) _))⟩
    · obtain ⟨hthread, hflags, hnext, _⟩ := h.detached (List.mem_append_right _ hy)
      have hne : y ≠ .head .zombie := by
        rintro rfl
        exact hthread
      have hdata := congrFun (State.data_setNext m.sched (.head .zombie) (m.sched.next x)) y
      have hflags' := congrArg Tcb.flags hdata
      exact ⟨hflags'.trans hflags, ((State.next_setNext _ _ _ _).trans (if_neg hne)).trans hnext⟩

end Steps

theorem Queued.init {linked : Prop} {s : State} {q : Queues}
    {hung : Option (Nat × TcbPtr)} {x : TcbPtr}
    (h : Queued linked s q hung) (habsent : (q.hang hung).Absent x) (hx : x.IsThread)
    (priority quantum kstack : Nat) :
    Queued linked (assignThreadId (s.modify x fun _ => tcbInit priority quantum kstack) x) q
      hung := by
  have hinit := (h.modify habsent hx fun _ => tcbInit priority quantum kstack).modify habsent hx
    fun t => { t with threadId := s.nextThreadId }
  exact hinit.congr (fun _ _ _ => rfl) (fun _ _ _ _ => rfl) rfl fun _ _ _ => rfl

theorem runFresh_data (s : State) (x y : TcbPtr) (priority quantum kstack : Nat) :
    (runFresh s x priority quantum kstack).data y = if y = x then
      { tcbInit priority quantum kstack with threadId := s.nextThreadId } else s.data y := by
  rw [runFresh, schedulerRun, schedulerAdd_data]
  by_cases hy : y = x <;> simp [assignThreadId, State.data, hy, tcbInit, zeroTcb]

theorem runFresh_current (s : State) (x : TcbPtr) (priority quantum kstack : Nat) :
    (runFresh s x priority quantum kstack).current = s.current := (Unchanged.schedulerAdd x).current

theorem runFresh_kfreed (s : State) (x : TcbPtr) (priority quantum kstack : Nat) :
    (runFresh s x priority quantum kstack).kfreed = s.kfreed := (Unchanged.schedulerAdd x).kfreed

theorem runFresh_next {s : State} {x y : TcbPtr} {priority quantum kstack : Nat} (hx : y ≠ x)
    (htail : y ≠ s.tail (.active priority)) :
    (runFresh s x priority quantum kstack).next y = s.next y := by
  have hlist : y ≠ (assignThreadId (s.modify x fun _ => tcbInit priority quantum kstack) x).tail
      (activeList (assignThreadId (s.modify x fun _ => tcbInit priority quantum kstack) x) x) := by
    simpa [assignThreadId, activeList, tcbInit] using htail
  rw [runFresh, schedulerRun, schedulerAdd_next, if_neg hlist, if_neg hx]
  simp [assignThreadId, State.next, hx]

theorem Conserved.run {linked : Prop} {m : Machine} {v : Layout} (h : Conserved linked m v)
    {id priority quantum kstack : Nat} (hfresh : m.fresh (.thread id))
    (hpriority : priority < schedulePriorityMax) :
    ∃ v', Conserved linked
        ⟨runFresh m.sched (.thread id) priority quantum kstack, .thread id :: m.added⟩ v' ∧
      v.Settles v' ∧ v'.queues .slept = v.queues .slept := by
  generalize hx : TcbPtr.thread id = x at hfresh ⊢
  have hthread : x.IsThread := hx ▸ trivial
  have hnot := h.not_mem_of_fresh hfresh
  have habsent : v.nodes.Absent x := fun _ hmem =>
    hnot (List.mem_cons_of_mem _ (h.mem_threads hmem))
  have hqueued := h.queued.init habsent hthread priority quantum kstack
  have hadd := hqueued.add hthread habsent (by simp [assignThreadId, State.data, tcbInit, zeroTcb])
  have hpr : ((assignThreadId (m.sched.modify x fun _ => tcbInit priority quantum kstack) x).tcb
      x).priority = priority := by simp [assignThreadId, tcbInit]
  rw [hpr] at hadd
  obtain ⟨lost, haside, hlost⟩ := exists_lost (Queues.unhang_eq_or priority v.hung) v.lost
  obtain ⟨v', hv'⟩ : ∃ v' : Layout,
      v' = ⟨v.queues.enqueue priority x, Queues.unhang priority v.hung, lost⟩ := ⟨_, rfl⟩
  have hthreads : v'.threads.Perm (x :: v.threads) := by
    have hplaces : (v.queues.enqueue priority x).everything.Perm ([x] ++ v.queues.everything) :=
      v.queues.everything_set List.perm_append_comm (active_mem_listIds hpriority)
    have haside' : v'.aside = v.aside := by
      rw [hv']
      exact haside
    rw [Layout.threads, haside', hv']
    exact hplaces.append_right v.aside
  have hall := (hthreads.cons m.sched.current).trans (List.Perm.swap x _ _)
  have hdata := fun y => runFresh_data m.sched x y priority quantum kstack
  have hnext : ∀ y, y ≠ x → y ≠ m.sched.tail (.active priority) →
      (runFresh m.sched x priority quantum kstack).next y = m.sched.next y := fun _ => runFresh_next
  generalize hs : runFresh m.sched x priority quantum kstack = s at hdata hnext
  have hcurrent : s.current = m.sched.current := hs ▸ runFresh_current _ _ _ _ _
  have hfreed : Machine.freed ⟨s, x :: m.added⟩ = m.freed := by
    have hkfreed : s.kfreed = m.sched.kfreed := hs ▸ runFresh_kfreed _ _ _ _ _
    rw [Machine.freed, hkfreed, Machine.freed]
  refine ⟨v', ⟨?_, ?_, ?_, fun y hy => ?_, fun l y hy => ?_, ?_, fun y hy => ?_⟩, ?_, ?_⟩
  · rw [hv', ← hs]
    exact hadd
  · rw [hfreed, hcurrent]
    exact (hall.append_right m.freed).trans (h.accounted.cons x)
  · rw [hcurrent]
    exact hall.symm.nodup (List.nodup_cons.mpr ⟨hnot, h.nodup⟩)
  · have hsame := congrArg Tcb.priority (hdata y)
    by_cases hyx : y = x
    · subst hyx
      rw [if_pos rfl] at hsame
      exact ⟨hthread, lt_of_eq_of_lt hsame hpriority⟩
    · rw [if_neg hyx] at hsame
      obtain ⟨hy', hlt⟩ := h.thread y ((List.mem_cons.mp hy).resolve_left hyx)
      exact ⟨hy', lt_of_eq_of_lt hsame hlt⟩
  · rw [Layout.nodes, hv'] at hy
    rcases Queues.mem_hang_enqueue _ hy with rfl | hy
    · exact List.mem_cons_self
    · exact List.mem_cons_of_mem x (h.listed l y hy)
  · have hne : m.sched.current ≠ x := fun heq => hnot (heq ▸ List.mem_cons_self)
    obtain ⟨l, hl⟩ := h.current
    refine ⟨l, hl.congr (congrArg Tcb.place ?_)⟩
    rw [hcurrent, hdata]
    exact if_neg hne
  · have hy' : y ∈ v.aside := by
      rw [Layout.aside, ← haside]
      rw [hv'] at hy
      exact List.mem_append_right _ hy
    obtain ⟨hy'', hflags, hnone, hyabsent, _⟩ := h.detached hy'
    have hyx : y ≠ x := fun heq => hnot (heq ▸ List.mem_cons_of_mem _ (List.mem_append_right _ hy'))
    have htail : y ≠ m.sched.tail (.active priority) :=
      fun heq => Queued.not_node hyabsent hy'' (heq ▸ h.queued.tail_mem priority)
    have hsame := congrArg Tcb.flags (hdata y)
    rw [if_neg hyx] at hsame
    exact ⟨hsame.trans hflags, (hnext y hyx htail).trans hnone⟩
  · rw [hv']
    rcases hlost with ⟨hhung, hlost⟩ | ⟨hhung, hlost⟩
    · exact Or.inl ⟨hhung, hlost⟩
    · exact Or.inr ⟨hhung, Or.inr hlost⟩
  · have hslept : v.queues.enqueue priority x .slept = v.queues .slept :=
      v.queues.set_other _ (by simp)
    rw [hv']
    exact hslept

section Steps
variable {linked : Prop} {m m' : Machine} {v : Layout}

theorem Conserved.tick {s' : State} (h : Conserved linked m v)
    (hrun : schedulerTick m.fuel m.sched = some s') :
    ∃ v', Conserved linked (m.withSched s') v' ∧ v.Settles v' ∧
      ∀ y, (s'.tcb y).priority = (m.sched.tcb y).priority := by
  by_cases hquantum : (Scheduler.countTick m.sched).quantum = 0
  · rw [schedulerTick, if_pos hquantum] at hrun
    obtain ⟨v', l, hyielded⟩ := h.countTick.yield hrun
    exact ⟨v', hyielded.conserved, hyielded.settles, hyielded.priority⟩
  · rw [schedulerTick, if_neg hquantum] at hrun
    cases hrun
    exact ⟨v, h.countTick, Or.inl ⟨rfl, rfl⟩, fun _ => rfl⟩

theorem sleepMark_priority (s : State) (tick : Nat) (y : TcbPtr) :
    ((sleepMark s tick).tcb y).priority = (s.tcb y).priority := by
  by_cases ht : tick = 0
  · simp [sleepMark, ht]
  · by_cases hy : y = s.current <;> simp [sleepMark, ht, hy]

theorem cleanzombie_data (s : State) : (schedulerCleanzombie s).2.data = s.data := by
  unfold schedulerCleanzombie
  split
  · rfl
  · exact State.data_setNext s _ _

theorem sleepMark_counters (s : State) (tick : Nat) : (sleepMark s tick).elapsed = s.elapsed ∧
    (sleepMark s tick).quantum = s.quantum ∧ (sleepMark s tick).current = s.current := by
  unfold sleepMark
  split
  · exact ⟨rfl, rfl, rfl⟩
  · exact ⟨rfl, rfl, rfl⟩

theorem cleanzombie_counters (s : State) : (schedulerCleanzombie s).2.elapsed = s.elapsed ∧
    (schedulerCleanzombie s).2.quantum = s.quantum ∧
    (schedulerCleanzombie s).2.current = s.current := by
  unfold schedulerCleanzombie
  split
  · exact ⟨rfl, rfl, rfl⟩
  · exact ⟨rfl, rfl, rfl⟩

theorem cleanzombie_next {s : State} {y : TcbPtr} (hy : y ≠ .head .zombie) :
    (schedulerCleanzombie s).2.next y = s.next y := by
  unfold schedulerCleanzombie
  split
  · rfl
  · exact (State.next_setNext s _ _ _).trans (if_neg hy)

/-- The threads in use keep their priorities. -/
def Machine.Keeps (m m' : Machine) : Prop := ∀ y, ¬ m.fresh y →
    (m'.sched.tcb y).priority = (m.sched.tcb y).priority

theorem Conserved.step {a : Action} (h : Conserved linked m v) (hstep : Step m a m') :
    ∃ v', Conserved linked m' v' ∧ v.Settles v' ∧ m.Keeps m' := by
  cases a with
  | run id priority quantum kstack =>
    obtain ⟨⟨_, hfresh, hpriority⟩, heq⟩ := Option.ite_none_right_eq_some.mp hstep
    cases heq
    obtain ⟨v', hv', hsettles, _⟩ := h.run hfresh hpriority
    refine ⟨v', hv', hsettles, fun y hy => ?_⟩
    have hne : y ≠ .thread id := fun heq => hy (heq ▸ hfresh)
    have hdata := runFresh_data m.sched (.thread id) y priority quantum kstack
    rw [if_neg hne] at hdata
    have hsame := congrArg Tcb.priority hdata
    exact hsame
  | tick =>
    simp only [Step, Scheduler.step, Option.map_eq_some_iff] at hstep
    obtain ⟨s', hrun, rfl⟩ := hstep
    obtain ⟨v', hv', hsettles, hpriority⟩ := h.tick hrun
    exact ⟨v', hv', hsettles, fun y _ => hpriority y⟩
  | yield =>
    simp only [Step, Scheduler.step, Option.map_eq_some_iff] at hstep
    obtain ⟨s', hrun, rfl⟩ := hstep
    obtain ⟨v', l, hyielded⟩ := h.yield hrun
    exact ⟨v', hyielded.conserved, hyielded.settles, fun y _ => hyielded.priority y⟩
  | sleep tick =>
    obtain ⟨hcall, heq⟩ := Option.ite_none_right_eq_some.mp hstep
    cases heq
    exact ⟨v, h.sleep hcall tick, Or.inl ⟨rfl, rfl⟩, fun y _ => sleepMark_priority m.sched tick y⟩
  | exitthread =>
    obtain ⟨hcall, heq⟩ := Option.ite_none_right_eq_some.mp hstep
    cases heq
    refine ⟨v, h.exitthread hcall, Or.inl ⟨rfl, rfl⟩, fun y _ => ?_⟩
    by_cases hy : y = m.sched.current <;> simp [Machine.withSched, exitMark, hy]
  | cleanzombie =>
    obtain ⟨_, heq⟩ := Option.ite_none_right_eq_some.mp hstep
    cases heq
    obtain ⟨q, hq, _⟩ := h.cleanzombie
    refine ⟨_, hq, Or.inl ⟨rfl, rfl⟩, fun y _ => ?_⟩
    have hsame := congrArg Tcb.priority (congrFun (cleanzombie_data m.sched) y)
    exact hsame

/-- `scheduler_pick` finds a target when the current thread stays active or another one is. -/
theorem Conserved.yield_returns (h : Conserved linked m v)
    (hactive : m.atCall ∨ ∃ p < schedulePriorityMax, v.queues (.active p) ≠ []) :
    ∃ m', Step m .yield m' := by
  obtain ⟨s, w, l, hw⟩ := h.woken
  have hmem : ∃ p < schedulePriorityMax, ∃ y, y ∈ w.queues (.active p) := by
    rcases hactive with hcall | ⟨p, hp, hne⟩
    · have hown : Belongs (.active (m.sched.tcb m.sched.current).priority)
          (m.sched.data m.sched.current) := ⟨rfl, hcall⟩
      have hl := hw.parked.unique hown
      have hstays := hw.stays (by simp [hl]) (by simp [hl])
      rw [hl] at hstays
      exact ⟨_, (h.thread _ h.current_mem).2, _, hstays⟩
    · obtain ⟨y, hy⟩ := List.exists_mem_of_ne_nil _ hne
      exact ⟨p, hp, y, hw.keeps p y hy⟩
  obtain ⟨p, hp, y, hy⟩ := hmem
  rcases pickTarget_spec hw.queued (List.range schedulePriorityMax) with
    ⟨_, hempty⟩ | ⟨i, _, x, _, _, _, hpick⟩
  · have hnode : y ∈ w.queues.hang w.hung (.active p) := w.queues.mem_hang hy
    rw [hempty p (List.mem_range.mpr hp)] at hnode
    exact absurd hnode (by simp)
  · have hrun : schedulerYield m.fuel m.sched =
        some { dispatch (unlinkTarget s (.active i) x) x with current := x } := by
      simp only [schedulerYield, schedulerPick_eq, hw.run, Option.bind_some, hpick, Option.map_some,
        Option.bind_eq_bind, Option.pure_def]
    exact ⟨_, congrArg (Option.map m.withSched) hrun⟩

theorem step_of_pickCall {e : Machine} {a : Action} (hcall : m.pickCall a = some e) :
    Scheduler.step m a = (schedulerYield e.fuel e.sched).map e.withSched := by
  cases a with
  | tick =>
    rw [Machine.pickCall, Option.ite_none_right_eq_some] at hcall
    obtain ⟨hquantum, heq⟩ := hcall
    cases heq
    rw [Scheduler.step, schedulerTick, if_pos hquantum]
    rfl
  | yield =>
    cases hcall
    rfl
  | run | sleep | exitthread | cleanzombie => simp [Machine.pickCall] at hcall

theorem Conserved.pickCall {e : Machine} {a : Action} (h : Conserved linked m v)
    (hcall : m.pickCall a = some e) : Conserved linked e v := by
  cases a with
  | tick =>
    rw [Machine.pickCall, Option.ite_none_right_eq_some] at hcall
    obtain ⟨_, heq⟩ := hcall
    cases heq
    exact h.countTick
  | yield =>
    cases hcall
    exact h
  | run | sleep | exitthread | cleanzombie => simp [Machine.pickCall] at hcall

/-- The thread that `scheduler_pick` returns was added, and only its charge and that of the one
that gave up the CPU have changed. -/
theorem Conserved.pick_eq {x : TcbPtr} {s' : State} (h : Conserved linked m v)
    (hpick : schedulerPick m.fuel m.sched = some (x, s')) :
    x ∈ m.added ∧ ∃ s, Unchanged (chargeCurrent m.sched) s ∧ s' = dispatch s x := by
  obtain ⟨s, w, l, hw⟩ := h.woken
  rw [schedulerPick_eq, hw.run] at hpick
  rcases pickTarget_spec hw.queued (List.range schedulePriorityMax) with
    ⟨hnone, _⟩ | ⟨i, _, y, q, hung, ht, htarget⟩
  · simp [hnone] at hpick
  · simp only [Option.bind_some, htarget, Option.map_some, Option.some.injEq,
      Prod.mk.injEq] at hpick
    obtain ⟨rfl, rfl⟩ := hpick
    have hnode : y ∈ w.nodes (.active i) := by
      rw [Layout.nodes, ht.nodes]
      exact List.mem_cons_self
    exact ⟨hw.listed _ y hnode, _, hw.unchanged.trans (.unlinkTarget (.active i) y), rfl⟩

/-- A thread in use that is not the current one has the flags of its list. -/
theorem Conserved.flags (h : Conserved linked m v) {x : TcbPtr} (hx : x ∈ v.queues.everything) :
    ((m.sched.tcb x).flags.slept = true ↔ x ∈ v.queues .slept) ∧
    ((m.sched.tcb x).flags.zombie = true ↔ x ∈ v.queues .zombie) := by
  obtain ⟨l, _, hl⟩ := List.mem_flatMap.mp hx
  have hnode : x ∈ v.nodes l := v.queues.mem_hang hl
  have hplace : ∀ k, x ∈ v.queues k ↔ k = l := by
    intro k
    refine ⟨fun hk => h.queued.same_list (v.queues.mem_hang hk) hnode, ?_⟩
    rintro rfl
    exact hl
  have hbelongs := (h.queued.member l x hnode).2
  have hflags : (m.sched.data x).flags = (m.sched.tcb x).flags := rfl
  rw [hplace, hplace, ← hflags]
  cases l with
  | active p =>
    rw [hbelongs.2]
    simp [Flags.clear]
  | slept =>
    rw [show (m.sched.data x).flags = ⟨true, false⟩ from hbelongs]
    simp
  | zombie =>
    rw [show (m.sched.data x).flags = ⟨false, true⟩ from hbelongs]
    simp

/-- The flags of the current thread are clear, but for the time between its mark and its yield. -/
theorem Conserved.step_current {a : Action} (h : Conserved linked m v) (hstep : Step m a m')
    (hcurrent : m.atCall ∨ Marked m) : m'.atCall ∨ Marked m' := by
  cases a with
  | run id priority quantum kstack =>
    obtain ⟨⟨hcall, hfresh, _⟩, heq⟩ := Option.ite_none_right_eq_some.mp hstep
    cases heq
    have hne : m.sched.current ≠ .thread id := fun heq =>
      h.not_mem_of_fresh hfresh (heq ▸ List.mem_cons_self)
    have hdata := runFresh_data m.sched (.thread id) m.sched.current priority quantum kstack
    rw [if_neg hne] at hdata
    have hflags := (congrArg Tcb.flags hdata).trans hcall
    refine .inl ?_
    unfold Machine.atCall
    rw [runFresh_current]
    exact hflags
  | tick =>
    have hfull := hstep
    simp only [Step, Scheduler.step, Option.map_eq_some_iff] at hstep
    obtain ⟨s', hrun, rfl⟩ := hstep
    by_cases hquantum : (Scheduler.countTick m.sched).quantum = 0
    · rw [schedulerTick, if_pos hquantum] at hrun
      obtain ⟨_, _, hyielded⟩ := h.countTick.yield hrun
      exact .inl hyielded.flags
    · rw [schedulerTick, if_neg hquantum] at hrun
      cases hrun
      have hnone : m.pickCall .tick = none := by
        rw [Machine.pickCall, if_neg hquantum]
      rcases hcurrent with hcall | hmarked
      · exact .inl hcall
      · exact .inr (.stay hmarked hfull hnone)
  | yield =>
    simp only [Step, Scheduler.step, Option.map_eq_some_iff] at hstep
    obtain ⟨s', hrun, rfl⟩ := hstep
    obtain ⟨_, _, hyielded⟩ := h.yield hrun
    exact .inl hyielded.flags
  | sleep tick => exact .inr (.sleep hstep)
  | exitthread => exact .inr (.exitthread hstep)
  | cleanzombie =>
    obtain ⟨hcall, heq⟩ := Option.ite_none_right_eq_some.mp hstep
    cases heq
    have hdata := congrFun (cleanzombie_data m.sched) m.sched.current
    have hflags := congrArg Tcb.flags hdata
    refine .inl ?_
    unfold Machine.atCall Machine.withSched
    dsimp only
    rw [(cleanzombie_counters m.sched).2.2]
    exact hflags.trans hcall

theorem Conserved.mem_of_not_fresh (h : Conserved linked m v) {x : TcbPtr} (hx : ¬ m.fresh x) :
    x ∈ m.sched.current :: v.threads := by
  have hcount := h.accounted.count_eq x
  rw [List.count_append] at hcount
  by_contra hnot
  rw [List.count_eq_zero.mpr hnot] at hcount
  exact hx (by unfold Machine.fresh; omega)

end Steps

/-! Runs from `scheduler_init`. -/

theorem Conserved.init : Conserved True Machine.init (.ofQueues fun _ => []) := by
  refine ⟨⟨fun l => ?_, fun _ l _ => ?_, fun _ => rfl, fun l x hx => ?_⟩, ?_, ?_, ?_,
    fun l x hx => ?_,
    ⟨.active schedulePriorityIdle, rfl, rfl⟩, fun x hx => ?_⟩
  · simp [Layout.ofQueues, Path, State.next, Machine.init, schedulerInit, kthreadMain, zeroTcb]
  · simp [Layout.ofQueues, BackLinked]
  · simp [Layout.ofQueues] at hx
  · decide
  · decide
  · intro x hx
    rw [List.mem_singleton.mp hx]
    exact ⟨trivial, by decide⟩
  · simp [Layout.nodes, Layout.ofQueues] at hx
  · simp [Layout.ofQueues] at hx

theorem Conserved.of_run {m : Machine} {as : List Action} (hrun : Run Step Machine.init as m) :
    ∃ q, Conserved True m (.ofQueues q) := by
  refine hrun.invariant (fun m => ∃ q, Conserved True m (.ofQueues q)) ?_ ⟨_, Conserved.init⟩
  rintro m a m' ⟨q, hq⟩ hstep
  obtain ⟨v', hv', hsettles, _⟩ := hq.step hstep
  rw [hsettles.ofQueues] at hv'
  exact ⟨_, hv'⟩

theorem current_of_run {m : Machine} {as : List Action} (hrun : Run Step Machine.init as m) :
    m.atCall ∨ Marked m := by
  have hboth := hrun.invariant
    (fun m => (∃ q, Conserved True m (.ofQueues q)) ∧ (m.atCall ∨ Marked m)) ?_
    ⟨⟨_, Conserved.init⟩, .inl rfl⟩
  · exact hboth.2
  · rintro m a m' ⟨⟨q, hq⟩, hcurrent⟩ hstep
    obtain ⟨v', hv', hsettles, _⟩ := hq.step hstep
    rw [hsettles.ofQueues] at hv'
    exact ⟨⟨_, hv'⟩, hq.step_current hstep hcurrent⟩

/-- Where every thread is, told from the memory of the scheduler. -/
structure Placed (m : Machine) (q : Queues) : Prop where
  places : (m.sched.current :: q.everything ++ m.freed).Perm m.added
  once : (m.sched.current :: q.everything).Nodup
  own : ∀ l, ∀ x ∈ q l, l ∈ listIds ∧ ∀ p, l = .active p → (m.sched.tcb x).priority = p
  active : ∀ p, Chain m.sched.next m.sched.prev (.head (.active p)) (q (.active p)) ∧
    m.sched.tail (.active p) = (q (.active p)).getLastD (.head (.active p))
  slept : Chain m.sched.next m.sched.prev (.head .slept) (q .slept)
  zombie : Path m.sched.next (.head .zombie) (q .zombie)
  acyclic : ∀ l, (TcbPtr.head l :: q l).Nodup
  flags : ∀ x ∈ m.added, ¬ m.fresh x → x ≠ m.sched.current →
    ((m.sched.tcb x).flags.slept = true ↔ x ∈ q .slept) ∧
    ((m.sched.tcb x).flags.zombie = true ↔ x ∈ q .zombie)
  current : (m.sched.tcb m.sched.current).flags = .clear ∨ Marked m

theorem Conserved.placed {m : Machine} {q : Queues} (h : Conserved True m (.ofQueues q))
    (hcurrent : m.atCall ∨ Marked m) : Placed m q := by
  have hnodes : Layout.nodes (.ofQueues q) = q := q.hang_none
  have hthreads : Layout.threads (.ofQueues q) = q.everything := Layout.threads_ofQueues q
  have hlinks : ∀ l, Path m.sched.next (.head l) (q l) := by
    intro l
    have hpath : Path m.sched.next (.head l) (Layout.nodes (.ofQueues q) l) := h.queued.path l
    rwa [hnodes] at hpath
  have hbacks : ∀ l, l ≠ .zombie → Chain m.sched.next m.sched.prev (.head l) (q l) := by
    intro l hl
    have hback : BackLinked m.sched.prev (.head l) (Layout.nodes (.ofQueues q) l) :=
      h.queued.back trivial l hl
    rw [hnodes] at hback
    exact ⟨hlinks l, hback⟩
  refine ⟨hthreads ▸ h.accounted, hthreads ▸ h.nodup, fun l x hx => ?_, fun p => ?_, ?_,
    hlinks .zombie,
    fun l => (hlinks l).nodup, fun x _ hfresh hne => h.flags ?_, hcurrent⟩
  · have hnode : x ∈ Layout.nodes (.ofQueues q) l := by rwa [hnodes]
    obtain ⟨_, hbelongs⟩ := h.queued.member l x hnode
    refine ⟨h.mem_listIds (h.listed l x hnode) hbelongs, ?_⟩
    rintro p rfl
    exact hbelongs.1
  · exact ⟨hbacks _ (by simp), h.queued.tail p⟩
  · exact hbacks _ (by simp)
  · have hmem := (List.mem_cons.mp (h.mem_of_not_fresh hfresh)).resolve_left hne
    rwa [hthreads] at hmem

theorem every_thread_in_one_place {m : Machine} {as : List Action}
    (hrun : Run Step Machine.init as m) :
    (∃ q, Placed m q) ∧
    ((m.atCall ∨ ∃ p < schedulePriorityMax, m.sched.next (.head (.active p)) ≠ none) →
      ∃ m', Step m .yield m') := by
  obtain ⟨q, h⟩ := Conserved.of_run hrun
  have hplaced := h.placed (current_of_run hrun)
  refine ⟨⟨q, hplaced⟩, fun hactive => h.yield_returns (hactive.imp_right ?_)⟩
  rintro ⟨p, hp, hnext⟩
  refine ⟨p, hp, fun hnil => hnext ?_⟩
  have hpath := (hplaced.active p).1.1
  rwa [show q (.active p) = [] from hnil] at hpath

theorem every_thread_in_one_place_sleep :
    ∃ m, Run Step Machine.init [.run 1 2 4 0, .sleep 2, .yield, .exitthread] m ∧ ∃ q,
      Placed m q := by
  have hrun : ∃ m, Run Step Machine.init [.run 1 2 4 0, .sleep 2, .yield, .exitthread] m :=
    ⟨_, .cons rfl (.cons rfl (.cons rfl (.cons rfl (.nil _))))⟩
  obtain ⟨m, hm⟩ := hrun
  exact ⟨m, hm, (every_thread_in_one_place hm).1⟩

end OsdevCourse.Scheduler
