import OsdevCourse.SchedulerConservation

/-!
# `scheduler_run` with a timer interrupt inside it

`kmain` and `process_create` call `scheduler_run` with interrupts enabled, so a whole
`scheduler_pick` may come between any two of the four assignments of `scheduler_add`.
The runner goes on when it is the current thread again; meanwhile the other threads do
as they like. Nothing is lost unless the tail is moved to the new thread when it no
longer hangs after it.
-/

namespace OsdevCourse.Scheduler

set_option autoImplicit false

/-- One of the four assignments of `scheduler_add`. -/
def assignment (s : State) (list : ListId) (tcb : TcbPtr) : Nat → State
  | 0 => addNext s tcb
  | 1 => addPrev s list tcb
  | 2 => addLink s list tcb
  | _ => addTail s list tcb

theorem schedulerAdd_eq_assignments (s : State) (x : TcbPtr) : schedulerAdd s x =
    [0, 1, 2, 3].foldl (fun t i => assignment t (activeList s x) x i) s := rfl

/-- A call of `scheduler_run` on its way: how many assignments are done. -/
structure Adding where
  machine : Machine
  runner : TcbPtr
  tcb : TcbPtr
  list : ListId
  done : Nat

namespace Adding

/-- `scheduler_run` up to the first assignment. -/
def start (m : Machine) (x : TcbPtr) (priority quantum kstack : Nat) : Adding where
  machine := ⟨assignThreadId (m.sched.modify x fun _ => tcbInit priority quantum kstack) x,
    x :: m.added⟩
  runner := m.sched.current
  tcb := x
  list := .active priority
  done := 0

def assign (c : Adding) : Adding :=
  { c with
    machine := c.machine.withSched (assignment c.machine.sched c.list c.tcb c.done)
    done := c.done + 1 }

end Adding

inductive Event where
  | assign
  | other (a : Action)
  deriving DecidableEq, Repr

/-- In the middle of the call nothing but an interrupt keeps the runner from the next assignment. -/
def Adding.step (c : Adding) : Event → Option Adding
  | .assign => if c.machine.sched.current = c.runner ∧ c.done < 4 then some c.assign else none
  | .other a =>
    if c.machine.sched.current = c.runner ∧ c.done < 4 ∧ a ≠ .tick then none
    else (Scheduler.step c.machine a).map fun m => { c with machine := m }

def Adding.Step (c : Adding) (e : Event) (c' : Adding) : Prop := c.step e = some c'

/-- A state in which the lists are what they should be. -/
def WellFormed (m : Machine) : Prop := ∃ q, Conserved True m (.ofQueues q)

/-- Every ready thread is current or on the list of its priority, which ends at its tail. -/
def Consistent (m : Machine) : Prop := ∀ p < schedulePriorityMax, ∃ xs,
  Path m.sched.next (.head (.active p)) xs ∧
  m.sched.tail (.active p) = xs.getLastD (.head (.active p)) ∧
  ∀ y ∈ m.added, ¬ m.fresh y → (m.sched.tcb y).flags = .clear → (m.sched.tcb y).priority = p →
    y ≠ m.sched.current → y ∈ xs

theorem Conserved.consistent {linked : Prop} {m : Machine} {q : Queues}
    (h : Conserved linked m (.ofQueues q)) : Consistent m := by
  intro p _
  have hnodes : Layout.nodes (.ofQueues q) = q := q.hang_none
  have hpath : Path m.sched.next (.head (.active p)) (Layout.nodes (.ofQueues q) (.active p)) :=
    h.queued.path _
  rw [hnodes] at hpath
  refine ⟨q (.active p), hpath, h.queued.tail p, fun y _ hfresh hflags hpriority hne => ?_⟩
  have hmem := (List.mem_cons.mp (h.mem_of_not_fresh hfresh)).resolve_left hne
  rw [Layout.threads_ofQueues] at hmem
  obtain ⟨l, _, hl⟩ := List.mem_flatMap.mp hmem
  have hnode : y ∈ Layout.nodes (.ofQueues q) l := by rwa [hnodes]
  have hown : Belongs (.active p) (m.sched.data y) := ⟨hpriority, hflags⟩
  rwa [← (h.queued.member l y hnode).2.unique hown]

/-! The states of a call. -/

/-- The new thread is on no list yet, hangs after the tail, is lost, or was picked already. -/
inductive Phase (c : Adding) (p : Nat) : Prop where
  | waiting (q : Queues) : c.done ≤ 2 → Conserved False c.machine ⟨q, none, [c.tcb]⟩ →
    (c.machine.sched.tcb c.tcb).priority = p → Phase c p
  | hanging (q : Queues) : c.done = 3 → Conserved False c.machine
    ⟨q, some (p, c.tcb), []⟩ → Phase c p
  | lost (q : Queues) : c.done = 3 → Conserved False c.machine ⟨q, none, [c.tcb]⟩ → Phase c p
  | picked (q : Queues) : c.done = 3 → Conserved False c.machine (.ofQueues q) → Phase c p
  | over : c.done = 4 → Phase c p

/-- The tail is about to move to the new thread, and it still is the next one there. -/
def Adding.StillThere (c : Adding) : Prop :=
  c.machine.sched.next (c.machine.sched.tail c.list) = some c.tcb ∨
    c.machine.sched.tail c.list = c.tcb

theorem Conserved.not_fresh {linked : Prop} {m : Machine} {v : Layout} {x : TcbPtr}
    (h : Conserved linked m v) (hx : x ∈ v.threads) : ¬ m.fresh x :=
  fun hfresh => h.not_mem_of_fresh hfresh (List.mem_cons_of_mem _ hx)

theorem Queued.unlinked {linked : Prop} {s : State} {q : Queues} {hung : Option (Nat × TcbPtr)}
    (h : Queued linked s q hung) : Queued False s q hung :=
  ⟨h.path, fun hfalse => hfalse.elim, h.tail, h.member⟩

theorem Conserved.start {linked : Prop} {m : Machine} {q : Queues} {id priority : Nat}
    (h : Conserved linked m (.ofQueues q)) (hfresh : m.fresh (.thread id))
    (hpriority : priority < schedulePriorityMax) (quantum kstack : Nat) :
    Conserved False (Adding.start m (.thread id) priority quantum kstack).machine
      ⟨q, none, [.thread id]⟩ := by
  generalize hx : TcbPtr.thread id = x at hfresh ⊢
  have hthread : x.IsThread := hx ▸ trivial
  have hnot := h.not_mem_of_fresh hfresh
  have habsent : Queues.Absent (q.hang none) x :=
    fun _ hmem => hnot (List.mem_cons_of_mem _ (h.mem_threads hmem))
  have hqueued := h.queued.init habsent hthread priority quantum kstack
  have hthreads : Layout.threads ⟨q, none, [x]⟩ = q.everything ++ [x] := rfl
  have hperm : (m.sched.current :: (q.everything ++ [x])).Perm
      (x :: m.sched.current :: q.everything) :=
    ((List.perm_append_singleton x _).cons _).trans (List.Perm.swap x _ _)
  have hother : ∀ y, y ≠ x → (Adding.start m x priority quantum kstack).machine.sched.tcb y =
      m.sched.tcb y := by
    intro y hy
    simp [Adding.start, assignThreadId, hy]
  have hnew : ((Adding.start m x priority quantum kstack).machine.sched.tcb x) =
      { tcbInit priority quantum kstack with threadId := m.sched.nextThreadId } := by
    simp [Adding.start, assignThreadId, State.modify]
  rw [Layout.threads_ofQueues] at hnot
  refine ⟨hqueued.unlinked, ?_, ?_, fun y hy => ?_, fun l y hy => ?_, ?_, fun y hy => ?_⟩
  · have hall := h.accounted
    rw [Layout.threads_ofQueues] at hall
    exact (hperm.append_right m.freed).trans (hall.cons x)
  · have hnodup := h.nodup
    rw [Layout.threads_ofQueues] at hnodup
    exact hperm.symm.nodup (List.nodup_cons.mpr ⟨hnot, hnodup⟩)
  · by_cases hyx : y = x
    · rw [hyx, hnew]
      exact ⟨hthread, hpriority⟩
    · rw [hother y hyx]
      exact h.thread y ((List.mem_cons.mp hy).resolve_left hyx)
  · exact List.mem_cons_of_mem x (h.listed l y hy)
  · have hne : m.sched.current ≠ x := fun heq => hnot (heq ▸ List.mem_cons_self)
    obtain ⟨l, hl⟩ := h.current
    have hsame := hother _ hne
    refine ⟨l, hl.congr ?_⟩
    exact congrArg (fun t => Tcb.place { t with next := none, prev := none }) hsame
  · rw [List.mem_singleton.mp hy, State.next, hnew]
    exact ⟨rfl, rfl⟩

theorem Conserved.modify_lost {m : Machine} {q : Queues} {x : TcbPtr} {f : Tcb → Tcb}
    (h : Conserved False m ⟨q, none, [x]⟩) (hf : ∀ t, (f t).place = t.place)
    (hnext : (f (m.sched.tcb x)).next = none) :
    Conserved False (m.withSched (m.sched.modify x f)) ⟨q, none, [x]⟩ := by
  obtain ⟨hthread, _, hnone, habsent, hne⟩ := h.detached (x := x) (by simp [Layout.aside])
  have habsent' : Queues.Absent (q.hang none) x := by rwa [Queues.hang_none]
  have hplace : ∀ y, ((m.sched.modify x f).tcb y).place = (m.sched.tcb y).place := by
    intro y
    by_cases hy : y = x <;> simp [hy, hf]
  refine h.congr (h.queued.modify habsent' hthread f) rfl rfl rfl
    (fun y => congrArg Prod.fst (hplace y))
    ?_ fun y _ => ⟨congrArg Prod.snd (hplace y), ?_⟩
  · obtain ⟨l, hl⟩ := h.current
    exact ⟨l, hl.congr (hplace m.sched.current)⟩
  · by_cases hy : y = x
    · subst hy
      rw [hnone]
      simpa [Machine.withSched, State.next] using hnext
    · simp [Machine.withSched, State.next, hy]

theorem Conserved.link {m : Machine} {q : Queues} {x : TcbPtr} {p : Nat}
    (h : Conserved False m ⟨q, none, [x]⟩) (hp : (m.sched.tcb x).priority = p) :
    Conserved False (m.withSched (addLink m.sched (.active p) x)) ⟨q, some (p, x), []⟩ := by
  obtain ⟨hthread, hflags, hnone, habsent, _⟩ := h.detached (x := x) (by simp [Layout.aside])
  have hnew : x ∉ TcbPtr.head (.active p) :: q (.active p) := Queued.not_node habsent hthread
  have hpath := h.queued.path (.active p)
  have htail : m.sched.tail (.active p) = (q (.active p)).getLastD (.head (.active p)) :=
    h.queued.tail p
  have hmem := h.queued.tail_mem p
  have hne : x ≠ m.sched.tail (.active p) := fun heq => hnew (heq ▸ hmem)
  have hnodes : q.hang (some (p, x)) (.active p) = q (.active p) ++ [x] := by
    simp [Queues.hang, Queues.hungAt]
  have hplace := congrFun (State.data_setNext m.sched (m.sched.tail (.active p)) (some x))
  have hnexts : ∀ y, (addLink m.sched (.active p) x).next y =
      if y = m.sched.tail (.active p) then some x else m.sched.next y :=
    fun y => State.next_setNext m.sched _ y _
  have hothers : ∀ k, k ≠ .active p → q.hang (some (p, x)) k = q.hang none k := by
    intro k hk
    simp [Queues.hang, Queues.hungAt, hk]
  have hsame : ∀ y, y ≠ m.sched.tail (.active p) →
      (addLink m.sched (.active p) x).next y = m.sched.next y :=
    fun y hy => (hnexts y).trans (if_neg hy)
  have hqueued : Queued False (addLink m.sched (.active p) x) q (some (p, x)) := by
    refine h.queued.replace (l := .active p) ?_ (fun hfalse => hfalse.elim) (fun _ _ => htail) ?_
      (fun k hk => ⟨rfl, hothers k hk⟩) ?_ (fun hfalse => hfalse.elim) (fun _ _ => rfl)
      (fun _ _ y _ => congrArg Tcb.place (hplace y))
    · rw [hnodes]
      refine hpath.cutSnoc ?_ ?_ hnew fun y hy _ => hsame y (htail ▸ hy)
      · rw [hnexts, if_pos htail.symm]
      · rw [hsame x hne, hnone]
    · intro y hy
      rw [hnodes] at hy
      rw [show (addLink m.sched (.active p) x).data y = m.sched.data y from hplace y]
      rcases List.mem_append.mp hy with hy | hy
      · exact h.queued.member _ y (q.mem_hang hy)
      · rw [List.mem_singleton.mp hy]
        exact ⟨hthread, hp, hflags⟩
    · intro k hk y hy
      refine hsame y fun heq => hk ?_
      refine h.queued.same_node hy ?_
      rw [heq, Queues.hang_none]
      exact hmem
  have hthreads : Layout.threads ⟨q, some (p, x), []⟩ = Layout.threads ⟨q, none, [x]⟩ := rfl
  refine ⟨hqueued, hthreads ▸ h.accounted, hthreads ▸ h.nodup, fun y hy => ?_, fun l y hy => ?_, ?_,
    fun y hy => absurd hy List.not_mem_nil⟩
  · have hkept := (Unchanged.setNext (s := m.sched) (m.sched.tail (.active p)) (some x)).priority y
    exact ⟨(h.thread y hy).1, lt_of_eq_of_lt hkept (h.thread y hy).2⟩
  · rcases List.mem_append.mp hy with hy | hy
    · exact h.listed l y (q.mem_hang hy)
    · have haside : y ∈ Layout.aside ⟨q, some (p, x), []⟩ := Layout.mem_aside hy
      have hyx : y = x := by simpa [Layout.aside] using haside
      rw [hyx]
      exact h.threads_mem (List.mem_cons_of_mem _ (by simp [Layout.threads, Layout.aside]))
  · obtain ⟨l, hl⟩ := h.current
    exact ⟨l, hl.congr (congrArg Tcb.place (hplace _))⟩

theorem Conserved.step_settled {m m' : Machine} {q : Queues} {lost : List TcbPtr} {a : Action}
    (h : Conserved False m ⟨q, none, lost⟩) (hstep : Scheduler.Step m a m') :
    ∃ q', Conserved False m' ⟨q', none, lost⟩ ∧ m.Keeps m' := by
  obtain ⟨⟨q', hung', lost'⟩, hv', hsettles, hkeeps⟩ := h.step hstep
  have hsame : hung' = none ∧ lost' = lost := by
    rcases hsettles with ⟨hhung, hlost⟩ | ⟨hhung, hlost | hlost⟩
    · exact ⟨hhung, hlost⟩
    · exact ⟨hhung, hlost⟩
    · exact ⟨hhung, by simpa [Layout.aside] using hlost⟩
  obtain ⟨rfl, rfl⟩ := hsame
  exact ⟨q', hv', hkeeps⟩

theorem Phase.other {c : Adding} {p : Nat} {a : Action} {m : Machine} (h : Phase c p)
    (hstep : Scheduler.Step c.machine a m) : Phase { c with machine := m } p := by
  cases h with
  | waiting q hdone hq hp =>
    obtain ⟨q', hq', hkeeps⟩ := hq.step_settled hstep
    have hused := hq.not_fresh (x := c.tcb) (by simp [Layout.threads, Layout.aside])
    exact .waiting q' hdone hq' ((hkeeps _ hused).trans hp)
  | hanging q hdone hq =>
    obtain ⟨⟨q', hung', lost'⟩, hv', hsettles, _⟩ := hq.step hstep
    rcases hsettles with ⟨hhung, hlost⟩ | ⟨hhung, hlost | hlost⟩ <;> dsimp only at hhung hlost <;>
      subst hhung hlost
    · exact .hanging q' hdone hv'
    · exact .picked q' hdone hv'
    · exact .lost q' hdone hv'
  | lost q hdone hq =>
    obtain ⟨q', hq', _⟩ := hq.step_settled hstep
    exact .lost q' hdone hq'
  | picked q hdone hq =>
    obtain ⟨q', hq', _⟩ := hq.step_settled hstep
    exact .picked q' hdone hq'
  | «over» hdone => exact .over hdone

theorem Phase.assign {c : Adding} {p : Nat} (h : Phase c p) (hlist : c.list = .active p)
    (hlt : c.done < 4) : Phase c.assign p := by
  cases h with
  | waiting q hdone hq hp =>
    have hcases : c.done = 0 ∨ c.done = 1 ∨ c.done = 2 := by omega
    rcases hcases with h0 | h1 | h2
    · have hq' := hq.modify_lost (f := fun t => { t with next := none }) (fun _ => rfl) rfl
      refine .waiting q (by simp [Adding.assign, h0]) ?_ ?_
      · simp only [Adding.assign, h0, assignment]
        exact hq'
      · simpa [Adding.assign, h0, assignment, addNext, State.setNext, Machine.withSched] using hp
    · have hnone := (hq.detached (x := c.tcb) (by simp [Layout.aside])).2.2.1
      have hq' := hq.modify_lost
        (f := fun t => { t with prev := some (c.machine.sched.tail c.list) })
        (fun _ => rfl) hnone
      refine .waiting q (by simp [Adding.assign, h1]) ?_ ?_
      · simp only [Adding.assign, h1, assignment]
        exact hq'
      · simpa [Adding.assign, h1, assignment, addPrev, State.setPrev, Machine.withSched] using hp
    · refine .hanging q (by simp [Adding.assign, h2]) ?_
      simpa only [Adding.assign, h2, assignment, hlist] using hq.link hp
  | hanging q hdone hq => exact .over (by simp [Adding.assign, hdone])
  | lost q hdone hq => exact .over (by simp [Adding.assign, hdone])
  | picked q hdone hq => exact .over (by simp [Adding.assign, hdone])
  | «over» hdone => omega

theorem Phase.step {c c' : Adding} {p : Nat} {e : Event} (h : c.list = .active p ∧ Phase c p)
    (hstep : c.Step e c') : c'.list = .active p ∧ Phase c' p := by
  obtain ⟨hlist, hphase⟩ := h
  cases e with
  | assign =>
    obtain ⟨⟨_, hlt⟩, heq⟩ := Option.ite_none_right_eq_some.mp hstep
    cases heq
    exact ⟨hlist, hphase.assign hlist hlt⟩
  | other a =>
    obtain ⟨_, heq⟩ := Option.ite_none_left_eq_some.mp hstep
    obtain ⟨m, hm, rfl⟩ := Option.map_eq_some_iff.mp heq
    exact ⟨hlist, hphase.other hm⟩

/-! The last assignment. -/

theorem Queues.hang_some (q : Queues) (p : Nat) (x : TcbPtr) :
    q.hang (some (p, x)) = q.enqueue p x := by
  funext l
  by_cases hl : l = .active p
  · subst hl
    simp [Queues.hang, Queues.hungAt, Queues.enqueue]
  · simp [Queues.hang, Queues.hungAt, Queues.enqueue, Queues.set, hl]

theorem Conserved.moveTail {m : Machine} {q : Queues} {x : TcbPtr} {p : Nat}
    (h : Conserved False m ⟨q, some (p, x), []⟩) (hp : p < schedulePriorityMax) :
    Conserved False (m.withSched (addTail m.sched (.active p) x)) (.ofQueues (q.enqueue p x)) := by
  have hnodes : Layout.nodes (.ofQueues (q.enqueue p x)) = q.hang (some (p, x)) := by
    rw [Queues.hang_some]
    exact Queues.hang_none _
  have hthreads : (Layout.threads (.ofQueues (q.enqueue p x))).Perm
      (Layout.threads ⟨q, some (p, x), []⟩) := by
    have hall : (q.enqueue p x).everything.Perm ([x] ++ q.everything) :=
      q.everything_set List.perm_append_comm (active_mem_listIds hp)
    rw [Layout.threads_ofQueues]
    exact hall.trans List.perm_append_comm
  refine ⟨⟨fun l => ?_, fun hfalse => hfalse.elim, fun p' => ?_, fun l y hy => ?_⟩,
    ((hthreads.cons _).append_right _).trans h.accounted, (hthreads.cons _).symm.nodup h.nodup,
    h.thread, fun l y hy => ?_, h.current, fun y hy => absurd hy List.not_mem_nil⟩
  · have hpath : Path m.sched.next (.head l) (q.hang (some (p, x)) l) := h.queued.path l
    rw [← hnodes] at hpath
    exact hpath
  · by_cases hp' : p' = p
    · subst hp'
      simp [Layout.ofQueues, Machine.withSched, addTail, Queues.enqueue]
    · have htail := h.queued.tail p'
      simpa [Layout.ofQueues, Machine.withSched, addTail, Queues.enqueue, Queues.set,
        hp'] using htail
  · have hmem : y ∈ Layout.nodes (.ofQueues (q.enqueue p x)) l := hy
    rw [hnodes] at hmem
    exact h.queued.member l y hmem
  · rw [hnodes] at hy
    exact h.listed l y hy

/-- With nothing hanging after the tail, the move is right only if it changes nothing. -/
theorem Conserved.tail_of_consistent {m : Machine} {q : Queues} {lost : List TcbPtr}
    {x : TcbPtr} {p : Nat}
    (h : Conserved False m ⟨q, none, lost⟩) (hp : p < schedulePriorityMax)
    (hc : Consistent (m.withSched (addTail m.sched (.active p) x))) :
    m.sched.tail (.active p) = x := by
  obtain ⟨xs, hpath, htail, _⟩ := hc p hp
  have hpath' := h.queued.path (.active p)
  rw [Queues.hang_none] at hpath'
  have hxs : xs = q (.active p) := Path.functional hpath hpath'
  have htail' : m.sched.tail (.active p) = (q (.active p)).getLastD (.head (.active p)) :=
    h.queued.tail p
  rw [htail', ← hxs, ← htail]
  exact if_pos rfl

theorem Conserved.stillThere_iff {c : Adding} {q : Queues} {lost : List TcbPtr} {p : Nat}
    (h : Conserved False c.machine ⟨q, none, lost⟩) (hlist : c.list = .active p) :
    c.StillThere ↔ c.machine.sched.tail (.active p) = c.tcb := by
  have hpath := h.queued.path (.active p)
  rw [Queues.hang_none] at hpath
  have hlast := hpath.next_last
  rw [← show c.machine.sched.tail (.active p) = _ from h.queued.tail p] at hlast
  simp [Adding.StillThere, hlist, hlast]

theorem State.setTail_self {s : State} {l : ListId} {p : TcbPtr} (h : s.tail l = p) :
    s.setTail l p = s := by
  have htail : (fun m => if m = l then p else s.tail m) = s.tail := by
    funext m
    by_cases hm : m = l <;> simp [hm, h]
  rw [State.setTail, htail]

theorem Phase.finish {c : Adding} {p : Nat} (h : Phase c p) (hp : p < schedulePriorityMax)
    (hlist : c.list = .active p) (hdone : c.done = 3) :
    (Consistent c.assign.machine → c.StillThere) ∧
    (c.StillThere → ∃ q, Conserved False c.assign.machine (.ofQueues q)) := by
  have hassign : c.assign.machine = c.machine.withSched
      (addTail c.machine.sched (.active p) c.tcb) := by
    simp only [Adding.assign, hdone, assignment, hlist]
  rw [hassign]
  cases h with
  | waiting q hle => omega
  | hanging q _ hq =>
    refine ⟨fun _ => Or.inl ?_, fun _ => ⟨_, hq.moveTail hp⟩⟩
    have hpath := hq.queued.path (.active p)
    have hnodes : q.hang (some (p, c.tcb)) (.active p) = q (.active p) ++ [c.tcb] := by
      rw [Queues.hang_some, Queues.enqueue, Queues.set_self]
    rw [hnodes] at hpath
    rw [hlist, show c.machine.sched.tail (.active p) = _ from hq.queued.tail p]
    exact hpath.split.1
  | lost q _ hq =>
    rw [hq.stillThere_iff hlist]
    refine ⟨hq.tail_of_consistent hp, fun htail => ?_⟩
    -- the lost thread is no node of the list
    obtain ⟨hthread, _, _, habsent, _⟩ := hq.detached (x := c.tcb) (by simp [Layout.aside])
    have hmem := hq.queued.tail_mem p
    rw [htail] at hmem
    exact absurd hmem (Queued.not_node habsent hthread)
  | picked q _ hq =>
    rw [hq.stillThere_iff hlist]
    refine ⟨hq.tail_of_consistent hp, fun htail => ⟨q, ?_⟩⟩
    rw [addTail, State.setTail_self htail]
    exact hq
  | «over» hover => omega

theorem Conserved.after {c c' : Adding} {es : List Event} {q : Queues}
    (h : Conserved False c.machine (.ofQueues q)) (hdone : c.done = 4)
    (hrun : Run Adding.Step c es c') :
    Consistent c'.machine := by
  have hend := hrun.invariant
    (fun c => c.done = 4 ∧ ∃ q, Conserved False c.machine (.ofQueues q)) ?_ ⟨hdone, q, h⟩
  · obtain ⟨_, q', hq'⟩ := hend
    exact hq'.consistent
  · rintro c e c' ⟨hc, q, hq⟩ hstep
    cases e with
    | assign =>
      obtain ⟨⟨_, hlt⟩, _⟩ := Option.ite_none_right_eq_some.mp hstep
      omega
    | other a =>
      obtain ⟨_, heq⟩ := Option.ite_none_left_eq_some.mp hstep
      obtain ⟨m, hm, rfl⟩ := Option.map_eq_some_iff.mp heq
      obtain ⟨q', hq', _⟩ := hq.step_settled hm
      exact ⟨hc, q', hq'⟩

theorem run_keeps_every_thread_iff {m : Machine} {id priority quantum kstack : Nat}
    {es : List Event}
    {c c' : Adding} (hwf : WellFormed m) (hfresh : m.fresh (.thread id))
    (hpriority : priority < schedulePriorityMax)
    (hrun : Run Adding.Step (.start m (.thread id) priority quantum kstack) es c)
    (hdone : c.done = 3)
    (hassign : c.Step .assign c') :
    (∀ es' c'', Run Adding.Step c' es' c'' → Consistent c''.machine) ↔ c.StillThere := by
  obtain ⟨q, hq⟩ := hwf
  have hstart := hq.start hfresh hpriority quantum kstack
  have hwaiting : Phase (.start m (.thread id) priority quantum kstack) priority := by
    refine .waiting q (Nat.zero_le _) hstart ?_
    simp [Adding.start, assignThreadId, tcbInit]
  obtain ⟨hlist, hphase⟩ := hrun.invariant (fun c => c.list = .active priority ∧ Phase c priority)
    (fun _ _ _ h hstep => Phase.step h hstep) ⟨rfl, hwaiting⟩
  obtain ⟨hneeds, hkeeps⟩ := hphase.finish hpriority hlist hdone
  obtain ⟨_, heq⟩ := Option.ite_none_right_eq_some.mp hassign
  cases heq
  have hover : c.assign.done = 4 := by simp [Adding.assign, hdone]
  constructor
  · intro hall
    exact hneeds (hall [] _ (.nil _))
  · intro hthere es' c'' hrun'
    obtain ⟨q', hq'⟩ := hkeeps hthere
    exact hq'.after hover hrun'

/-- The machine with a thread of the priority 2 beside `kmain`. -/
def twoThreads : Machine := ⟨runFresh schedulerInit (.thread 1) 2 4 0, [.thread 1, kthreadMain]⟩

theorem twoThreads_run : Run Step Machine.init [.run 1 2 4 0] twoThreads := .single rfl

/-- A thread of the priority 1 is added; before the third assignment the other thread is picked, and
runs to its end. -/
theorem run_keeps_every_thread_preempted : ∃ c c', Run Adding.Step
      (.start twoThreads (.thread 2) 1 16 0)
      [.assign, .assign, .other .tick, .other .exitthread, .other .yield, .assign] c ∧
    c.Step .assign c' ∧ ∀ es' c'', Run Adding.Step c' es' c'' → Consistent c''.machine := by
  have hrun : ∃ c c', Run Adding.Step (.start twoThreads (.thread 2) 1 16 0)
      [.assign, .assign, .other .tick, .other .exitthread, .other .yield, .assign] c ∧
      c.done = 3 ∧ c.Step .assign c' ∧ c.StillThere :=
    ⟨_, _, .cons rfl (.cons rfl (.cons rfl (.cons rfl (.cons rfl (.cons rfl (.nil _)))))), rfl,
      rfl, Or.inl rfl⟩
  obtain ⟨c, c', hrun, hdone, hassign, hthere⟩ := hrun
  exact ⟨c, c', hrun, hassign, (run_keeps_every_thread_iff (Conserved.of_run twoThreads_run)
    (by decide) (by decide) hrun hdone hassign).mpr hthere⟩

/-- A tick before the last assignment: the idle thread of `kmain` is on no list afterwards. -/
theorem run_loses_a_thread : ¬ ∀ (m : Machine) (id priority quantum kstack : Nat) (es : List Event)
    (c c' : Adding), WellFormed m → m.fresh (.thread id) → priority < schedulePriorityMax →
    Run Adding.Step (.start m (.thread id) priority quantum kstack) es c → c.done = 3 →
    c.Step .assign c' → Consistent c'.machine := by
  intro hclaim
  have hruns : ∃ c c', Run Adding.Step (.start Machine.init (.thread 1) 3 16 0)
      [.assign, .assign, .assign, .other .tick] c ∧ c.done = 3 ∧ c.Step .assign c' ∧
      c'.machine.sched.next (.head (.active 3)) = none ∧
          c'.machine.sched.tail (.active 3) = .thread 1 :=
    ⟨_, _, .cons rfl (.cons rfl (.cons rfl (.cons rfl (.nil _)))), rfl, rfl, rfl, rfl⟩
  obtain ⟨c, c', hrun, hdone, hassign, hempty, htail⟩ := hruns
  have hbad := hclaim _ 1 3 16 0 _ c c' ⟨_, Conserved.init⟩ (by decide)
    (by decide) hrun hdone hassign
  obtain ⟨xs, hpath, hlast, _⟩ := hbad 3 (by decide)
  have hnil : xs = [] := Path.functional hpath hempty
  rw [hnil, htail] at hlast
  exact absurd hlast (by decide)

end OsdevCourse.Scheduler
