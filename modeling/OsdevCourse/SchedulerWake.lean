import OsdevCourse.SchedulerFifo

/-!
# The wake-up loop against a proper advance of the queue

`scheduler_pick` compares every delta with all of the elapsed ticks, and it takes them off
in full where it stops. This is what a delta queue needs when every sleeper is due, or when
the sleepers that are due take no time off; in every other case a sleeper behind one that
is due loses ticks twice.
-/

namespace OsdevCourse.Scheduler

set_option autoImplicit false

open DeltaQueue (remaining advance expired)

/-- After the loop the threads whose time is over are on their active lists, in the order of
the slept list, and every other sleeper has `elapsed` less to wait. -/
def AdvancesExactly (fuel : Nat) (s : State) (q : Queues) : Prop :=
  let waiting := (remaining (s.deltas (q .slept))).filter fun p => s.elapsed < p.2
  ∃ s', awakeAll fuel s = some s' ∧
    Queued True s' ((q.set .slept (waiting.map Prod.fst)).enqueueAll (fun y => (s.tcb y).priority)
      (expired s.elapsed (s.deltas (q .slept)))) none ∧
    remaining (s'.deltas (waiting.map Prod.fst)) = waiting.map fun p => (p.1, p.2 - s.elapsed)

theorem dueSum_le_iff {a e : Nat} (hle : a ≤ e) (d : List (TcbPtr × Nat)) :
    (dueSum e d ≤ a ∧ left e d = []) ↔ ∀ p ∈ remaining d, p.2 ≤ a := by
  induction d generalizing a with
  | nil => simp [dueSum, left, remaining]
  | cons p d ih =>
    obtain ⟨x, w⟩ := p
    simp only [remaining, List.forall_mem_cons, List.forall_mem_map]
    by_cases hwe : w ≤ e
    · simp only [dueSum, left, if_pos hwe]
      by_cases hwa : w ≤ a
      · have hrest := ih (a := a - w) (by omega)
        constructor
        · rintro ⟨hsum, hleft⟩
          refine ⟨hwa, fun r hr => ?_⟩
          have hr' := hrest.mp ⟨by omega, hleft⟩ r hr
          omega
        · rintro ⟨_, hall⟩
          have hall' : ∀ r ∈ remaining d, r.2 ≤ a - w := fun r hr => by
            have hr' := hall r hr
            omega
          obtain ⟨hsum, hleft⟩ := hrest.mpr hall'
          exact ⟨by omega, hleft⟩
      · constructor
        · rintro ⟨hsum, _⟩
          omega
        · rintro ⟨hwa', _⟩
          exact absurd hwa' hwa
    · simp only [dueSum, left, if_neg hwe]
      constructor
      · rintro ⟨_, hleft⟩
        cases hleft
      · rintro ⟨hwa, _⟩
        omega

theorem dueSum_eq_zero_iff (e : Nat) (d : List (TcbPtr × Nat)) :
    dueSum e d = 0 ↔ ∀ p ∈ remaining d, p.2 ≤ e → p.2 = 0 := by
  induction d with
  | nil => simp [dueSum, remaining]
  | cons p d ih =>
    obtain ⟨x, w⟩ := p
    simp only [remaining, List.forall_mem_cons, List.forall_mem_map]
    by_cases hwe : w ≤ e
    · simp only [dueSum, if_pos hwe, Nat.add_eq_zero_iff, ih]
      constructor
      · rintro ⟨rfl, hall⟩
        refine ⟨fun _ => rfl, fun r hr hle => ?_⟩
        have hzero := hall r hr (by omega)
        omega
      · rintro ⟨hzero, hall⟩
        have hw : w = 0 := hzero hwe
        refine ⟨hw, fun r hr hle => ?_⟩
        have hsum := hall r hr (by omega)
        omega
    · simp only [dueSum, if_neg hwe, true_iff]
      exact ⟨fun hle => absurd hle hwe, fun r _ hle => by omega⟩

theorem charged_iff (e : Nat) (d : List (TcbPtr × Nat)) : Charged e d ↔
    (∀ p ∈ remaining d, p.2 ≤ e) ∨ ∀ p ∈ remaining d, p.2 ≤ e → p.2 = 0 := by
  rw [← dueSum_le_iff (Nat.le_refl e), ← dueSum_eq_zero_iff, Charged]
  constructor
  · rintro ⟨hsum, h⟩
    exact h.imp_left fun hleft => ⟨hsum, hleft⟩
  · rintro (⟨hsum, hleft⟩ | hzero)
    · exact ⟨hsum, Or.inl hleft⟩
    · exact ⟨by omega, Or.inr hzero⟩

theorem waiting_names (e : Nat) (d : List (TcbPtr × Nat)) :
    ((remaining d).filter fun p => e < p.2).map Prod.fst = (advance e d).map Prod.fst := by
  rw [← DeltaQueue.remaining_names (advance e d), DeltaQueue.remaining_advance, List.map_map]
  rfl

/-- The loop is exact when and only when it does what `advance` does. -/
theorem advancesExactly_iff_charged {fuel : Nat} {s : State} {q : Queues} (h : Queued True s q none)
    (hfuel : (q .slept).length < fuel) :
    AdvancesExactly fuel s q ↔ Charged s.elapsed (s.deltas (q .slept)) := by
  obtain ⟨s', hung', hrun, _, hhung, hqueued, hleft, _, _⟩ := awakeAll_spec h rfl hfuel
  have hnone : hung' = none := by
    rcases hhung with rfl | rfl <;> rfl
  subst hnone
  rw [← left_eq_advance_iff, AdvancesExactly]
  simp only [waiting_names, ← DeltaQueue.remaining_advance]
  have hslept : ∀ (ys : List TcbPtr) (zs : List TcbPtr),
      (q.set .slept ys).enqueueAll (fun y => (s.tcb y).priority) zs .slept = ys := by
    intro ys zs
    rw [Queues.enqueueAll_slept, Queues.set_self]
  constructor
  · rintro ⟨s'', hrun', hqueued', hremaining⟩
    obtain rfl : s' = s'' := Option.some.inj (hrun.symm.trans hrun')
    -- the links name one list, so both descriptions of it agree
    have hnames := congrFun (hqueued.unique hqueued') .slept
    rw [hslept, hslept] at hnames
    rw [← hnames, hleft] at hremaining
    exact DeltaQueue.remaining_injective hremaining
  · intro heq
    have hdue : due s.elapsed (s.deltas (q .slept)) = expired s.elapsed (s.deltas (q .slept)) := by
      have hsplit := due_append_left s.elapsed (s.deltas (q .slept))
      rw [heq] at hsplit
      exact List.append_cancel_right
        (hsplit.trans (DeltaQueue.expired_append_advance s.elapsed (s.deltas (q .slept))).symm)
    rw [heq] at hqueued hleft
    rw [hdue] at hqueued
    exact ⟨s', hrun, hqueued, congrArg remaining hleft⟩

/-- Every sleeper is due, or those that are due have no time to wait at all. -/
theorem advance_exact_iff {fuel : Nat} {s : State} {q : Queues} (h : Queued True s q none)
    (hfuel : (q .slept).length < fuel) : AdvancesExactly fuel s q ↔
    (∀ p ∈ remaining (s.deltas (q .slept)), p.2 ≤ s.elapsed) ∨
      ∀ p ∈ remaining (s.deltas (q .slept)), p.2 ≤ s.elapsed → p.2 = 0 := by
  rw [advancesExactly_iff_charged h hfuel, charged_iff]

theorem parked_lists {m : Machine} {as : List Action} {s : State} {xs : List TcbPtr}
    (hrun : Run Step Machine.init as m) (hpark : park m.fuel m.sched = some s)
    (hlinks : Path s.next (.head .slept) xs) : ∃ q, Queued True s q none ∧ q .slept = xs := by
  obtain ⟨q₀, hq₀⟩ := Conserved.of_run hrun
  obtain ⟨l, hl⟩ := hq₀.current
  have hthread := (hq₀.thread _ hq₀.current_mem).1
  have hfuel := hq₀.fuel_enough
  obtain ⟨s', _, hung', hpark', _, hhung, hqueued, _⟩ :=
    park_spec hq₀.queued hthread hq₀.absent hl (Nat.lt_of_succ_lt hfuel)
  obtain rfl : s = s' := Option.some.inj (hpark.symm.trans hpark')
  have hnone : hung' = none := by
    rcases hhung with rfl | rfl <;> rfl
  subst hnone
  have hpath := hqueued.path .slept
  rw [Queues.hang_none] at hpath
  exact ⟨_, hqueued, hpath.functional hlinks⟩

/-- Two threads go to sleep, and then 2 ticks are pending when `scheduler_pick` runs. -/
def asleep (first second : Nat) : List Action :=
  [.run 1 3 4 0, .run 2 3 4 0, .tick, .sleep first, .yield, .sleep second, .yield, .tick, .tick]

/-- They sleep for 1 and 2 ticks: both are due. -/
theorem advance_exact_iff_due : ∃ m s q, Run Step Machine.init (asleep 1 2) m ∧
    park m.fuel m.sched = some s ∧ q .slept = [.thread 1, .thread 2] ∧ AdvancesExactly 3 s q := by
  have hstate : ∃ m s, Run Step Machine.init (asleep 1 2) m ∧ park m.fuel m.sched = some s ∧
      Path s.next (.head .slept) [.thread 1, .thread 2] ∧ s.elapsed = 2 ∧
      s.deltas [.thread 1, .thread 2] = [(.thread 1, 1), (.thread 2, 1)] :=
    ⟨_, _, .cons rfl (.cons rfl (.cons rfl (.cons rfl (.cons rfl (.cons rfl (.cons rfl (.cons rfl
      (.cons rfl (.nil _))))))))), rfl, ⟨rfl, rfl, rfl⟩, rfl, rfl⟩
  obtain ⟨m, s, hrun, hpark, hlinks, helapsed, hdeltas⟩ := hstate
  obtain ⟨q, hqueued, hslept⟩ := parked_lists hrun hpark hlinks
  refine ⟨m, s, q, hrun, hpark, hslept, (advance_exact_iff hqueued ?_).mpr (.inl ?_)⟩
  · rw [hslept]
    decide
  · rw [hslept, hdeltas, helapsed]
    decide

theorem two_asleep : ∃ m s q, Run Step Machine.init (asleep 2 4) m ∧
    park m.fuel m.sched = some s ∧ Queued True s q none ∧ q .slept = [.thread 1, .thread 2] ∧
    s.elapsed = 2 ∧ s.deltas [.thread 1, .thread 2] = [(.thread 1, 2), (.thread 2, 2)] := by
  have hstate : ∃ m s, Run Step Machine.init (asleep 2 4) m ∧
      park m.fuel m.sched = some s ∧ Path s.next (.head .slept) [.thread 1, .thread 2] ∧
      s.elapsed = 2 ∧ s.deltas [.thread 1, .thread 2] = [(.thread 1, 2), (.thread 2, 2)] :=
    ⟨_, _, .cons rfl (.cons rfl (.cons rfl (.cons rfl (.cons rfl (.cons rfl (.cons rfl (.cons rfl
      (.cons rfl (.nil _))))))))), rfl, ⟨rfl, rfl, rfl⟩, rfl, rfl⟩
  obtain ⟨m, s, hrun, hpark, hlinks, helapsed, hdeltas⟩ := hstate
  obtain ⟨q, hqueued, hslept⟩ := parked_lists hrun hpark hlinks
  exact ⟨m, s, q, hrun, hpark, hqueued, hslept, helapsed, hdeltas⟩

/-- The second of the two threads is woken 2 ticks early. -/
theorem advance_not_exact : ¬ ∀ (m : Machine) (as : List Action) (s : State) (q : Queues)
    (fuel : Nat), Run Step Machine.init as m → park m.fuel m.sched = some s → Queued True s q none →
    (q .slept).length < fuel → AdvancesExactly fuel s q := by
  intro hclaim
  obtain ⟨m, s, q, hrun, hpark, hqueued, hslept, helapsed, hdeltas⟩ := two_asleep
  have hfuel : (q .slept).length < 3 := by
    rw [hslept]
    decide
  have hcharged := (advancesExactly_iff_charged hqueued hfuel).mp
    (hclaim m _ s q 3 hrun hpark hqueued hfuel)
  rw [hslept, hdeltas, helapsed] at hcharged
  exact absurd hcharged (by decide)

end OsdevCourse.Scheduler
