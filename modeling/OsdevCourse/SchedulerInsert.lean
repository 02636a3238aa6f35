import OsdevCourse.SchedulerQueues

/-!
# The insertion into the slept list

The `SLEPT` branch of `scheduler_pick` with the subtractions of `uint32_t`. No subtraction
of it wraps, so it is `sleptInsert`; and on the absolute times it puts one entry into a
non-decreasing list.
-/

namespace OsdevCourse.Scheduler

set_option autoImplicit false

open DeltaQueue (remaining)

/-- `a - b` on `uint32_t`. -/
def sub32 (a b : Nat) : Nat := (a + 2 ^ 32 - b) % 2 ^ 32

theorem sub32_of_le {a b : Nat} (hle : b ≤ a) (ha : a < 2 ^ 32) : sub32 a b = a - b := by
  unfold sub32
  omega

/-- The loop with wrapping subtractions. The operands of each one are kept, in order. -/
def sleptInsert32 : Nat → State → TcbPtr → TcbPtr → Option (State × List (Nat × Nat))
  | 0, _, _, _ => none
  | fuel + 1, s, current, slept =>
    match s.next slept with
    | none => some (sleptLink s current slept none, [])
    | some next =>
      let tick := (s.tcb current).sleepTick
      let nextTick := (s.tcb next).sleepTick
      if tick ≤ nextTick then
        let s := s.modify next fun t => { t with sleepTick := sub32 nextTick tick }
        some (sleptLink s current slept (some next), [(nextTick, tick)])
      else
        let s := s.modify current fun t => { t with sleepTick := sub32 tick nextTick }
        (sleptInsert32 fuel s current next).map fun r => (r.1, (tick, nextTick) :: r.2)

theorem sleptInsert32_eq {c : TcbPtr} {xs : List TcbPtr} {s : State} {p : TcbPtr} (fuel : Nat)
    (hpath : Path s.next p xs) (hc : c ∉ p :: xs) (h32 : ∀ x ∈ c :: xs, s.ticks x < 2 ^ 32) :
    ∃ subs, (∀ r ∈ subs, r.2 ≤ r.1) ∧
      sleptInsert32 fuel s c p = (sleptInsert fuel s c p).map fun s' => (s', subs) := by
  induction xs generalizing fuel s p with
  | nil =>
    refine ⟨[], by simp, ?_⟩
    have hnone : s.next p = none := hpath
    cases fuel with
    | zero => rfl
    | succ n => simp [sleptInsert32, sleptInsert, hnone]
  | cons x xs ih =>
    cases fuel with
    | zero => exact ⟨[], by simp, rfl⟩
    | succ n =>
      have hnext : s.next p = some x := hpath.1
      have hxc : x ≠ c := fun heq => hc (by simp [heq])
      have hc32 : (s.tcb c).sleepTick < 2 ^ 32 := h32 c List.mem_cons_self
      have hx32 : (s.tcb x).sleepTick < 2 ^ 32 := h32 x (by simp)
      by_cases hle : (s.tcb c).sleepTick ≤ (s.tcb x).sleepTick
      · refine ⟨[((s.tcb x).sleepTick, (s.tcb c).sleepTick)], by simpa using hle, ?_⟩
        simp only [sleptInsert32, sleptInsert, hnext, if_pos hle, sub32_of_le hle hx32,
          Option.map_some]
      · -- the rest of the loop starts from what is left of the new sleeper's time
        have hge : (s.tcb x).sleepTick ≤ (s.tcb c).sleepTick := by omega
        obtain ⟨s₁, hs₁⟩ : ∃ s₁, s₁ = s.modify c fun t =>
          { t with sleepTick := (s.tcb c).sleepTick - (s.tcb x).sleepTick } := ⟨_, rfl⟩
        have hpath₁ : Path s₁.next x xs := by
          rw [hs₁, State.next_modify]
          · exact hpath.2
          · exact fun _ => rfl
        have h32₁ : ∀ y ∈ c :: xs, s₁.ticks y < 2 ^ 32 := by
          intro y hy
          have hold : s.ticks y < 2 ^ 32 := h32 y (by
            rcases List.mem_cons.mp hy with rfl | hy
            · exact List.mem_cons_self
            · exact List.mem_cons_of_mem c (List.mem_cons_of_mem x hy))
          by_cases hyc : y = c
          · simp only [hs₁, State.ticks, State.tcb_modify, if_pos hyc]
            omega
          · simpa only [hs₁, State.ticks, State.tcb_modify, if_neg hyc] using hold
        obtain ⟨subs, hsubs, hrun⟩ :=
          ih n hpath₁ (fun hmem => hc (List.mem_cons_of_mem p hmem)) h32₁
        refine ⟨((s.tcb c).sleepTick, (s.tcb x).sleepTick) :: subs, ?_, ?_⟩
        · intro r hr
          rcases List.mem_cons.mp hr with rfl | hr
          · exact hge
          · exact hsubs r hr
        · simp only [sleptInsert32, sleptInsert, hnext, if_neg hle, sub32_of_le hge hc32]
          rw [← hs₁, hrun, Option.map_map]
          rfl

theorem ticks_le_remaining {s : State} {xs : List TcbPtr} {x : TcbPtr} (hx : x ∈ xs) :
    ∃ w, (x, w) ∈ remaining (s.deltas xs) ∧ s.ticks x ≤ w := by
  induction xs with
  | nil => simp at hx
  | cons y ys ih =>
    have hdeltas : s.deltas (y :: ys) = (y, s.ticks y) :: s.deltas ys := rfl
    rw [hdeltas]
    rcases List.mem_cons.mp hx with rfl | hx
    · exact ⟨s.ticks x, DeltaQueue.mem_remaining_cons.mpr (Or.inl ⟨rfl, rfl⟩), Nat.le_refl _⟩
    · obtain ⟨w, hw, hle⟩ := ih hx
      refine ⟨s.ticks y + w, DeltaQueue.mem_remaining_cons.mpr (Or.inr ⟨by omega, ?_⟩), by omega⟩
      rwa [Nat.add_sub_cancel_left]

theorem sleep_insertion_keeps_times {s : State} {c : TcbPtr} {xs : List TcbPtr} {fuel : Nat}
    (hslept : Chain s.next s.prev (.head .slept) xs) (hnew : c ∉ TcbPtr.head .slept :: xs)
    (hsums : ∀ r ∈ remaining (s.deltas xs), r.2 ≤ 2 ^ 32 - 1) (ht : s.ticks c < 2 ^ 32)
    (hfuel : xs.length < fuel) :
    ∃ s' subs before after, sleptInsert32 fuel s c (.head .slept) = some (s', subs) ∧
      sleptInsert fuel s c (.head .slept) = some s' ∧ (∀ r ∈ subs, r.2 ≤ r.1) ∧
      remaining (s.deltas xs) = before ++ after ∧
      Chain s'.next s'.prev (.head .slept) ((before ++ (c, s.ticks c) :: after).map Prod.fst) ∧
      remaining (s'.deltas ((before ++ (c, s.ticks c) :: after).map Prod.fst)) =
        before ++ (c, s.ticks c) :: after ∧
      (before ++ (c, s.ticks c) :: after).Pairwise fun a b => a.2 ≤ b.2 := by
  have h32 : ∀ x ∈ c :: xs, s.ticks x < 2 ^ 32 := by
    intro x hx
    rcases List.mem_cons.mp hx with rfl | hx
    · exact ht
    · obtain ⟨w, hw, hle⟩ := ticks_le_remaining (s := s) hx
      have hsum : w ≤ 2 ^ 32 - 1 := hsums _ hw
      omega
  obtain ⟨subs, hsubs, h32run⟩ := sleptInsert32_eq fuel hslept.1 hnew h32
  obtain ⟨ys, zs, f, hsplit, hrun, hdeltas, _⟩ := sleptInsert_eq hslept.1 hnew hfuel
  obtain ⟨before, after, hold, hins⟩ := DeltaQueue.remaining_insert c (s.ticks c) (s.deltas xs)
  have hdeltas' : (sleptLink (s.withTicks f) c (ys.getLastD (.head .slept)) zs.head?).deltas
      (ys ++ c :: zs) = DeltaQueue.insert c (s.ticks c) (s.deltas xs) := by
    rw [← hdeltas]
    exact deltas_congr fun y _ => ticks_of_data (congrFun (sleptLink_data _ _ _ _) y)
  -- the list of names is the list the loop linked
  have hnames : (before ++ (c, s.ticks c) :: after).map Prod.fst = ys ++ c :: zs := by
    rw [← hins, DeltaQueue.remaining_names, ← hdeltas, deltas_names]
  refine ⟨_, subs, before, after, ?_, hrun, hsubs, hold, ?_, ?_, ?_⟩
  · rw [h32run, hrun]
    rfl
  · rw [hnames]
    subst hsplit
    have hnodup := List.nodup_cons.mp hslept.1.nodup
    refine ⟨sleptLink_path hslept.1 hnew, sleptLink_back hslept.2 ?_ hnodup.2⟩
    exact fun hmem => hnew (List.mem_cons_of_mem _ hmem)
  · rw [hnames, hdeltas', hins]
  · rw [← hins]
    exact DeltaQueue.remaining_sorted _

/-- A thread with 3 ticks left goes before one with 5. -/
theorem sleep_insertion_keeps_times_one : ∃ s : State,
    remaining (s.deltas [.thread 1]) = [(.thread 1, 5)] ∧ s.ticks (.thread 2) = 3 ∧
    ∃ s' subs before after, sleptInsert32 2 s (.thread 2) (.head .slept) = some (s', subs) ∧
      sleptInsert 2 s (.thread 2) (.head .slept) = some s' ∧ (∀ r ∈ subs, r.2 ≤ r.1) ∧
      remaining (s.deltas [.thread 1]) = before ++ after ∧
      Chain s'.next s'.prev (.head .slept)
        ((before ++ (.thread 2, s.ticks (.thread 2)) :: after).map Prod.fst) ∧
      remaining (s'.deltas ((before ++ (.thread 2, s.ticks (.thread 2)) :: after).map Prod.fst)) =
        before ++ (.thread 2, s.ticks (.thread 2)) :: after ∧
      (before ++ (.thread 2, s.ticks (.thread 2)) :: after).Pairwise fun a b => a.2 ≤ b.2 :=
  ⟨(sleptLink schedulerInit (.thread 1) (.head .slept) none).withTicks fun p => if p =
    .thread 1 then 5 else 3,
    rfl, rfl, sleep_insertion_keeps_times ⟨⟨rfl, rfl⟩, rfl, trivial⟩ (by decide)
      (by decide) (by decide)
      (by decide)⟩

end OsdevCourse.Scheduler
