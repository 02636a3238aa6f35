import OsdevCourse.SchedulerQueues

/-!
# `scheduler_pick` on the lists

The three parts of `scheduler_pick` in turn: the current thread is parked, the slept
list is charged with the elapsed ticks, and the first thread of the first active list
that has one is taken out. Each part is described by the lists it leaves.
-/

namespace OsdevCourse.Scheduler

set_option autoImplicit false

/-! The wake-up loop, on the slept list as a delta queue. -/

def due (e : Nat) : List (TcbPtr × Nat) → List TcbPtr
  | [] => []
  | (x, d) :: q => if d ≤ e then x :: due e q else []

def left (e : Nat) : List (TcbPtr × Nat) → List (TcbPtr × Nat)
  | [] => []
  | (x, d) :: q => if d ≤ e then left e q else (x, d - e) :: q

def Queues.enqueueAll (q : Queues) (priority : TcbPtr → Nat) : List TcbPtr → Queues
  | [] => q
  | x :: xs => (q.enqueue (priority x) x).enqueueAll priority xs

theorem due_append_left (e : Nat) (q : List (TcbPtr × Nat)) :
    due e q ++ (left e q).map Prod.fst = q.map Prod.fst := by
  induction q with
  | nil => rfl
  | cons a q ih =>
    obtain ⟨x, d⟩ := a
    by_cases hle : d ≤ e
    · simpa [due, left, hle] using ih
    · simp [due, left, hle]

section Awake
variable {s : State} {x y : TcbPtr}

theorem unlinkSlept_next (hx : x ≠ .head .slept) :
    (unlinkSlept s x).next y = if y = .head .slept then s.next x else s.next y := by
  simp [unlinkSlept, State.next_modify, hx]

theorem unlinkSlept_prev (hx : x ≠ .head .slept) :
    (unlinkSlept s x).prev y = if s.next x = some y then s.prev x else s.prev y := by
  simp [unlinkSlept, State.next_modify, State.prev_modify, hx]

theorem unlinkSlept_data : (unlinkSlept s x).data y = if y = x then
    { s.data x with
      sleepTick := 0
      flags := { (s.data x).flags with slept := !(s.data x).flags.slept } }
    else s.data y := by
  simp [unlinkSlept, State.data_modify]

@[simp] theorem unlinkSlept_tail : (unlinkSlept s x).tail = s.tail := by simp [unlinkSlept]

theorem awakeAll_node {fuel : Nat} (hnext : s.next (.head .slept) = some x) :
    awakeAll (fuel + 1) s = if s.ticks x ≤ s.elapsed then awakeAll fuel (awake s x)
      else some (s.withTicks fun y => if y = x then s.ticks x - s.elapsed else s.ticks y) := by
  have hcharge : s.modify x (fun t => { t with sleepTick := t.sleepTick - s.elapsed }) =
      s.withTicks (fun y => if y = x then s.ticks x - s.elapsed else s.ticks y) := by
    rw [← modify_ticks]
    simp only [State.modify, State.ticks]
  by_cases hle : s.ticks x ≤ s.elapsed
  · have hnot : ¬ (s.tcb x).sleepTick > s.elapsed := Nat.not_lt.mpr hle
    simp only [awakeAll, hnext, if_neg hnot, if_pos hle]
  · have hgt : (s.tcb x).sleepTick > s.elapsed := Nat.not_le.mp hle
    simp only [awakeAll, hnext, if_pos hgt, if_neg hle, hcharge]

end Awake

namespace Queued
variable {linked : Prop} {s : State} {q : Queues} {hung : Option (Nat × TcbPtr)} {x y c : TcbPtr}
  {xs : List TcbPtr}

theorem slept_nodes (hl : q .slept = x :: xs) :
    q.hang hung .slept = x :: (q.set .slept xs).hang hung .slept := by
  rw [Queues.hang_slept, Queues.hang_slept, Queues.set_self, hl]

theorem unlinkSlept (h : Queued linked s q hung) (hl : q .slept = x :: xs) :
    Queued linked (unlinkSlept s x) (q.set .slept xs) hung := by
  have hx : x ∈ q.hang hung .slept := slept_nodes hl ▸ List.mem_cons_self
  have hhead : x ≠ .head .slept := h.thread_ne_head hx
  refine h.pop (slept_nodes hl) (fun _ hm => ⟨q.set_other _ hm, q.hang_set_other _ hm⟩) (by simp)
    (fun y _ => unlinkSlept_next hhead) (fun hlinked y _ => ?_)
    (fun _ hp => nomatch hp) (by simp) ?_
  · have hback := h.back hlinked .slept (by simp)
    rw [slept_nodes hl] at hback
    rw [unlinkSlept_prev hhead, hback.1]
  · intro y hy
    rw [unlinkSlept_data, if_neg hy]

theorem absent_unlinkSlept (h : Queued linked s q hung) (hl : q .slept = x :: xs) :
    ((q.set .slept xs).hang hung).Absent x :=
  h.absent_of_pop (slept_nodes hl) fun _ hm => ⟨q.set_other _ hm, q.hang_set_other _ hm⟩

theorem awake (h : Queued linked s q hung) (hl : q .slept = x :: xs) :
    Queued linked (awake s x) ((q.set .slept xs).enqueue (s.tcb x).priority x)
      (Queues.unhang (s.tcb x).priority hung) := by
  have hx : x ∈ q.hang hung .slept := slept_nodes hl ▸ List.mem_cons_self
  obtain ⟨hthread, hflags⟩ := h.member .slept x hx
  have hclear : ((Scheduler.unlinkSlept s x).data x).flags = .clear := by
    rw [unlinkSlept_data, if_pos rfl]
    simp only [Belongs] at hflags
    rw [hflags]
    rfl
  have hadd := (h.unlinkSlept hl).add hthread (h.absent_unlinkSlept hl) hclear
  rwa [(Unchanged.unlinkSlept x).priority x] at hadd

/-- A thread outside the lists keeps its link when another one wakes up. -/
theorem awake_next (h : Queued linked s q hung) (hl : q .slept = x :: xs) (hy : y.IsThread)
    (habsent : q.Absent y) : (Scheduler.awake s x).next y = s.next y := by
  have hx : x ∈ q.hang hung .slept := slept_nodes hl ▸ List.mem_cons_self
  have hyx : y ≠ x := fun heq => habsent .slept (by rw [heq, hl]; exact List.mem_cons_self)
  have htail : y ≠ (Scheduler.unlinkSlept s x).tail (activeList (Scheduler.unlinkSlept s x) x) := by
    intro heq
    have hmem := h.tail_mem ((Scheduler.unlinkSlept s x).tcb x).priority
    rw [unlinkSlept_tail] at heq
    rw [← show y = s.tail (.active ((Scheduler.unlinkSlept s x).tcb x).priority) from heq] at hmem
    exact not_node habsent hy hmem
  have hhead : y ≠ .head .slept := by
    rintro rfl
    exact hy
  rw [Scheduler.awake, schedulerAdd_next, if_neg htail, if_neg hyx,
    unlinkSlept_next (h.thread_ne_head hx), if_neg hhead]

end Queued

theorem deltas_awake {s : State} {x : TcbPtr} {xs : List TcbPtr} (hx : x ∉ xs) :
    (awake s x).deltas xs = s.deltas xs := by
  refine deltas_congr fun y hy => ?_
  have hyx : y ≠ x := fun heq => hx (heq ▸ hy)
  apply ticks_of_data
  rw [awake, schedulerAdd_data, unlinkSlept_data, if_neg hyx]

theorem Queues.enqueue_set (q : Queues) (p : Nat) (x : TcbPtr) (xs : List TcbPtr) :
    (q.enqueue p x).set .slept xs = (q.set .slept xs).enqueue p x := by
  funext m
  by_cases hm : m = .slept
  · simp [Queues.enqueue, Queues.set, hm]
  · by_cases hp : m = .active p <;> simp [Queues.enqueue, Queues.set, hm, hp]

theorem Queues.absent_awake {q : Queues} {x y : TcbPtr} {xs : List TcbPtr} {p : Nat}
    (hl : q .slept = x :: xs) (hy : q.Absent y) : ((q.set .slept xs).enqueue p x).Absent y := by
  have hyx : y ≠ x := fun heq => hy .slept (by rw [heq, hl]; exact List.mem_cons_self)
  have hset : ∀ m, y ∉ q.set .slept xs m := by
    intro m
    by_cases hm : m = .slept
    · subst hm
      rw [Queues.set_self]
      exact fun hmem => hy .slept (hl ▸ List.mem_cons_of_mem x hmem)
    · rw [q.set_other xs hm]
      exact hy m
  intro m hmem
  by_cases hm : m = .active p
  · subst hm
    rw [Queues.enqueue, Queues.set_self] at hmem
    rcases List.mem_append.mp hmem with hmem | hmem
    · exact hset _ hmem
    · exact hyx (List.mem_singleton.mp hmem)
  · rw [Queues.enqueue, Queues.set_other _ _ hm] at hmem
    exact hset m hmem

/-- The wake-up loop: who leaves the slept list, and what it becomes. -/
theorem awakeAll_spec {linked : Prop} {q : Queues} {hung : Option (Nat × TcbPtr)} {xs : List TcbPtr}
    {fuel : Nat} {s : State} (h : Queued linked s q hung) (hl : q .slept = xs)
    (hfuel : xs.length < fuel) :
    ∃ s' hung', awakeAll fuel s = some s' ∧ Unchanged s s' ∧ (hung' = hung ∨ hung' = none) ∧
      Queued linked s' ((q.set .slept ((left s.elapsed (s.deltas xs)).map Prod.fst)).enqueueAll
        (fun y => (s.tcb y).priority) (due s.elapsed (s.deltas xs))) hung' ∧
      s'.deltas ((left s.elapsed (s.deltas xs)).map Prod.fst) = left s.elapsed (s.deltas xs) ∧
      (∀ y, y ∉ xs → s'.data y = s.data y) ∧
      ∀ y, y.IsThread → q.Absent y → s'.next y = s.next y := by
  induction xs generalizing fuel s q hung with
  | nil =>
    obtain ⟨n, rfl⟩ : ∃ n, fuel = n + 1 := ⟨fuel - 1, by simp at hfuel; omega⟩
    have hnone : s.next (.head .slept) = none := by
      have hpath := h.path .slept
      rwa [Queues.hang_slept, hl] at hpath
    refine ⟨s, hung, by simp [awakeAll, hnone], .refl s, Or.inl rfl, ?_, rfl, fun _ _ => rfl,
      fun _ _ _ => rfl⟩
    have hset : q.set .slept [] = q := hl ▸ q.set_eq .slept
    simpa [State.deltas, left, due, Queues.enqueueAll, hset] using h
  | cons x xs ih =>
    obtain ⟨n, rfl⟩ : ∃ n, fuel = n + 1 := ⟨fuel - 1, by simp at hfuel; omega⟩
    have hpath := h.path .slept
    rw [Queues.hang_slept, hl] at hpath
    have hxxs : x ∉ xs := hpath.2.not_mem
    have hdeltas : s.deltas (x :: xs) = (x, s.ticks x) :: s.deltas xs := rfl
    by_cases hle : s.ticks x ≤ s.elapsed
    · -- `x` is due: the rest of the loop runs from the state without it
      have hdue := h.awake hl
      have hunch := Unchanged.awake (s := s) x
      have hprio : (fun y => ((awake s x).tcb y).priority) = fun y => (s.tcb y).priority :=
        funext hunch.priority
      have hrest : xs.length < n := by
        rw [List.length_cons] at hfuel
        omega
      obtain ⟨s', hung', hrun, hunch', hhung, hqueued, hleft, hother, hnext⟩ :=
        ih hdue (by simp [Queues.enqueue, Queues.set]) hrest
      rw [deltas_awake hxxs, hunch.elapsed] at hqueued hleft
      rw [hprio, Queues.enqueue_set, Queues.set_set] at hqueued
      rw [hdeltas, left, if_pos hle, due, if_pos hle]
      refine ⟨s', hung', ?_, hunch.trans hunch', ?_, hqueued, hleft, ?_, ?_⟩
      · rw [awakeAll_node hpath.1, if_pos hle, hrun]
      · rcases hhung with rfl | rfl
        · exact Queues.unhang_eq_or _ _
        · exact Or.inr rfl
      · intro y hy
        rw [hother y fun hmem => hy (List.mem_cons_of_mem x hmem)]
        have hyx : y ≠ x := fun heq => hy (by simp [heq])
        rw [awake, schedulerAdd_data, unlinkSlept_data, if_neg hyx]
      · intro y hy habsent
        rw [hnext y hy (Queues.absent_awake hl habsent), h.awake_next hl hy habsent]
    · -- `x` is not due: its delta is charged and the loop ends
      rw [hdeltas, left, if_neg hle, due, if_neg hle]
      refine ⟨_, hung, (awakeAll_node hpath.1).trans (if_neg hle), .withTicks _, Or.inl rfl,
        ?_, ?_, ?_,
        fun _ _ _ => rfl⟩
      · have hnames : ((x, s.ticks x - s.elapsed) :: s.deltas xs).map Prod.fst = q .slept := by
          simp [hl]
        rw [hnames, Queues.set_eq]
        exact h.withTicks _
      · have hrest : (s.withTicks fun y =>
          if y = x then s.ticks x - s.elapsed else s.ticks y).deltas xs =
            s.deltas xs := by
          refine deltas_congr fun y hy => ?_
          have hyx : y ≠ x := fun heq => hxxs (heq ▸ hy)
          exact if_neg hyx
        rw [List.map_cons, deltas_names, ← hrest]
        simp [State.deltas]
      · intro y hy
        have hyx : y ≠ x := fun heq => hy (by simp [heq])
        exact data_withTicks_of_eq s y (if_neg hyx)

/-! The choice of the target. -/

section Target
variable {s : State} {x y : TcbPtr} {l m : ListId}

theorem unlinkTarget_next :
    (unlinkTarget s l x).next y = if y = .head l then s.next x else s.next y := by
  unfold unlinkTarget
  dsimp only
  split <;> simp

theorem unlinkTarget_prev (hx : x ≠ .head l) :
    (unlinkTarget s l x).prev y = if s.next x = some y then some (.head l) else s.prev y := by
  unfold unlinkTarget
  dsimp only
  split <;> simp [hx]

theorem unlinkTarget_tail : (unlinkTarget s l x).tail m =
    if m = l then if s.tail l = x then .head l else s.tail l else s.tail m := by
  unfold unlinkTarget
  dsimp only
  by_cases hm : m = l
  · subst hm
    split <;> simp_all
  · split <;> simp_all

@[simp] theorem unlinkTarget_data : (unlinkTarget s l x).data = s.data := by
  unfold unlinkTarget
  dsimp only
  split <;> simp

end Target

/-- `x` comes first in the active list, and `q'` with `hung'` is what is left without it. -/
def Taken (q : Queues) (hung : Option (Nat × TcbPtr)) (p : Nat) (x : TcbPtr) (q' : Queues)
    (hung' : Option (Nat × TcbPtr)) : Prop :=
  (∃ xs, q (.active p) = x :: xs ∧ q' = q.set (.active p) xs ∧ hung' = hung) ∨
  (q (.active p) = [] ∧ hung = some (p, x) ∧ q' = q ∧ hung' = none)

section Taken
variable {linked : Prop} {s : State} {q q' : Queues}
    {hung hung' : Option (Nat × TcbPtr)} {x : TcbPtr}
  {p : Nat}

theorem Taken.nodes (h : Taken q hung p x q' hung') :
    q.hang hung (.active p) = x :: q'.hang hung' (.active p) := by
  rcases h with ⟨xs, hl, rfl, rfl⟩ | ⟨hl, rfl, rfl, rfl⟩
  · rw [Queues.hang, Queues.hang, hl, Queues.set_self, List.cons_append]
  · simp [Queues.hang, Queues.hungAt, hl]

theorem Taken.other (h : Taken q hung p x q' hung') {m : ListId} (hm : m ≠ .active p) :
    q' m = q m ∧ q'.hang hung' m = q.hang hung m := by
  rcases h with ⟨xs, hl, rfl, rfl⟩ | ⟨hl, rfl, rfl, rfl⟩
  · exact ⟨q.set_other _ hm, q.hang_set_other _ hm⟩
  · exact ⟨rfl, by simp [Queues.hang, Queues.hungAt, hm]⟩

theorem Queued.unlinkTarget (h : Queued linked s q hung) (ht : Taken q hung p x q' hung') :
    Queued linked (unlinkTarget s (.active p) x) q' hung' := by
  have hx : x ∈ q.hang hung (.active p) := ht.nodes ▸ List.mem_cons_self
  have hhead : x ≠ .head (.active p) := h.thread_ne_head hx
  refine h.pop ht.nodes (fun _ => ht.other) (by simp) (fun _ _ => unlinkTarget_next)
    (fun _ _ _ => unlinkTarget_prev hhead) (fun _ _ => ?_) (fun m hm => ?_) (fun y _ => by simp)
  · have hpath := h.path (.active p)
    rw [unlinkTarget_tail, if_pos rfl, h.tail p]
    rcases ht with ⟨xs, hl, rfl, rfl⟩ | ⟨hl, rfl, rfl, rfl⟩
    · rw [hl, List.getLastD_cons, Queues.set_self]
      rw [Queues.hang, hl] at hpath
      cases xs with
      | nil => simp
      | cons y ys =>
        have hlast : (y :: ys).getLastD x ≠ x := by
          rw [List.getLastD_cons]
          intro heq
          refine hpath.2.not_mem (List.mem_append_left _ ?_)
          have hmem := List.getLastD_mem_cons (l := ys) (a := y)
          rwa [heq] at hmem
        rw [if_neg hlast, List.getLastD_cons, List.getLastD_cons]
    · have hne : TcbPtr.head (.active p) ≠ x := hhead.symm
      simp [hl, hne]
  · rw [unlinkTarget_tail, if_neg hm]

end Taken

theorem pickTarget_spec {linked : Prop} {s : State} {q : Queues} {hung : Option (Nat × TcbPtr)}
    (h : Queued linked s q hung) (ps : List Nat) :
    (pickTarget ps s = none ∧ ∀ i ∈ ps, q.hang hung (.active i) = []) ∨
    ∃ i ∈ ps, ∃ x q' hung', Taken q hung i x q' hung' ∧
      pickTarget ps s = some (x, unlinkTarget s (.active i) x) := by
  induction ps with
  | nil => exact Or.inl ⟨rfl, by simp⟩
  | cons i ps ih =>
    have hpath := h.path (.active i)
    cases hnodes : q.hang hung (.active i) with
    | nil =>
      rw [hnodes] at hpath
      have hnone : s.next (.head (.active i)) = none := hpath
      have hskip : pickTarget (i :: ps) s = pickTarget ps s := by simp only [pickTarget, hnone]
      rcases ih with ⟨hrun, hempty⟩ | ⟨j, hj, x, q', hung', htaken, hrun⟩
      · exact Or.inl ⟨hskip.trans hrun, by simpa [hnodes] using hempty⟩
      · exact Or.inr ⟨j, List.mem_cons_of_mem i hj, x, q', hung', htaken, hskip.trans hrun⟩
    | cons x xs =>
      rw [hnodes] at hpath
      have hrun : pickTarget (i :: ps) s = some (x, Scheduler.unlinkTarget s (.active i) x) := by
        simp only [pickTarget, hpath.1]
      cases hq : q (.active i) with
      | cons y ys =>
        have hxy : y = x := by
          rw [Queues.hang, hq] at hnodes
          exact (List.cons.inj hnodes).1
        subst hxy
        exact Or.inr ⟨i, List.mem_cons_self, y, _, _, Or.inl ⟨ys, hq, rfl, rfl⟩, hrun⟩
      | nil =>
        rw [Queues.hang, hq, List.nil_append] at hnodes
        have hhung : hung = some (i, x) := by
          rcases hung with _ | ⟨p, z⟩
          · simp [Queues.hungAt] at hnodes
          · by_cases hp : i = p
            · subst hp
              simp [Queues.hungAt] at hnodes
              rw [hnodes.1]
            · simp [Queues.hungAt, hp] at hnodes
        exact Or.inr ⟨i, List.mem_cons_self, x, _, _, Or.inr ⟨hq, hhung, rfl, rfl⟩, hrun⟩

/-! Parking the current thread. -/

section Park
variable {linked : Prop} {s : State} {q : Queues} {hung : Option (Nat × TcbPtr)}
    {l : ListId} {y : TcbPtr}

theorem chargeCurrent_next : (chargeCurrent s).next = s.next := State.next_modify _ _ _ fun _ => rfl
theorem chargeCurrent_prev : (chargeCurrent s).prev = s.prev := State.prev_modify _ _ _ fun _ => rfl

theorem chargeCurrent_data : (chargeCurrent s).data y = if y = s.current then
    { s.data y with elapsed := ((s.tcb y).elapsed + s.elapsed) % 2 ^ 32 } else s.data y := by
  unfold chargeCurrent
  rw [State.data_modify _ _ _ _ fun _ _ _ => rfl]
  by_cases hy : y = s.current
  · subst hy
    rw [if_pos rfl, if_pos rfl]
    rfl
  · rw [if_neg hy, if_neg hy]

theorem chargeCurrent_place : ((chargeCurrent s).data y).place = (s.data y).place := by
  rw [chargeCurrent_data]
  split <;> rfl

theorem chargeCurrent_ticks : (chargeCurrent s).ticks = s.ticks := by
  funext y
  by_cases hy : y = s.current <;> simp [chargeCurrent, State.ticks, hy]

theorem Queued.chargeCurrent (h : Queued linked s q hung) :
    Queued linked (chargeCurrent s) q hung :=
  h.congr (fun _ _ _ => by rw [chargeCurrent_next]) (fun _ _ _ _ => by rw [chargeCurrent_prev]) rfl
    fun _ _ _ => chargeCurrent_place

theorem Belongs.chargeCurrent (hl : Belongs l (s.data y)) : Belongs l ((chargeCurrent s).data y) :=
  hl.congr chargeCurrent_place

/-- The slept list, as a delta queue, after the current thread went to the list `l`. -/
def parkedDeltas (l : ListId) (x : TcbPtr) (tick : Nat) (d : List (TcbPtr × Nat)) :
    List (TcbPtr × Nat) := if l = .slept then DeltaQueue.insert x tick d else d

theorem deltas_of_data {s s' : State} {xs : List TcbPtr} (h : s'.data = s.data) :
    s'.deltas xs = s.deltas xs := deltas_congr fun y _ => ticks_of_data (congrFun h y)

/-- The current thread goes to the list its flags and priority name. -/
theorem park_spec {fuel : Nat} (h : Queued linked s q hung) (hc : s.current.IsThread)
    (habsent : (q.hang hung).Absent s.current) (hl : Belongs l (s.data s.current))
    (hfuel : (q .slept).length < fuel) :
    ∃ s' xs hung', park fuel s = some s' ∧ Unchanged (chargeCurrent s) s' ∧
      (hung' = hung ∨ hung' = none) ∧ Queued linked s' (q.set l xs) hung' ∧
      xs.Perm (s.current :: q l) ∧
      s'.deltas (q.set l xs .slept) =
        parkedDeltas l s.current (s.ticks s.current) (s.deltas (q .slept)) ∧
      (∀ y, (s'.data y).place = (s.data y).place) ∧
      ∀ y, y.IsThread → q.Absent y → y ≠ s.current → s'.next y = s.next y := by
  have hcharged := h.chargeCurrent
  have hbelongs := hl.chargeCurrent
  have hflags : ((chargeCurrent s).tcb s.current).flags = (s.data s.current).flags := by
    have hplace := congrArg Prod.snd (chargeCurrent_place (s := s) (y := s.current))
    exact hplace
  have hpriority : ((chargeCurrent s).tcb s.current).priority = (s.data s.current).priority := by
    have hplace := congrArg Prod.fst (chargeCurrent_place (s := s) (y := s.current))
    exact hplace
  have hdeltas : (chargeCurrent s).deltas (q .slept) = s.deltas (q .slept) :=
    deltas_congr fun y _ => congrFun chargeCurrent_ticks y
  cases l with
  | active p =>
    obtain ⟨hp, hclear⟩ := hl
    have hadd := hcharged.add hc habsent hbelongs.2
    rw [hpriority, hp] at hadd
    refine ⟨_, q (.active p) ++ [s.current], _, ?_, .schedulerAdd s.current,
      Queues.unhang_eq_or p hung,
      hadd, ?_, ?_, ?_, ?_⟩
    · simp [park, hflags, hclear, Flags.clear]
    · simp
    · rw [Queues.set_other q _ (by simp), parkedDeltas, if_neg (by simp),
        deltas_of_data (schedulerAdd_data _ _), hdeltas]
    · intro y
      rw [schedulerAdd_data, chargeCurrent_place]
    · intro y hy hyq hne
      have htail : y ≠ (chargeCurrent s).tail (activeList (chargeCurrent s) s.current) :=
        fun heq => Queued.not_node hyq hy (heq ▸ hcharged.tail_mem _)
      rw [schedulerAdd_next, if_neg htail, if_neg hne, chargeCurrent_next]
  | slept =>
    have hslept : (s.data s.current).flags = ⟨true, false⟩ := hl
    have hpath := hcharged.path .slept
    have hnew : s.current ∉ TcbPtr.head .slept :: q.hang hung .slept := Queued.not_node habsent hc
    rw [Queues.hang_slept] at hpath hnew
    obtain ⟨ys, zs, f, hsplit, hrun, hins, hother⟩ := sleptInsert_eq hpath hnew hfuel
    have hlink := (hcharged.withTicks f).sleptLink hc habsent hbelongs hsplit
    refine ⟨_, ys ++ s.current :: zs, hung, ?_, (Unchanged.withTicks f).trans (.sleptLink _ _ _),
      Or.inl rfl, hlink, ?_, ?_, ?_, ?_⟩
    · simpa [park, hflags, hslept] using hrun
    · rw [hsplit]
      exact List.perm_middle
    · rw [Queues.set_self, deltas_of_data (sleptLink_data _ _ _ _), hins, parkedDeltas, if_pos rfl,
        hdeltas, chargeCurrent_ticks]
    · intro y
      rw [sleptLink_data, place_withTicks, chargeCurrent_place]
    · intro y hy hyq hne
      have hlast : y ≠ ys.getLastD (.head .slept) := by
        intro heq
        refine Queued.not_node (l := .slept) hyq hy ?_
        rw [heq, hsplit, ← List.cons_append]
        exact List.mem_append_left _ List.getLastD_mem_cons
      rw [sleptLink_next, if_neg hlast, if_neg hne, next_withTicks, chargeCurrent_next]
  | zombie =>
    have hzombie : (s.data s.current).flags = ⟨false, true⟩ := hl
    refine ⟨_, s.current :: q .zombie, hung, ?_, .zombiePush s.current, Or.inl rfl,
      hcharged.zombiePush hc habsent hbelongs, .refl _, ?_, ?_, ?_⟩
    · simp [park, hflags, hzombie]
    · rw [Queues.set_other q _ (by simp), parkedDeltas, if_neg (by simp),
        deltas_of_data (zombiePush_data _ _), hdeltas]
    · intro y
      rw [zombiePush_data, chargeCurrent_place]
    · intro y hy _ hne
      have hhead : y ≠ .head .zombie := by
        rintro rfl
        exact hy
      rw [zombiePush_next, if_neg hhead, if_neg hne, chargeCurrent_next]

end Park

/-! The lists as a whole. -/

def listIds : List ListId := (List.range schedulePriorityMax).map .active ++ [.slept, .zombie]

def Queues.everything (q : Queues) : List TcbPtr := listIds.flatMap q

theorem flatMap_set (q : Queues) {l : ListId} {ys zs : List TcbPtr} (hperm : ys.Perm (zs ++ q l))
    {ids : List ListId} (hnodup : ids.Nodup) (hmem : l ∈ ids) :
    (ids.flatMap (q.set l ys)).Perm (zs ++ ids.flatMap q) := by
  induction ids with
  | nil => simp at hmem
  | cons i ids ih =>
    obtain ⟨hi, hnodup⟩ := List.nodup_cons.mp hnodup
    simp only [List.flatMap_cons]
    by_cases hil : i = l
    · subst hil
      have hrest : ids.flatMap (q.set i ys) = ids.flatMap q :=
        List.flatMap_congr fun m hm => q.set_other ys fun heq => hi (heq ▸ hm)
      rw [hrest, Queues.set_self, ← List.append_assoc]
      exact hperm.append_right _
    · have hmem' : l ∈ ids := (List.mem_cons.mp hmem).resolve_left fun heq => hil heq.symm
      rw [q.set_other ys hil]
      refine ((ih hnodup hmem').append_left (q i)).trans ?_
      rw [← List.append_assoc, ← List.append_assoc]
      exact List.perm_append_comm.append_right _

theorem Queues.everything_set (q : Queues) {l : ListId} {ys zs : List TcbPtr}
    (hperm : ys.Perm (zs ++ q l)) (hl : l ∈ listIds) :
    (q.set l ys).everything.Perm (zs ++ q.everything) := flatMap_set q hperm (by decide) hl

theorem active_mem_listIds {p : Nat} (hp : p < schedulePriorityMax) :
    ListId.active p ∈ listIds := by
  simpa [listIds] using hp

theorem Queues.everything_enqueueAll (q : Queues) {priority : TcbPtr → Nat} {xs : List TcbPtr}
    (hxs : ∀ x ∈ xs, priority x < schedulePriorityMax) :
    (q.enqueueAll priority xs).everything.Perm (xs ++ q.everything) := by
  induction xs generalizing q with
  | nil => exact .refl _
  | cons x xs ih =>
    have hx : (q.enqueue (priority x) x).everything.Perm ([x] ++ q.everything) :=
      q.everything_set List.perm_append_comm (active_mem_listIds (hxs x List.mem_cons_self))
    refine (ih _ fun y hy => hxs y (List.mem_cons_of_mem x hy)).trans ?_
    refine (hx.append_left xs).trans ?_
    simp

theorem Queues.mem_enqueueAll {q : Queues} {priority : TcbPtr → Nat} {xs : List TcbPtr} {y : TcbPtr}
    {m : ListId} : y ∈ q.enqueueAll priority xs m ↔
      y ∈ q m ∨ (y ∈ xs ∧ m = .active (priority y)) := by
  induction xs generalizing q with
  | nil => simp [enqueueAll]
  | cons x xs ih =>
    rw [enqueueAll, ih, enqueue, List.mem_cons]
    by_cases hm : m = .active (priority x)
    · subst hm
      rw [set_self, List.mem_append, List.mem_singleton]
      constructor
      · rintro ((h | rfl) | ⟨h, heq⟩)
        · exact Or.inl h
        · exact Or.inr ⟨Or.inl rfl, rfl⟩
        · exact Or.inr ⟨Or.inr h, heq⟩
      · rintro (h | ⟨rfl | h, heq⟩)
        · exact Or.inl (Or.inl h)
        · exact Or.inl (Or.inr rfl)
        · exact Or.inr ⟨h, heq⟩
    · rw [set_other q _ hm]
      constructor
      · rintro (h | ⟨h, heq⟩)
        · exact Or.inl h
        · exact Or.inr ⟨Or.inr h, heq⟩
      · rintro (h | ⟨rfl | h, heq⟩)
        · exact Or.inl h
        · exact absurd heq hm
        · exact Or.inr ⟨h, heq⟩

/-- The lists after the wake-up loop took from the slept list what is due. -/
def Queues.afterWake (q : Queues) (priority : TcbPtr → Nat) (e : Nat) (d : List (TcbPtr × Nat)) :
    Queues := (q.set .slept ((left e d).map Prod.fst)).enqueueAll priority (due e d)

theorem Queues.everything_afterWake (q : Queues) {priority : TcbPtr → Nat} {e : Nat}
    {d : List (TcbPtr × Nat)} (hd : d.map Prod.fst = q .slept)
    (hpriority : ∀ x ∈ due e d, priority x < schedulePriorityMax) :
    (q.afterWake priority e d).everything.Perm q.everything := by
  refine (everything_enqueueAll _ hpriority).trans ?_
  have hsplit : (q .slept).Perm (due e d ++ q.set .slept ((left e d).map Prod.fst) .slept) := by
    rw [Queues.set_self, due_append_left, hd]
  have hback := (q.set .slept ((left e d).map Prod.fst)).everything_set hsplit (by decide)
  simpa using hback.symm

@[simp] theorem Queues.enqueueAll_slept (q : Queues) (priority : TcbPtr → Nat) (xs : List TcbPtr) :
    q.enqueueAll priority xs .slept = q .slept := by
  induction xs generalizing q with
  | nil => rfl
  | cons x xs ih => simp [Queues.enqueueAll, ih, Queues.enqueue, Queues.set]

@[simp] theorem Queues.afterWake_slept (q : Queues) (priority : TcbPtr → Nat) (e : Nat)
    (d : List (TcbPtr × Nat)) : q.afterWake priority e d .slept = (left e d).map Prod.fst := by
  simp [afterWake]

theorem mem_due_or_left {e : Nat} {d : List (TcbPtr × Nat)} {y : TcbPtr} :
    y ∈ d.map Prod.fst ↔ y ∈ due e d ∨ y ∈ (left e d).map Prod.fst := by
  rw [← due_append_left e d, List.mem_append]

/-- The wake-up loop moves threads, it neither adds nor drops any. -/
theorem Queues.mem_afterWake {q : Queues} {priority : TcbPtr → Nat} {e : Nat}
    {d : List (TcbPtr × Nat)} (hd : d.map Prod.fst = q .slept) {y : TcbPtr} {m : ListId}
    (hy : y ∈ q.afterWake priority e d m) : ∃ l, y ∈ q l := by
  have hmem : y ∈ q .slept ↔ _ := hd ▸ mem_due_or_left (e := e)
  rcases mem_enqueueAll.mp hy with hy | ⟨hy, _⟩
  · by_cases hm : m = .slept
    · subst hm
      exact ⟨.slept, hmem.mpr (Or.inr (by simpa using hy))⟩
    · exact ⟨m, by rwa [q.set_other _ hm] at hy⟩
  · exact ⟨.slept, hmem.mpr (Or.inl hy)⟩

theorem Queues.absent_set {q : Queues} {l : ListId} {xs : List TcbPtr} {c y : TcbPtr}
    (h : q.Absent y)
    (hperm : xs.Perm (c :: q l)) (hne : y ≠ c) : (q.set l xs).Absent y := by
  intro m hmem
  by_cases hm : m = l
  · subst hm
    rw [Queues.set_self] at hmem
    rcases List.mem_cons.mp (hperm.subset hmem) with heq | hmem
    · exact hne heq
    · exact h m hmem
  · rw [q.set_other xs hm] at hmem
    exact h m hmem

/-- The state in which `scheduler_pick` looks for its target. -/
theorem wake_spec {linked : Prop} {s : State} {q : Queues}
    {hung : Option (Nat × TcbPtr)} {l : ListId}
    {fuel : Nat} (h : Queued linked s q hung) (hc : s.current.IsThread)
    (habsent : (q.hang hung).Absent s.current) (hl : Belongs l (s.data s.current))
    (hfuel : (q .slept).length + 1 < fuel) :
    ∃ s' xs hung', (park fuel s).bind (awakeAll fuel) = some s' ∧ Unchanged (chargeCurrent s) s' ∧
      (hung' = hung ∨ hung' = none) ∧ xs.Perm (s.current :: q l) ∧
      (parkedDeltas l s.current (s.ticks s.current) (s.deltas (q .slept))).map Prod.fst =
        q.set l xs .slept ∧
      Queued linked s' ((q.set l xs).afterWake (fun y => (s.tcb y).priority) s.elapsed
        (parkedDeltas l s.current (s.ticks s.current) (s.deltas (q .slept)))) hung' ∧
      s'.deltas ((left s.elapsed
        (parkedDeltas l s.current (s.ticks s.current) (s.deltas (q .slept)))).map Prod.fst) =
        left s.elapsed (parkedDeltas l s.current (s.ticks s.current) (s.deltas (q .slept))) ∧
      ∀ y, y.IsThread → q.Absent y → y ≠ s.current →
        s'.next y = s.next y ∧ (s'.data y).place = (s.data y).place := by
  obtain ⟨s₁, xs, hung₁, hpark, hunch, hhung, hqueued, hperm, hdeltas, hplace, hnext⟩ :=
    park_spec h hc habsent hl (Nat.lt_of_succ_lt hfuel)
  have hlen : (q.set l xs .slept).length ≤ (q .slept).length + 1 := by
    by_cases heq : l = .slept
    · subst heq
      simp [hperm.length_eq]
    · rw [q.set_other xs (Ne.symm heq)]
      omega
  obtain ⟨s₂, hung₂, hrun, hunch', hhung', hqueued', hleft, hother, hnext'⟩ :=
    awakeAll_spec hqueued rfl (Nat.lt_of_le_of_lt hlen hfuel)
  have helapsed : s₁.elapsed = s.elapsed := hunch.elapsed
  have hpriority : (fun y => (s₁.tcb y).priority) = fun y => (s.tcb y).priority := by
    funext y
    have hsame := congrArg Prod.fst (hplace y)
    exact hsame
  rw [hdeltas, helapsed] at hqueued' hleft
  rw [hpriority] at hqueued'
  refine ⟨s₂, xs, hung₂, by rw [hpark]; exact hrun, hunch.trans hunch', ?_, hperm, ?_,
    hqueued', hleft, ?_⟩
  · rcases hhung' with rfl | rfl
    · exact hhung
    · exact Or.inr rfl
  · rw [← hdeltas, deltas_names]
  · intro y hy hyq hne
    have hset := Queues.absent_set hyq hperm hne
    exact ⟨(hnext' y hy hset).trans (hnext y hy hyq hne), by rw [hother y (hset .slept), hplace]⟩

theorem schedulerPick_eq (fuel : Nat) (s : State) : schedulerPick fuel s =
    ((park fuel s).bind (awakeAll fuel)).bind fun s =>
      (pickTarget (List.range schedulePriorityMax) s).map fun r => (r.1, dispatch r.2 r.1) := by
  unfold schedulerPick
  cases park fuel s with
  | none => rfl
  | some s₁ =>
    simp only [Option.bind_eq_bind, Option.bind_some]
    cases awakeAll fuel s₁ with
    | none => rfl
    | some s₂ =>
      simp only [Option.bind_some]
      cases pickTarget (List.range schedulePriorityMax) s₂ <;> rfl

end OsdevCourse.Scheduler
