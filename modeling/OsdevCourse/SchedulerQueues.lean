import OsdevCourse.Scheduler
import OsdevCourse.IntrusiveList
import OsdevCourse.DeltaQueue

/-!
# The lists of the scheduler, and what each operation does to them

`Queued linked s q hung`: in the memory of `s`, each of the lists is exactly what `q`
says. A thread may hang after the tail of one active list: `scheduler_add` links a thread
before it moves the tail. The nodes of a list are told from those of another by their
flags and priority, so one node's place is unique and an edit of one list is a frame for
the others. The backward links are part of it only if `linked` holds.
-/

namespace OsdevCourse.Scheduler

set_option autoImplicit false

abbrev Queues := ListId → List TcbPtr

namespace Queues

def set (q : Queues) (l : ListId) (xs : List TcbPtr) : Queues := fun m => if m = l then xs else q m

def enqueue (q : Queues) (priority : Nat) (x : TcbPtr) : Queues :=
  q.set (.active priority) (q (.active priority) ++ [x])

def Absent (q : Queues) (x : TcbPtr) : Prop := ∀ l, x ∉ q l

/-- What comes after the tail of a list. -/
def hungAt (hung : Option (Nat × TcbPtr)) (l : ListId) : List TcbPtr :=
  match hung with
  | none => []
  | some (p, x) => if l = .active p then [x] else []

/-- The lists as following the links gives them. -/
def hang (q : Queues) (hung : Option (Nat × TcbPtr)) : Queues := fun l => q l ++ hungAt hung l

/-- An addition at the tail of a list drops what hangs there. -/
def unhang (p : Nat) (hung : Option (Nat × TcbPtr)) : Option (Nat × TcbPtr) :=
  match hung with
  | none => none
  | some (p', x) => if p' = p then none else some (p', x)

variable (q : Queues) (l m : ListId) (xs ys : List TcbPtr)

@[simp] theorem set_self : q.set l xs l = xs := if_pos rfl

theorem set_other {l m : ListId} (h : m ≠ l) : q.set l xs m = q m := if_neg h

@[simp] theorem set_set : (q.set l xs).set l ys = q.set l ys := by
  funext m
  by_cases h : m = l <;> simp [set, h]

@[simp] theorem set_eq : q.set l (q l) = q := by
  funext m
  by_cases h : m = l <;> simp [set, h]

@[simp] theorem hang_none : q.hang none = q := funext fun l => List.append_nil (q l)

@[simp] theorem hungAt_slept (hung : Option (Nat × TcbPtr)) : hungAt hung .slept = [] := by
  cases hung <;> simp [hungAt]

@[simp] theorem hungAt_zombie (hung : Option (Nat × TcbPtr)) : hungAt hung .zombie = [] := by
  cases hung <;> simp [hungAt]

theorem hang_slept (hung : Option (Nat × TcbPtr)) : q.hang hung .slept = q .slept := by simp [hang]
theorem hang_zombie (hung : Option (Nat × TcbPtr)) :
    q.hang hung .zombie = q .zombie := by simp [hang]

theorem mem_hang {hung : Option (Nat × TcbPtr)} {x : TcbPtr} {l : ListId} (h : x ∈ q l) :
    x ∈ q.hang hung l := List.mem_append_left _ h

theorem hang_set_other {hung : Option (Nat × TcbPtr)} {l m : ListId} (h : m ≠ l) :
    (q.set l xs).hang hung m = q.hang hung m := by
  rw [hang, q.set_other xs h, hang]

@[simp] theorem hungAt_unhang (p : Nat) (hung : Option (Nat × TcbPtr)) :
    hungAt (unhang p hung) (.active p) = [] := by
  rcases hung with _ | ⟨p', x⟩
  · rfl
  · by_cases h : p' = p
    · simp [unhang, h, hungAt]
    · have h' : p ≠ p' := Ne.symm h
      simp [unhang, h, h', hungAt]

theorem hungAt_unhang_other {p : Nat} {hung : Option (Nat × TcbPtr)} {m : ListId}
    (h : m ≠ .active p) : hungAt (unhang p hung) m = hungAt hung m := by
  rcases hung with _ | ⟨p', x⟩
  · rfl
  · by_cases hp : p' = p
    · subst hp
      simp [unhang, hungAt, h]
    · simp [unhang, hp]

theorem mem_hang_enqueue {p : Nat} {hung : Option (Nat × TcbPtr)} {x y : TcbPtr} {m : ListId}
    (h : y ∈ (q.enqueue p x).hang (unhang p hung) m) : y = x ∨ y ∈ q.hang hung m := by
  by_cases hm : m = .active p
  · subst hm
    rw [hang, hungAt_unhang, List.append_nil, enqueue, set_self] at h
    rcases List.mem_append.mp h with h | h
    · exact Or.inr (q.mem_hang h)
    · exact Or.inl (List.mem_singleton.mp h)
  · rw [hang, hungAt_unhang_other hm, enqueue, q.set_other _ hm] at h
    exact Or.inr h

theorem unhang_eq_or (p : Nat) (hung : Option (Nat × TcbPtr)) :
    unhang p hung = hung ∨ unhang p hung = none := by
  rcases hung with _ | ⟨p', x⟩
  · exact Or.inl rfl
  · by_cases hp : p' = p <;> simp [unhang, hp]

end Queues

def Belongs : ListId → Tcb → Prop
  | .active p, t => t.priority = p ∧ t.flags = .clear
  | .slept, t => t.flags = ⟨true, false⟩
  | .zombie, t => t.flags = ⟨false, true⟩

theorem Belongs.unique {l m : ListId} {t : Tcb} (hl : Belongs l t) (hm : Belongs m t) : l = m := by
  cases l <;> cases m <;> simp_all [Belongs, Flags.clear]

/-- What decides the list of a thread. -/
def Tcb.place (t : Tcb) : Nat × Flags := (t.priority, t.flags)

theorem Belongs.congr {l : ListId} {t t' : Tcb} (h : Belongs l t) (heq : t'.place = t.place) :
    Belongs l t' := by
  simp only [Tcb.place, Prod.mk.injEq] at heq
  cases l <;> simp_all [Belongs]

structure Queued (linked : Prop) (s : State) (q : Queues)
    (hung : Option (Nat × TcbPtr)) : Prop where
  path : ∀ l, Path s.next (.head l) (q.hang hung l)
  back : linked → ∀ l, l ≠ .zombie → BackLinked s.prev (.head l) (q.hang hung l)
  tail : ∀ p, s.tail (.active p) = (q (.active p)).getLastD (.head (.active p))
  member : ∀ l, ∀ x ∈ q.hang hung l, x.IsThread ∧ Belongs l (s.data x)

namespace Queued
variable {linked : Prop} {s s' : State} {q q' : Queues} {hung hung' : Option (Nat × TcbPtr)}
  {l m : ListId} {x y c : TcbPtr} {xs ys zs : List TcbPtr}

theorem same_list (h : Queued linked s q hung) (hl : x ∈ q.hang hung l) (hm : x ∈ q.hang hung m) :
    l = m :=
  (h.member l x hl).2.unique (h.member m x hm).2

theorem head_not_mem (h : Queued linked s q hung) : TcbPtr.head m ∉ q.hang hung l :=
  fun hmem => (h.member l _ hmem).1

theorem same_node (h : Queued linked s q hung) (hl : x ∈ TcbPtr.head l :: q.hang hung l)
    (hm : x ∈ TcbPtr.head m :: q.hang hung m) : l = m := by
  rcases List.mem_cons.mp hl with rfl | hl
  · rcases List.mem_cons.mp hm with heq | hm
    · exact TcbPtr.head.inj heq
    · exact absurd hm h.head_not_mem
  · rcases List.mem_cons.mp hm with rfl | hm
    · exact absurd hl h.head_not_mem
    · exact h.same_list hl hm

theorem thread_ne_head (h : Queued linked s q hung) (hmem : x ∈ q.hang hung l) : x ≠ .head m := by
  rintro rfl
  exact h.head_not_mem hmem

/-- One list is edited; the links, tails and flags of every other list's nodes stay. -/
theorem replace (h : Queued linked s q hung) (hpath : Path s'.next (.head l) (q'.hang hung' l))
    (hback : linked → l ≠ .zombie → BackLinked s'.prev (.head l) (q'.hang hung' l))
    (htail : ∀ p, l = .active p → s'.tail l = (q' l).getLastD (.head l))
    (hmember : ∀ y ∈ q'.hang hung' l, y.IsThread ∧ Belongs l (s'.data y))
    (hsame : ∀ m, m ≠ l → q' m = q m ∧ q'.hang hung' m = q.hang hung m)
    (hnext : ∀ m, m ≠ l → ∀ y ∈ TcbPtr.head m :: q.hang hung m, s'.next y = s.next y)
    (hprev : linked → ∀ m, m ≠ l → ∀ y ∈ q.hang hung m, s'.prev y = s.prev y)
    (htails : ∀ m, m ≠ l → s'.tail m = s.tail m)
    (hplace : ∀ m, m ≠ l → ∀ y ∈ q.hang hung m, (s'.data y).place = (s.data y).place) :
    Queued linked s' q' hung' := by
  refine ⟨fun m => ?_, fun hlinked m hm => ?_, fun p => ?_, fun m y hy => ?_⟩
  · by_cases heq : m = l
    · subst heq
      exact hpath
    · rw [(hsame m heq).2]
      exact (h.path m).congr (hnext m heq)
  · by_cases heq : m = l
    · subst heq
      exact hback hlinked hm
    · rw [(hsame m heq).2]
      exact (h.back hlinked m hm).congr (hprev hlinked m heq)
  · by_cases heq : ListId.active p = l
    · subst heq
      exact htail p rfl
    · rw [(hsame _ heq).1, htails _ heq]
      exact h.tail p
  · by_cases heq : m = l
    · subst heq
      exact hmember y hy
    · rw [(hsame m heq).2] at hy
      obtain ⟨hthread, hbelongs⟩ := h.member m y hy
      exact ⟨hthread, hbelongs.congr (hplace m heq y hy)⟩

/-- A step that touches no link, tail, priority or flag of a listed node. -/
theorem congr (h : Queued linked s q hung)
    (hnext : ∀ l, ∀ y ∈ TcbPtr.head l :: q.hang hung l, s'.next y = s.next y)
    (hprev : linked → ∀ l, ∀ y ∈ q.hang hung l, s'.prev y = s.prev y) (htail : s'.tail = s.tail)
    (hplace : ∀ l, ∀ y ∈ q.hang hung l, (s'.data y).place = (s.data y).place) :
    Queued linked s' q hung := by
  refine ⟨fun l => (h.path l).congr (hnext l), fun hlinked l hl =>
    (h.back hlinked l hl).congr (hprev hlinked l),
    fun p => by rw [htail, h.tail p], fun l y hy => ?_⟩
  obtain ⟨hthread, hbelongs⟩ := h.member l y hy
  exact ⟨hthread, hbelongs.congr (hplace l y hy)⟩

end Queued

section Add
variable (s : State) (x y : TcbPtr)

theorem schedulerAdd_next : (schedulerAdd s x).next y =
    if y = s.tail (activeList s x) then some x else if y = x then none else s.next y := by
  simp [schedulerAdd, addTail, addLink, addPrev, addNext]

theorem schedulerAdd_prev : (schedulerAdd s x).prev y =
    if y = x then some (s.tail (activeList s x)) else s.prev y := by
  simp [schedulerAdd, addTail, addLink, addPrev, addNext]

theorem schedulerAdd_tail (l : ListId) :
    (schedulerAdd s x).tail l = if l = activeList s x then x else s.tail l := by
  simp [schedulerAdd, addTail, addLink, addPrev, addNext]

@[simp] theorem schedulerAdd_data : (schedulerAdd s x).data = s.data := by
  simp [schedulerAdd, addTail, addLink, addPrev, addNext]

end Add

namespace Queued
variable {linked : Prop} {s s' : State} {q q' : Queues} {hung hung' : Option (Nat × TcbPtr)}
  {l m : ListId} {x y c : TcbPtr} {xs ys zs : List TcbPtr}

theorem tail_mem (h : Queued linked s q hung) (p : Nat) :
    s.tail (.active p) ∈ TcbPtr.head (.active p) :: q (.active p) := by
  rw [h.tail p]
  exact List.getLastD_mem_cons

theorem not_node (h : q.Absent x) (hx : x.IsThread) : x ∉ TcbPtr.head l :: q l := by
  intro hmem
  rcases List.mem_cons.mp hmem with rfl | hmem
  · exact hx
  · exact h l hmem

theorem add (h : Queued linked s q hung) (hx : x.IsThread) (habsent : (q.hang hung).Absent x)
    (hflags : (s.data x).flags = .clear) :
    Queued linked (schedulerAdd s x) (q.enqueue (s.tcb x).priority x)
      (Queues.unhang (s.tcb x).priority hung) := by
  have htail : s.tail (activeList s x) = (q (activeList s x)).getLastD (.head (activeList s x)) :=
    h.tail _
  have hnew := not_node (l := activeList s x) habsent hx
  have hmem : s.tail (activeList s x) ∈ TcbPtr.head (activeList s x) :: q.hang hung
      (activeList s x) := by
    rw [Queues.hang, ← List.cons_append]
    exact List.mem_append_left _ (h.tail_mem _)
  have hne : x ≠ s.tail (activeList s x) := by
    intro heq
    rw [← heq] at hmem
    exact hnew hmem
  have hnodes : (q.enqueue (s.tcb x).priority x).hang (Queues.unhang (s.tcb x).priority hung)
      (activeList s x) = q (activeList s x) ++ [x] := by
    simp [Queues.hang, activeList, Queues.enqueue]
  have hq : x ∉ TcbPtr.head (activeList s x) :: q (activeList s x) := by
    intro hmem'
    refine hnew ?_
    rw [Queues.hang, ← List.cons_append]
    exact List.mem_append_left _ hmem'
  refine h.replace (l := activeList s x) ?_ (fun hlinked _ => ?_) (fun p _ => ?_) ?_ ?_ ?_ ?_ ?_ ?_
  · rw [hnodes]
    refine (h.path (activeList s x)).cutSnoc ?_ ?_ hq ?_
    · rw [schedulerAdd_next, if_pos htail.symm]
    · rw [schedulerAdd_next, if_neg hne, if_pos rfl]
    · intro y hlast hy
      rw [schedulerAdd_next, if_neg (htail ▸ hlast), if_neg hy]
  · rw [hnodes]
    refine (h.back hlinked (activeList s x) (by simp [activeList])).cutSnoc ?_ ?_
    · rw [schedulerAdd_prev, if_pos rfl, htail]
    · intro y hy
      have hyx : y ≠ x := by
        rintro rfl
        exact hq (List.mem_cons_of_mem _ hy)
      rw [schedulerAdd_prev, if_neg hyx]
  · have hlist : q.enqueue (s.tcb x).priority x (activeList s x) = q (activeList s x) ++ [x] :=
      Queues.set_self _ _ _
    rw [hlist, List.getLastD_concat]
    exact (schedulerAdd_tail s x _).trans (if_pos rfl)
  · intro y hy
    rw [hnodes] at hy
    rcases List.mem_append.mp hy with hy | hy
    · simpa using h.member _ y (q.mem_hang hy)
    · rw [List.mem_singleton.mp hy]
      exact ⟨hx, by simpa using ⟨rfl, hflags⟩⟩
  · intro m hm
    have hother : q.enqueue (s.tcb x).priority x m = q m := q.set_other _ hm
    exact ⟨hother, by rw [Queues.hang, hother, Queues.hungAt_unhang_other hm, Queues.hang]⟩
  · intro m hm y hy
    have hlast : y ≠ s.tail (activeList s x) := by
      rintro rfl
      exact hm (h.same_node hy hmem)
    have hyx : y ≠ x := fun heq => not_node habsent hx (heq ▸ hy)
    rw [schedulerAdd_next, if_neg hlast, if_neg hyx]
  · intro _ m _ y hy
    have hyx : y ≠ x := fun heq => habsent m (heq ▸ hy)
    rw [schedulerAdd_prev, if_neg hyx]
  · intro m hm
    exact (schedulerAdd_tail s x m).trans (if_neg hm)
  · simp

end Queued

/-! The slept list: the search of `scheduler_pick` changes sleep ticks only, and the links
it then sets put `current` between the two parts of the list. -/

def State.withTicks (s : State) (f : TcbPtr → Nat) : State :=
  { s with tcb := fun p => { s.tcb p with sleepTick := f p } }

def State.ticks (s : State) (p : TcbPtr) : Nat := (s.tcb p).sleepTick

section Ticks
variable (s : State) (f g : TcbPtr → Nat) (p y : TcbPtr)

@[simp] theorem next_withTicks : (s.withTicks f).next = s.next := rfl
@[simp] theorem prev_withTicks : (s.withTicks f).prev = s.prev := rfl
@[simp] theorem tail_withTicks : (s.withTicks f).tail = s.tail := rfl
@[simp] theorem ticks_withTicks : (s.withTicks f).ticks = f := rfl
@[simp] theorem withTicks_withTicks : (s.withTicks f).withTicks g = s.withTicks g := rfl
@[simp] theorem withTicks_ticks : s.withTicks s.ticks = s := rfl

theorem modify_ticks (v : Nat) : s.modify p (fun t => { t with sleepTick := v }) =
    s.withTicks (fun q => if q = p then v else s.ticks q) := by
  simp only [State.modify, State.withTicks, State.ticks, State.mk.injEq, true_and, and_true]
  funext q
  by_cases hq : q = p <;> simp [hq]

theorem sleptInsert_node {fuel : Nat} {c x : TcbPtr} (hnext : s.next p = some x) :
    sleptInsert (fuel + 1) s c p = if s.ticks c ≤ s.ticks x then
      some (sleptLink (s.withTicks fun q => if q = x then s.ticks x - s.ticks c else s.ticks q) c p
        (some x))
    else sleptInsert fuel (s.withTicks fun q => if q = c then s.ticks c - s.ticks x else s.ticks q)
        c x := by
  simp only [sleptInsert, hnext, modify_ticks]
  rfl

end Ticks

/-- The slept list as a delta queue. -/
def State.deltas (s : State) (xs : List TcbPtr) : List (TcbPtr × Nat) :=
  xs.map fun x => (x, s.ticks x)

@[simp] theorem deltas_names (s : State) (xs : List TcbPtr) : (s.deltas xs).map Prod.fst = xs := by
  induction xs with
  | nil => rfl
  | cons x xs ih => exact congrArg (x :: ·) ih

theorem ticks_of_data {s s' : State} {y : TcbPtr} (h : s'.data y = s.data y) :
    s'.ticks y = s.ticks y := by
  have hticks := congrArg Tcb.sleepTick h
  exact hticks

theorem deltas_congr {s s' : State} {xs : List TcbPtr} (h : ∀ y ∈ xs, s'.ticks y = s.ticks y) :
    s'.deltas xs = s.deltas xs :=
  List.map_congr_left fun y hy => congrArg (Prod.mk y) (h y hy)

theorem sleptInsert_eq {c : TcbPtr} {fuel : Nat} {xs : List TcbPtr} {s : State} {p : TcbPtr}
    (hpath : Path s.next p xs) (hc : c ∉ p :: xs) (hfuel : xs.length < fuel) :
    ∃ ys zs f, xs = ys ++ zs ∧
      sleptInsert fuel s c p = some (sleptLink (s.withTicks f) c (ys.getLastD p) zs.head?) ∧
      (s.withTicks f).deltas (ys ++ c :: zs) = DeltaQueue.insert c (s.ticks c) (s.deltas xs) ∧
      ∀ y, y ≠ c → y ∉ xs → f y = s.ticks y := by
  induction xs generalizing fuel s p with
  | nil =>
    obtain ⟨n, rfl⟩ : ∃ n, fuel = n + 1 := ⟨fuel - 1, by simp at hfuel; omega⟩
    refine ⟨[], [], s.ticks, rfl, ?_, by simp [State.deltas, DeltaQueue.insert], fun _ _ _ => rfl⟩
    have hnone : s.next p = none := hpath
    simp [sleptInsert, hnone]
  | cons x xs ih =>
    obtain ⟨n, rfl⟩ : ∃ n, fuel = n + 1 := ⟨fuel - 1, by simp at hfuel; omega⟩
    have hxc : x ≠ c := fun heq => hc (by simp [heq])
    have hcxs : c ∉ xs := fun hmem => hc (by simp [hmem])
    have hxxs : x ∉ xs := hpath.2.not_mem
    have hnext : s.next p = some x := hpath.1
    by_cases hle : s.ticks c ≤ s.ticks x
    · -- the new sleeper is due before `x`, whose delta now counts from it
      refine ⟨[], x :: xs, fun q => if q = x then s.ticks x - s.ticks c else s.ticks q,
        rfl, ?_, ?_, ?_⟩
      · rw [sleptInsert_node s p hnext, if_pos hle]
        rfl
      · simp only [State.deltas, ticks_withTicks, List.nil_append, List.map_cons, if_neg hxc.symm,
          if_true, DeltaQueue.insert, if_pos hle, List.cons.injEq, true_and]
        refine List.map_congr_left fun y hy => ?_
        have hyx : y ≠ x := fun heq => hxxs (heq ▸ hy)
        rw [if_neg hyx]
      · intro y _ hy
        exact if_neg fun heq => hy (by simp [heq])
    · -- the new sleeper is due after `x`: what is left of its time counts from `x`
      obtain ⟨ys, zs, f, hsplit, hrun, hdeltas, hother⟩ :=
        ih (s := s.withTicks fun q => if q = c then s.ticks c - s.ticks x else s.ticks q) (p := x)
          hpath.2 (fun hmem => hc (List.mem_cons_of_mem p hmem)) (by simp at hfuel; omega)
      refine ⟨x :: ys, zs, f, by rw [hsplit]; rfl, ?_, ?_, ?_⟩
      · rw [sleptInsert_node s p hnext, if_neg hle, List.getLastD_cons]
        exact hrun
      · have hfx : f x = s.ticks x := by
          rw [hother x hxc hxxs, ticks_withTicks, if_neg hxc]
        have hdeltas' : s.deltas xs =
            (s.withTicks fun q => if q = c then s.ticks c - s.ticks x else s.ticks q).deltas
                xs := by
          refine List.map_congr_left fun y hy => ?_
          have hyc : y ≠ c := fun heq => hcxs (heq ▸ hy)
          rw [ticks_withTicks, if_neg hyc]
        have hhead : s.deltas (x :: xs) = (x, s.ticks x) :: s.deltas xs := rfl
        rw [hhead, DeltaQueue.insert, if_neg hle, hdeltas']
        rw [ticks_withTicks, if_pos rfl] at hdeltas
        rw [← hdeltas]
        simp [State.deltas, hfx]
      · intro y hyc hy
        rw [hother y hyc (fun hmem => hy (List.mem_cons_of_mem x hmem)),
          ticks_withTicks, if_neg hyc]

section Links
variable (s : State) (c p y : TcbPtr) (next : Option TcbPtr)

theorem sleptLink_next : (sleptLink s c p next).next y =
    if y = p then some c else if y = c then next else s.next y := by
  simp [sleptLink]

theorem sleptLink_prev : (sleptLink s c p next).prev y =
    if next = some y then some c else if y = c then some p else s.prev y := by
  simp [sleptLink]

@[simp] theorem sleptLink_data : (sleptLink s c p next).data = s.data := by simp [sleptLink]
@[simp] theorem sleptLink_tail : (sleptLink s c p next).tail = s.tail := by simp [sleptLink]

theorem zombiePush_next : (zombiePush s c).next y =
    if y = .head .zombie then some c else if y = c then s.next (.head .zombie) else s.next y := by
  simp [zombiePush]

@[simp] theorem zombiePush_prev : (zombiePush s c).prev = s.prev := by simp [zombiePush]
@[simp] theorem zombiePush_data : (zombiePush s c).data = s.data := by simp [zombiePush]
@[simp] theorem zombiePush_tail : (zombiePush s c).tail = s.tail := rfl

theorem data_withTicks (f : TcbPtr → Nat) :
    (s.withTicks f).data y = { s.data y with sleepTick := f y } := rfl

theorem data_withTicks_of_eq {f : TcbPtr → Nat} (h : f y = s.ticks y) :
    (s.withTicks f).data y = s.data y := by
  rw [data_withTicks, h]
  rfl

@[simp] theorem place_withTicks (f : TcbPtr → Nat) :
    ((s.withTicks f).data y).place = (s.data y).place := rfl

end Links

section Splice
variable {s : State} {c p : TcbPtr} {ys zs : List TcbPtr}

/-- The new sleeper stands between the two parts of the list. -/
theorem sleptLink_path (hpath : Path s.next p (ys ++ zs)) (hnew : c ∉ p :: (ys ++ zs)) :
    Path (sleptLink s c (ys.getLastD p) zs.head?).next p (ys ++ c :: zs) := by
  have hne : c ≠ ys.getLastD p := by
    intro heq
    apply hnew
    rw [heq, ← List.cons_append]
    exact List.mem_append_left zs List.getLastD_mem_cons
  refine hpath.insert ?_ ?_ hnew ?_
  · rw [sleptLink_next, if_pos rfl]
  · rw [sleptLink_next, if_neg hne, if_pos rfl]
    cases zs with
    | nil => exact hpath.split.symm
    | cons z zs => exact hpath.split.1.symm
  · intro y hy hyc
    rw [sleptLink_next, if_neg hy, if_neg hyc]

theorem sleptLink_back (hback : BackLinked s.prev p (ys ++ zs)) (hcs : c ∉ ys ++ zs)
    (hnodup : (ys ++ zs).Nodup) :
    BackLinked (sleptLink s c (ys.getLastD p) zs.head?).prev p (ys ++ c :: zs) := by
  have hother : ∀ y ∈ ys ++ zs, zs.head? ≠ some y →
      (sleptLink s c (ys.getLastD p) zs.head?).prev y = s.prev y := by
    intro y hy hhead
    have hyc : y ≠ c := fun heq => hcs (heq ▸ hy)
    rw [sleptLink_prev, if_neg hhead, if_neg hyc]
  refine hback.insert ?_ ?_ ?_ ?_
  · have hhead : zs.head? ≠ some c := fun heq =>
      hcs (List.mem_append_right ys (List.mem_of_mem_head? heq))
    rw [sleptLink_prev, if_neg hhead, if_pos rfl]
  · intro y hy
    refine hother y (List.mem_append_left zs hy) fun hhead => ?_
    exact (List.nodup_append.mp hnodup).2.2 y hy y (List.mem_of_mem_head? hhead) rfl
  · intro y hy
    exact (sleptLink_prev s c _ y _).trans (if_pos hy)
  · intro y hy
    have hzs : y ∈ zs := List.mem_of_mem_tail hy
    refine hother y (List.mem_append_right ys hzs) fun hhead => ?_
    cases zs with
    | nil => simp at hy
    | cons z zs =>
      have hz : z = y := Option.some.inj hhead
      have hnodup' := List.nodup_cons.mp (List.nodup_append.mp hnodup).2.1
      exact hnodup'.1 (hz ▸ hy)

end Splice

namespace Queued
variable {linked : Prop} {s s' : State} {q q' : Queues} {hung hung' : Option (Nat × TcbPtr)}
  {l m : ListId} {x y c : TcbPtr} {xs ys zs : List TcbPtr}

theorem withTicks (h : Queued linked s q hung) (f : TcbPtr → Nat) :
    Queued linked (s.withTicks f) q hung :=
  h.congr (fun _ _ _ => rfl) (fun _ _ _ _ => rfl) rfl fun _ _ _ => rfl

theorem sleptLink (h : Queued linked s q hung) (hc : c.IsThread) (habsent : (q.hang hung).Absent c)
    (hflags : (s.data c).flags = ⟨true, false⟩) (hsplit : q .slept = ys ++ zs) :
    Queued linked (sleptLink s c (ys.getLastD (.head .slept)) zs.head?)
      (q.set .slept (ys ++ c :: zs))
      hung := by
  have hnodes : q.hang hung .slept = ys ++ zs := (q.hang_slept hung).trans hsplit
  have hnodes' : (q.set .slept (ys ++ c :: zs)).hang hung .slept = ys ++ c :: zs := by
    rw [Queues.hang_slept, Queues.set_self]
  have hpath : Path s.next (.head .slept) (ys ++ zs) := hnodes ▸ h.path .slept
  have hnew : c ∉ TcbPtr.head .slept :: (ys ++ zs) := hnodes ▸ not_node habsent hc
  have hlast : ys.getLastD (.head .slept) ∈ TcbPtr.head .slept :: q.hang hung .slept := by
    rw [hnodes, ← List.cons_append]
    exact List.mem_append_left zs List.getLastD_mem_cons
  have hcs : c ∉ ys ++ zs := fun hmem => hnew (List.mem_cons_of_mem _ hmem)
  have hnodup : (ys ++ zs).Nodup := (List.nodup_cons.mp hpath.nodup).2
  refine h.replace (l := .slept) ?_ (fun hlinked _ => ?_) (fun p hp => nomatch hp) ?_
    (fun m hm => ⟨q.set_other _ hm, q.hang_set_other _ hm⟩) ?_ ?_ ?_ ?_
  · rw [hnodes']
    exact sleptLink_path hpath hnew
  · have hback : BackLinked s.prev (.head .slept) (ys ++ zs) :=
      hnodes ▸ h.back hlinked .slept (by simp)
    rw [hnodes']
    exact sleptLink_back hback hcs hnodup
  · intro y hy
    rw [hnodes'] at hy
    rw [sleptLink_data]
    rcases List.mem_append.mp hy with hy | hy
    · exact h.member .slept y (hnodes ▸ List.mem_append_left zs hy)
    · rcases List.mem_cons.mp hy with rfl | hy
      · exact ⟨hc, hflags⟩
      · exact h.member .slept y (hnodes ▸ List.mem_append_right ys hy)
  · intro m hm y hy
    have hyp : y ≠ ys.getLastD (.head .slept) := fun heq => hm (h.same_node hy (heq ▸ hlast))
    have hyc : y ≠ c := fun heq => not_node habsent hc (heq ▸ hy)
    rw [sleptLink_next, if_neg hyp, if_neg hyc]
  · intro _ m hm y hy
    have hhead : zs.head? ≠ some y := by
      intro hhead
      have hmem : y ∈ q.hang hung .slept :=
        hnodes ▸ List.mem_append_right ys (List.mem_of_mem_head? hhead)
      exact hm (h.same_list hy hmem)
    have hyc : y ≠ c := fun heq => habsent m (heq ▸ hy)
    rw [sleptLink_prev, if_neg hhead, if_neg hyc]
  · simp
  · simp

theorem zombiePush (h : Queued linked s q hung) (hc : c.IsThread) (habsent : (q.hang hung).Absent c)
    (hflags : (s.data c).flags = ⟨false, true⟩) :
    Queued linked (zombiePush s c) (q.set .zombie (c :: q .zombie)) hung := by
  have hnodes : (q.set .zombie (c :: q .zombie)).hang hung .zombie = c :: q.hang hung .zombie := by
    rw [Queues.hang_zombie, Queues.hang_zombie, Queues.set_self]
  have hne : c ≠ .head .zombie := by
    rintro rfl
    exact hc
  refine h.replace (l := .zombie) ?_ (fun _ hz => absurd rfl hz) (fun p hp => nomatch hp) ?_
    (fun m hm => ⟨q.set_other _ hm, q.hang_set_other _ hm⟩) ?_ ?_ ?_ ?_
  · rw [hnodes]
    have hpath := h.path .zombie
    refine hpath.push ?_ ?_ ?_
    · rw [zombiePush_next, if_pos rfl]
    · rw [zombiePush_next, if_neg hne, if_pos rfl]
    · intro y hy
      have hyz : y ≠ .head .zombie := fun heq => hpath.not_mem (heq ▸ hy)
      have hyc : y ≠ c := fun heq => not_node habsent hc (heq ▸ List.mem_cons_of_mem _ hy)
      rw [zombiePush_next, if_neg hyz, if_neg hyc]
  · intro y hy
    rw [hnodes] at hy
    rw [zombiePush_data]
    rcases List.mem_cons.mp hy with rfl | hy
    · exact ⟨hc, hflags⟩
    · exact h.member .zombie y hy
  · intro m hm y hy
    have hyz : y ≠ .head .zombie := by
      rintro rfl
      exact hm (h.same_node hy List.mem_cons_self)
    have hyc : y ≠ c := fun heq => not_node habsent hc (heq ▸ hy)
    rw [zombiePush_next, if_neg hyz, if_neg hyc]
  · simp
  · simp
  · simp

/-- The first node of a list is unlinked. Nothing is said of that node itself. -/
theorem pop (h : Queued linked s q hung) (hl : q.hang hung l = x :: q'.hang hung' l)
    (hsame : ∀ m, m ≠ l → q' m = q m ∧ q'.hang hung' m = q.hang hung m) (hz : l ≠ .zombie)
    (hnext : ∀ y, y ≠ x → s'.next y = if y = .head l then s.next x else s.next y)
    (hprev : linked → ∀ y, y ≠ x → s'.prev y = if s.next x =
    some y then some (.head l) else s.prev y)
    (htail : ∀ p, l = .active p → s'.tail l = (q' l).getLastD (.head l))
    (htails : ∀ m, m ≠ l → s'.tail m = s.tail m)
    (hplace : ∀ y, y ≠ x → (s'.data y).place = (s.data y).place) : Queued linked s' q' hung' := by
  obtain ⟨xs, hrest⟩ : ∃ xs, q'.hang hung' l = xs := ⟨_, rfl⟩
  rw [hrest] at hl
  have hpath : Path s.next (.head l) (x :: xs) := hl ▸ h.path l
  have hx : x ∈ q.hang hung l := hl ▸ List.mem_cons_self
  have hxs : ∀ y ∈ xs, y ∈ q.hang hung l := fun y hy => hl ▸ List.mem_cons_of_mem x hy
  have hxxs : x ∉ xs := hpath.2.not_mem
  have hhead : TcbPtr.head l ≠ x := (h.thread_ne_head hx).symm
  have hfirst : s.next x = xs.head? := by
    cases xs with
    | nil => exact hpath.2
    | cons y ys => exact hpath.2.1
  refine h.replace (l := l) ?_ (fun hlinked _ => ?_) htail ?_ hsame ?_ ?_ htails ?_
  · rw [hrest]
    refine hpath.pop ?_ ?_
    · rw [hnext _ hhead, if_pos rfl]
    · intro y hy
      rw [hnext y (fun heq => hxxs (heq ▸ hy)), if_neg (h.thread_ne_head (hxs y hy))]
  · have hback : BackLinked s.prev (.head l) (x :: xs) := hl ▸ h.back hlinked l hz
    rw [hrest]
    refine hback.2.rehead ?_ ?_
    · intro y hy
      have hmem : y ∈ xs := List.mem_of_mem_head? hy
      rw [hprev hlinked y (fun heq => hxxs (heq ▸ hmem)), if_pos (hfirst.trans hy)]
    · intro y hy
      have hmem : y ∈ xs := List.mem_of_mem_tail hy
      rw [hprev hlinked y (fun heq => hxxs (heq ▸ hmem)), if_neg]
      rw [hfirst]
      intro heq
      cases xs with
      | nil => simp at hy
      | cons z zs =>
        have hz : z = y := Option.some.inj heq
        have hnodup := List.nodup_cons.mp (List.nodup_cons.mp hpath.2.nodup).2
        exact hnodup.1 (hz ▸ hy)
  · intro y hy
    rw [hrest] at hy
    obtain ⟨hthread, hbelongs⟩ := h.member l y (hxs y hy)
    exact ⟨hthread, hbelongs.congr (hplace y fun heq => hxxs (heq ▸ hy))⟩
  · intro m hm y hy
    have hyx : y ≠ x := by
      rintro rfl
      exact hm (h.same_node hy (List.mem_cons_of_mem _ hx))
    have hyhead : y ≠ .head l := by
      rintro rfl
      exact hm (h.same_node hy List.mem_cons_self)
    rw [hnext y hyx, if_neg hyhead]
  · intro hlinked m hm y hy
    have hyx : y ≠ x := by
      rintro rfl
      exact hm (h.same_list hy hx)
    rw [hprev hlinked y hyx, if_neg]
    rw [hfirst]
    exact fun heq => hm (h.same_list hy (hxs y (List.mem_of_mem_head? heq)))
  · intro m hm y hy
    refine hplace y ?_
    rintro rfl
    exact hm (h.same_list hy hx)

/-- A popped node is on no list. -/
theorem absent_of_pop (h : Queued linked s q hung) (hl : q.hang hung l = x :: q'.hang hung' l)
    (hsame : ∀ m, m ≠ l → q' m = q m ∧ q'.hang hung' m = q.hang hung m) :
    (q'.hang hung').Absent x := by
  intro m hmem
  have hx : x ∈ q.hang hung l := hl ▸ List.mem_cons_self
  by_cases hm : m = l
  · subst hm
    have hnodup : (TcbPtr.head m :: x :: q'.hang hung' m).Nodup := hl ▸ (h.path m).nodup
    exact (List.nodup_cons.mp (List.nodup_cons.mp hnodup).2).1 hmem
  · rw [(hsame m hm).2] at hmem
    exact hm (h.same_list hmem hx)

end Queued

/-- What no list operation changes. -/
def Tcb.fixed (t : Tcb) : Tcb :=
  { t with sleepTick := 0, flags := .clear, next := none, prev := none }

structure Unchanged (s s' : State) : Prop where
  fixed : ∀ y, (s'.tcb y).fixed = (s.tcb y).fixed
  elapsed : s'.elapsed = s.elapsed
  quantum : s'.quantum = s.quantum
  current : s'.current = s.current
  nextThreadId : s'.nextThreadId = s.nextThreadId
  kfreed : s'.kfreed = s.kfreed

namespace Unchanged
variable {s s' s'' : State}

theorem refl (s : State) : Unchanged s s := ⟨fun _ => rfl, rfl, rfl, rfl, rfl, rfl⟩

theorem trans (h : Unchanged s s') (h' : Unchanged s' s'') : Unchanged s s'' :=
  ⟨fun y => (h'.fixed y).trans (h.fixed y), h'.elapsed.trans h.elapsed, h'.quantum.trans h.quantum,
    h'.current.trans h.current, h'.nextThreadId.trans h.nextThreadId, h'.kfreed.trans h.kfreed⟩

theorem modify (p : TcbPtr) {f : Tcb → Tcb} (hf : ∀ t, (f t).fixed = t.fixed) :
    Unchanged s (s.modify p f) := by
  refine ⟨fun y => ?_, rfl, rfl, rfl, rfl, rfl⟩
  by_cases hy : y = p <;> simp [hy, hf]

theorem setNext (p : TcbPtr) (v : Option TcbPtr) : Unchanged s (s.setNext p v) :=
  modify p fun _ => rfl
theorem setPrev (p : TcbPtr) (v : Option TcbPtr) : Unchanged s (s.setPrev p v) :=
  modify p fun _ => rfl

theorem setPrevIf (p v : Option TcbPtr) : Unchanged s (s.setPrevIf p v) := by
  cases p with
  | none => exact refl s
  | some p => exact setPrev p v

theorem setTail (l : ListId) (p : TcbPtr) : Unchanged s (s.setTail l p) :=
  ⟨fun _ => rfl, rfl, rfl, rfl, rfl, rfl⟩

theorem withTicks (f : TcbPtr → Nat) : Unchanged s (s.withTicks f) :=
  ⟨fun _ => rfl, rfl, rfl, rfl, rfl, rfl⟩

theorem schedulerAdd (x : TcbPtr) : Unchanged s (schedulerAdd s x) :=
  (((setNext _ _).trans (setPrev _ _)).trans (setNext _ _)).trans (setTail _ _)

theorem sleptLink (c p : TcbPtr) (next : Option TcbPtr) : Unchanged s (sleptLink s c p next) :=
  (((setNext _ _).trans (setNext _ _)).trans (setPrev _ _)).trans (setPrevIf _ _)

theorem zombiePush (c : TcbPtr) : Unchanged s (zombiePush s c) := (setNext _ _).trans (setNext _ _)

theorem unlinkSlept (x : TcbPtr) : Unchanged s (unlinkSlept s x) := by
  have hflags : Unchanged s (s.modify x fun t =>
      { t with sleepTick := 0, flags := { t.flags with slept := !t.flags.slept } }) :=
    modify x fun _ => rfl
  exact (hflags.trans (setNext _ _)).trans (setPrevIf _ _)

theorem awake (x : TcbPtr) : Unchanged s (awake s x) := (unlinkSlept x).trans (schedulerAdd x)

theorem unlinkTarget (l : ListId) (x : TcbPtr) : Unchanged s (unlinkTarget s l x) := by
  have hlinks := (setNext (s := s) (.head l) (s.next x)).trans
    (setPrevIf ((s.setNext (.head l) (s.next x)).next x) (some (.head l)))
  unfold Scheduler.unlinkTarget
  dsimp only
  split
  · exact hlinks.trans (setTail _ _)
  · exact hlinks

theorem priority (h : Unchanged s s') (y : TcbPtr) : (s'.tcb y).priority = (s.tcb y).priority := by
  have hfixed := congrArg Tcb.priority (h.fixed y)
  exact hfixed

end Unchanged

end OsdevCourse.Scheduler
