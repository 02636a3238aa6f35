import Mathlib.Data.List.Rotate
import Mathlib.Data.List.Dedup

/-!
# First come, first served, and taking turns

A log lists arrivals, an entry as often as it arrived; `List.dedup` keeps the last arrival of each,
in order. A queue that is a sublist of it is in the order of the last arrivals. When the queue
that is served is turned by one each time, its heads repeat with the length of the queue.
-/

namespace OsdevCourse

set_option autoImplicit false

universe u
variable {α : Type u}

section Arrivals
variable [DecidableEq α] {x y : α} {log q xs : List α}

/-- The last arrival of the one comes before the last arrival of the other. -/
def ArrivedBefore (log : List α) (x y : α) : Prop := [x, y].Sublist log.dedup

theorem ArrivedBefore.of_head (h : (x :: q).Sublist log.dedup) (hy : y ∈ q) :
    ArrivedBefore log x y := by
  have hpair : [x, y].Sublist (x :: q) := (List.singleton_sublist.mpr hy).cons_cons x
  exact hpair.trans h

theorem sublist_dedup_append (hq : q.Sublist log.dedup) (hnodup : xs.Nodup)
    (hnew : ∀ x ∈ xs, x ∉ q) :
    (q ++ xs).Sublist (log ++ xs).dedup := by
  induction log generalizing q with
  | nil =>
    rw [List.dedup_nil, List.sublist_nil] at hq
    subst hq
    rw [List.nil_append]
    exact hnodup.dedup.symm ▸ List.Sublist.refl xs
  | cons a log ih =>
    rw [List.cons_append]
    by_cases ha : a ∈ log
    · rw [List.dedup_cons_of_mem ha] at hq
      rw [List.dedup_cons_of_mem (List.mem_append_left xs ha)]
      exact ih hq hnew
    · rw [List.dedup_cons_of_notMem ha] at hq
      rcases List.sublist_cons_iff.mp hq with hq | ⟨q', rfl, hq'⟩
      · refine (ih hq hnew).trans ?_
        by_cases hall : a ∈ log ++ xs
        · rw [List.dedup_cons_of_mem hall]
        · rw [List.dedup_cons_of_notMem hall]
          exact List.sublist_cons_self a _
      · have hxs : a ∉ xs := fun hmem => hnew a hmem List.mem_cons_self
        have hall : a ∉ log ++ xs := by
          rw [List.mem_append]
          exact fun hmem => hmem.elim ha hxs
        rw [List.dedup_cons_of_notMem hall, List.cons_append]
        exact (ih hq' fun x hx hmem => hnew x hx (List.mem_cons_of_mem a hmem)).cons_cons a

end Arrivals

section Turns
variable {x : α} {ring xs zs : List α}

/-- The one who was served comes back at the end when the members stay the same. -/
theorem rotate_one_of_perm (h : (xs ++ zs).Perm (x :: xs)) : xs ++ zs = (x :: xs).rotate 1 := by
  have hsplit : (xs ++ zs).Perm (xs ++ [x]) := h.trans (List.perm_append_singleton x xs).symm
  have hone : zs = [x] := List.perm_singleton.mp ((List.perm_append_left_iff xs).mp hsplit)
  rw [hone, List.rotate_cons_succ, List.rotate_zero]

/-- The heads of a ring that is turned by one after each of them. -/
def Turns (ring xs : List α) : Prop := ∀ i, ∀ x ∈ xs[i]?, (ring.rotate i).head? = some x

theorem Turns.get (h : Turns ring xs) {i : Nat} (hi : i < xs.length) :
    xs[i]? = ring[i % ring.length]? := by
  have hhead := h i xs[i] (List.getElem?_eq_getElem hi)
  have hpos : 0 < ring.length := by
    rw [List.length_pos_iff]
    rintro rfl
    simp at hhead
  rw [← List.rotate_mod, List.head?_rotate (Nat.mod_lt i hpos)] at hhead
  rw [hhead, List.getElem?_eq_getElem hi]

theorem Turns.periodic (h : Turns ring xs) {i : Nat} (hi : i + ring.length < xs.length) :
    xs[i + ring.length]? = xs[i]? := by
  rw [h.get hi, h.get (by omega), Nat.add_mod_right]

theorem Turns.window (h : Turns ring xs) {i : Nat} (hi : i + ring.length ≤ xs.length) :
    (xs.drop i).take ring.length = ring.rotate i := by
  apply List.ext_getElem?
  intro j
  by_cases hj : j < ring.length
  · rw [List.getElem?_take_of_lt hj, List.getElem?_drop, h.get (by omega), List.getElem?_rotate hj,
      Nat.add_comm]
  · rw [List.getElem?_eq_none, List.getElem?_eq_none]
    · rw [List.length_rotate]
      omega
    · rw [List.length_take]
      omega

end Turns

end OsdevCourse
