import Mathlib.Tactic.Common
import Mathlib.Data.List.Basic

/-!
# Delta queues

A queue of sleepers in which each entry stores the time that is left after the entry
before it. `remaining` gives back the absolute times, as prefix sums; an insertion
changes nobody else's, and `advance e` takes `e` off every one of them.
-/

namespace OsdevCourse.DeltaQueue

set_option autoImplicit false

universe u
variable {α : Type u} {x y : α} {d e t w : Nat} {q : List (α × Nat)}

/-- Everybody's remaining time. -/
def remaining : List (α × Nat) → List (α × Nat)
  | [] => []
  | (x, d) :: q => (x, d) :: (remaining q).map fun y => (y.1, d + y.2)

def insert (x : α) (t : Nat) : List (α × Nat) → List (α × Nat)
  | [] => [(x, t)]
  | (y, d) :: q => if t ≤ d then (x, t) :: (y, d - t) :: q else (y, d) :: insert x (t - d) q

/-- What is left of the queue `e` units of time later. -/
def advance : Nat → List (α × Nat) → List (α × Nat)
  | _, [] => []
  | e, (x, d) :: q => if d ≤ e then advance (e - d) q else (x, d - e) :: q

theorem mem_remaining_cons : (y, w) ∈ remaining ((x, d) :: q) ↔
    (y = x ∧ w = d) ∨ (d ≤ w ∧ (y, w - d) ∈ remaining q) := by
  simp only [remaining, List.mem_cons, Prod.mk.injEq, List.mem_map, Prod.exists]
  constructor
  · rintro (h | ⟨z, v, hz, rfl, rfl⟩)
    · exact Or.inl h
    · exact Or.inr ⟨Nat.le_add_right d v, by rwa [Nat.add_sub_cancel_left]⟩
  · rintro (h | ⟨hle, h⟩)
    · exact Or.inl h
    · exact Or.inr ⟨y, w - d, h, rfl, by omega⟩

theorem mem_remaining_name (h : (y, w) ∈ remaining q) : y ∈ q.map Prod.fst := by
  induction q generalizing w with
  | nil => simp [remaining] at h
  | cons a q ih =>
    rcases mem_remaining_cons.mp h with ⟨rfl, _⟩ | ⟨_, h⟩
    · simp
    · exact List.mem_cons_of_mem _ (ih h)

theorem mem_remaining_insert : (y, w) ∈ remaining (insert x t q) ↔
    (y = x ∧ w = t) ∨ (y, w) ∈ remaining q := by
  induction q generalizing t w with
  | nil => simp [insert, remaining]
  | cons a q ih =>
    obtain ⟨z, d⟩ := a
    by_cases hle : t ≤ d
    · simp only [insert, if_pos hle, mem_remaining_cons]
      constructor
      · rintro (h | ⟨hw, ⟨rfl, heq⟩ | ⟨hd, h⟩⟩)
        · exact Or.inl h
        · exact Or.inr (Or.inl ⟨rfl, by omega⟩)
        · refine Or.inr (Or.inr ⟨by omega, ?_⟩)
          rwa [show w - t - (d - t) = w - d by omega] at h
      · rintro (h | ⟨rfl, rfl⟩ | ⟨hd, h⟩)
        · exact Or.inl h
        · exact Or.inr ⟨hle, Or.inl ⟨rfl, rfl⟩⟩
        · refine Or.inr ⟨by omega, Or.inr ⟨by omega, ?_⟩⟩
          rwa [show w - t - (d - t) = w - d by omega]
    · simp only [insert, if_neg hle, mem_remaining_cons, ih]
      constructor
      · rintro (h | ⟨hd, ⟨rfl, heq⟩ | h⟩)
        · exact Or.inr (Or.inl h)
        · exact Or.inl ⟨rfl, by omega⟩
        · exact Or.inr (Or.inr ⟨hd, h⟩)
      · rintro (⟨rfl, rfl⟩ | h | ⟨hd, h⟩)
        · exact Or.inr ⟨by omega, Or.inl ⟨rfl, rfl⟩⟩
        · exact Or.inl h
        · exact Or.inr ⟨hd, Or.inr h⟩

theorem insert_names (x : α) (t : Nat) (q : List (α × Nat)) :
    ((insert x t q).map Prod.fst).Perm (x :: q.map Prod.fst) := by
  induction q generalizing t with
  | nil => simp [insert]
  | cons a q ih =>
    obtain ⟨y, d⟩ := a
    by_cases hle : t ≤ d
    · simp [insert, hle]
    · simp only [insert, if_neg hle, List.map_cons]
      exact ((ih (t - d)).cons y).trans (List.Perm.swap x y _)

theorem mem_remaining_advance : (y, w) ∈ remaining (advance e q) ↔
    0 < w ∧ (y, w + e) ∈ remaining q := by
  induction q generalizing e w with
  | nil => simp [advance, remaining]
  | cons a q ih =>
    obtain ⟨x, d⟩ := a
    by_cases hle : d ≤ e
    · simp only [advance, if_pos hle, ih, mem_remaining_cons]
      constructor
      · rintro ⟨hw, h⟩
        refine ⟨hw, Or.inr ⟨by omega, ?_⟩⟩
        rwa [show w + e - d = w + (e - d) by omega]
      · rintro ⟨hw, ⟨rfl, heq⟩ | ⟨hd, h⟩⟩
        · omega
        · refine ⟨hw, ?_⟩
          rwa [show w + e - d = w + (e - d) by omega] at h
    · simp only [advance, if_neg hle, mem_remaining_cons]
      constructor
      · rintro (⟨rfl, rfl⟩ | ⟨hd, h⟩)
        · exact ⟨by omega, Or.inl ⟨rfl, by omega⟩⟩
        · refine ⟨by omega, Or.inr ⟨by omega, ?_⟩⟩
          rwa [show w + e - d = w - (d - e) by omega]
      · rintro ⟨hw, ⟨rfl, heq⟩ | ⟨hd, h⟩⟩
        · exact Or.inl ⟨rfl, by omega⟩
        · refine Or.inr ⟨by omega, ?_⟩
          rwa [show w + e - d = w - (d - e) by omega] at h

/-! The absolute times as a whole list: an insertion puts one entry in, an advance takes
those that are due away and charges the others. -/

theorem remaining_names (q : List (α × Nat)) : (remaining q).map Prod.fst = q.map Prod.fst := by
  induction q with
  | nil => rfl
  | cons a q ih =>
    obtain ⟨x, d⟩ := a
    simpa [remaining, Function.comp_def] using ih

theorem remaining_injective {q q' : List (α × Nat)} (h : remaining q = remaining q') : q = q' := by
  induction q generalizing q' with
  | nil =>
    cases q' with
    | nil => rfl
    | cons b q' => exact absurd h (by simp [remaining])
  | cons a q ih =>
    obtain ⟨x, d⟩ := a
    cases q' with
    | nil => exact absurd h (by simp [remaining])
    | cons b q' =>
      obtain ⟨y, c⟩ := b
      simp only [remaining, List.cons.injEq, Prod.mk.injEq] at h
      obtain ⟨⟨rfl, rfl⟩, hrest⟩ := h
      have hshift : Function.Injective fun p : α × Nat => (p.1, d + p.2) := by
        intro p r hpr
        simp only [Prod.mk.injEq, Nat.add_left_cancel_iff] at hpr
        exact Prod.ext hpr.1 hpr.2
      rw [ih (hshift.list_map hrest)]

theorem remaining_sorted (q : List (α × Nat)) : (remaining q).Pairwise fun a b => a.2 ≤ b.2 := by
  induction q with
  | nil => exact .nil
  | cons a q ih =>
    obtain ⟨x, d⟩ := a
    refine List.pairwise_cons.mpr ⟨?_, ?_⟩
    · intro b hb
      obtain ⟨c, _, rfl⟩ := List.mem_map.mp hb
      exact Nat.le_add_right d c.2
    · refine List.pairwise_map.mpr (ih.imp ?_)
      intro b c hbc
      exact Nat.add_le_add_left hbc d

theorem remaining_insert (x : α) (t : Nat) (q : List (α × Nat)) : ∃ before after,
    remaining q = before ++ after ∧ remaining (insert x t q) = before ++ (x, t) :: after := by
  induction q generalizing t with
  | nil => exact ⟨[], [], rfl, by simp [insert, remaining]⟩
  | cons a q ih =>
    obtain ⟨y, d⟩ := a
    by_cases hle : t ≤ d
    · refine ⟨[], remaining ((y, d) :: q), rfl, ?_⟩
      have hd : t + (d - t) = d := by omega
      have hrest : ∀ p : α × Nat, (p.1, t + (d - t + p.2)) = (p.1, d + p.2) := by
        intro p
        rw [← Nat.add_assoc, hd]
      simp [insert, hle, remaining, hd, hrest, Function.comp_def]
    · obtain ⟨before, after, hq, hinsert⟩ := ih (t - d)
      have ht : d + (t - d) = t := by omega
      refine ⟨(y, d) :: before.map fun p => (p.1, d + p.2),
        after.map fun p => (p.1, d + p.2), ?_, ?_⟩
      · simp [remaining, hq]
      · simp [insert, hle, remaining, hinsert, ht]

/-- Those whose absolute time is over after `e` units. -/
def expired (e : Nat) (q : List (α × Nat)) : List α :=
  ((remaining q).filter fun p => p.2 ≤ e).map Prod.fst

theorem remaining_advance (e : Nat) (q : List (α × Nat)) : remaining (advance e q) =
    ((remaining q).filter fun p => e < p.2).map fun p => (p.1, p.2 - e) := by
  induction q generalizing e with
  | nil => rfl
  | cons a q ih =>
    obtain ⟨x, d⟩ := a
    by_cases hle : d ≤ e
    · have hkeep : ∀ p : α × Nat, decide (e < d + p.2) = decide (e - d < p.2) := by
        intro p
        rw [decide_eq_decide]
        omega
      have hcharge : ∀ p : α × Nat, (p.1, d + p.2 - e) = (p.1, p.2 - (e - d)) := by
        intro p
        refine congrArg (Prod.mk p.1) ?_
        omega
      simp [advance, hle, ih, remaining, List.filter_map, Function.comp_def, hkeep, hcharge]
    · have hkeep : ∀ p : α × Nat, decide (e < d + p.2) = true := by
        intro p
        rw [decide_eq_true_eq]
        omega
      have hcharge : ∀ p : α × Nat, (p.1, d + p.2 - e) = (p.1, d - e + p.2) := by
        intro p
        refine congrArg (Prod.mk p.1) ?_
        omega
      have hlt : e < d := by omega
      simp [advance, hle, hlt, remaining, List.filter_map, Function.comp_def, hkeep, hcharge]

theorem expired_append_advance (e : Nat) (q : List (α × Nat)) :
    expired e q ++ (advance e q).map Prod.fst = q.map Prod.fst := by
  induction q generalizing e with
  | nil => rfl
  | cons a q ih =>
    obtain ⟨x, d⟩ := a
    by_cases hle : d ≤ e
    · have hdue : ∀ p : α × Nat, decide (d + p.2 ≤ e) = decide (p.2 ≤ e - d) := by
        intro p
        rw [decide_eq_decide]
        omega
      have hrest := ih (e - d)
      rw [expired] at hrest
      simpa [expired, advance, hle, remaining, List.filter_map, Function.comp_def, hdue] using hrest
    · have hdue : ∀ p : α × Nat, ¬ d + p.2 ≤ e := by
        intro p
        omega
      simp [expired, advance, hle, remaining, List.filter_map, Function.comp_def, hdue]

end OsdevCourse.DeltaQueue
