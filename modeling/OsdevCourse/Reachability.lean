import Mathlib.Algebra.Group.Nat.Defs
import Mathlib.Tactic.Common
import Mathlib.Data.List.Basic

/-!
# Labelled runs of a transition system

`Run Step s as t`: the actions `as`, taken one after the other, lead from `s` to `t`.
A theorem about every run is a theorem about every order of the actions. A condition
on the steps is put into the relation itself: `Guarded Step Cond` takes a step of
`Step` only where `Cond` holds of the state before it.
-/

namespace OsdevCourse

set_option autoImplicit false

universe u v
variable {S : Type u} {A : Type v}

/-- The actions of the list, in order, lead from the first state to the second. -/
inductive Run (Step : S → A → S → Prop) : S → List A → S → Prop where
  | nil (s : S) : Run Step s [] s
  | cons {s t u : S} {a : A} {as : List A} : Step s a t → Run Step t as u → Run Step s (a :: as) u

/-- The steps taken in a state and with an action that meet a condition. -/
def Guarded (Step : S → A → S → Prop) (Cond : S → A → Prop) (s : S) (a : A) (t : S) : Prop :=
  Cond s a ∧ Step s a t

namespace Run
variable {Step Step' : S → A → S → Prop} {s t u : S} {as bs : List A} {a : A}

theorem single (h : Step s a t) : Run Step s [a] t := .cons h (.nil t)

theorem append (hst : Run Step s as t) (htu : Run Step t bs u) : Run Step s (as ++ bs) u := by
  induction hst with
  | nil => exact htu
  | cons h _ ih => exact .cons h (ih htu)

theorem snoc (hst : Run Step s as t) (h : Step t a u) : Run Step s (as ++ [a]) u :=
  hst.append (.single h)

theorem mono (hle : ∀ s a t, Step s a t → Step' s a t) (h : Run Step s as t) :
    Run Step' s as t := by
  induction h with
  | nil => exact .nil _
  | cons h _ ih => exact .cons (hle _ _ _ h) ih

theorem of_guarded {Cond : S → A → Prop} (h : Run (Guarded Step Cond) s as t) : Run Step s as t :=
  h.mono fun _ _ _ hstep => hstep.2

theorem invariant (Inv : S → Prop) (hstep : ∀ s a t, Inv s → Step s a t → Inv t)
    (h : Run Step s as t) (hs : Inv s) : Inv t := by
  induction h with
  | nil => exact hs
  | cons h _ ih => exact ih (hstep _ _ _ hs h)

theorem trace_invariant_from (Inv : List A → S → Prop)
    (hstep : ∀ bs s a t, Inv bs s → Step s a t → Inv (bs ++ [a]) t)
    (h : Run Step s as t) (hs : Inv bs s) : Inv (bs ++ as) t := by
  induction h generalizing bs with
  | nil => simpa using hs
  | cons h _ ih =>
    have hnext := ih (hstep bs _ _ _ hs h)
    simpa only [List.append_assoc, List.singleton_append] using hnext

theorem trace_invariant (Inv : List A → S → Prop)
    (hstep : ∀ bs s a t, Inv bs s → Step s a t → Inv (bs ++ [a]) t)
    (h : Run Step s as t) (hs : Inv [] s) : Inv as t :=
  trace_invariant_from Inv hstep h hs

section Two
variable {T : Type u} {Step₂ : T → A → T → Prop} {s' t' : T} (R : S → T → Prop)

theorem simulation (hstep : ∀ s a t s', R s s' → Step s a t → ∃ t', Step₂ s' a t' ∧ R t t')
    (h : Run Step s as t) (hs : R s s') : ∃ t', Run Step₂ s' as t' ∧ R t t' := by
  induction h generalizing s' with
  | nil => exact ⟨s', .nil s', hs⟩
  | cons h _ ih =>
    obtain ⟨u', hstep', hu⟩ := hstep _ _ _ _ hs h
    obtain ⟨t', hrun', ht⟩ := ih hu
    exact ⟨t', .cons hstep' hrun', ht⟩

/-- What the same step of two systems preserves, the same run preserves. -/
theorem lockstep (hstep : ∀ s a t s' t', R s s' → Step s a t → Step₂ s' a t' → R t t')
    (h : Run Step s as t) (h' : Run Step₂ s' as t') (hs : R s s') : R t t' := by
  induction h generalizing s' with
  | nil =>
    cases h'
    exact hs
  | cons h _ ih =>
    cases h' with
    | cons hfirst hrest => exact ih hrest (hstep _ _ _ _ _ hs h hfirst)

end Two

end Run

/-- The states some run from a given one leads to. -/
def Reachable (Step : S → A → S → Prop) (s t : S) : Prop := ∃ as, Run Step s as t

theorem Reachable.invariant {Step : S → A → S → Prop} {s t : S} (Inv : S → Prop)
    (hstep : ∀ s a t, Inv s → Step s a t → Inv t) (h : Reachable Step s t)
    (hs : Inv s) : Inv t := by
  obtain ⟨_, hrun⟩ := h
  exact hrun.invariant Inv hstep hs

theorem Reachable.trans {Step : S → A → S → Prop} {s t u : S} (hst : Reachable Step s t)
    (htu : Reachable Step t u) : Reachable Step s u := by
  obtain ⟨_, hfirst⟩ := hst
  obtain ⟨_, hrest⟩ := htu
  exact ⟨_, hfirst.append hrest⟩

theorem Reachable.mono {Step Step' : S → A → S → Prop} {s t : S}
    (hle : ∀ s a t, Step s a t → Step' s a t) (h : Reachable Step s t) : Reachable Step' s t := by
  obtain ⟨_, hrun⟩ := h
  exact ⟨_, hrun.mono hle⟩

end OsdevCourse
