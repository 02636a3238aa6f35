import Mathlib.Tactic.Common

/-!
# Computations that may call a handler

A computation is given a handler and may have no result. Calling the handler costs something,
told by a measure of the states, and nothing else in the computation does: either the measure
has fallen, or the computation goes the same way with a handler that halts.
-/

namespace OsdevCourse.Handlers

set_option autoImplicit false

variable {ι σ α β : Type}

abbrev Handler (ι σ : Type) := ι → σ → Option σ

/-- The handler of a computation that must not call one. -/
def halting : Handler ι σ := fun _ _ => none

/-- A computation that has with `g` every result that it has with `f`. -/
def Steady (f g : Handler ι σ) (c : Handler ι σ → Option α) : Prop :=
  ∀ a, c f = some a → c g = some a

namespace Steady
variable {f g : Handler ι σ} {c : Handler ι σ → Option α}

theorem plain (r : Option α) : Steady f g fun _ => r := fun _ ha => ha

theorem bind (hc : Steady f g c) {d : Handler ι σ → α → Option β}
    (hd : ∀ a, Steady f g fun h => d h a) : Steady f g fun h => (c h).bind (d h) := by
  intro b hb
  obtain ⟨a, ha, hab⟩ := Option.bind_eq_some_iff.1 hb
  exact Option.bind_eq_some_iff.2 ⟨a, hc a ha, hd a b hab⟩

theorem ite {q : Prop} [Decidable q] {d : Handler ι σ → Option α} (hc : Steady f g c)
    (hd : Steady f g d) : Steady f g fun h => if q then c h else d h := by
  by_cases hq : q
  · simp only [if_pos hq]
    exact hc
  · simp only [if_neg hq]
    exact hd

end Steady

/-- A computation from a state of the measure `x`, with results that `n` measures. -/
structure Tame (h : Handler ι σ) (x : Nat) (n : α → Nat) (c : Handler ι σ → Option α) : Prop where
  unaided : ∀ a, c halting = some a → c h = some a ∧ n a = x
  spent : ∀ a, c h = some a → n a < x ∨ c halting = some a

namespace Tame
variable {h : Handler ι σ} {x : Nat} {n : α → Nat} {p : β → Nat} {c : Handler ι σ → Option α}

theorem le (hc : Tame h x n c) {a : α} (ha : c h = some a) : n a ≤ x := by
  rcases hc.spent a ha with hlt | hsame
  · exact Nat.le_of_lt hlt
  · exact Nat.le_of_eq (hc.unaided a hsame).2

theorem not_called (hc : Tame h x n c) {a : α} (ha : c h = some a) (hle : x ≤ n a) :
    c halting = some a := by
  rcases hc.spent a ha with hlt | hsame
  · omega
  · exact hsame

theorem plain {r : Option α} (hr : ∀ a, r = some a → n a = x) : Tame h x n fun _ => r :=
  ⟨fun a ha => ⟨ha, hr a ha⟩, fun _ ha => .inr ha⟩

theorem pure {a : α} (ha : n a = x) : Tame h x n fun _ => some a := by
  apply plain
  intro b hb
  rw [← Option.some.inj hb]
  exact ha

theorem call {m : σ → Nat} (hm : ∀ i s s', h i s = some s' → m s' < m s) (i : ι) (s : σ) :
    Tame h (m s) m fun f => f i s :=
  ⟨fun _ ha => absurd ha (by simp [halting]), fun s' hs' => .inl (hm i s s' hs')⟩

theorem bind (hc : Tame h x n c) {g : Handler ι σ → α → Option β}
    (hg : ∀ a, Tame h (n a) p fun f => g f a) : Tame h x p fun f => (c f).bind (g f) := by
  constructor
  · intro b hb
    obtain ⟨a, ha, hab⟩ := Option.bind_eq_some_iff.1 hb
    obtain ⟨hfirst, hsame⟩ := hc.unaided a ha
    obtain ⟨hsecond, hsame'⟩ := (hg a).unaided b hab
    exact ⟨Option.bind_eq_some_iff.2 ⟨a, hfirst, hsecond⟩, hsame'.trans hsame⟩
  · intro b hb
    obtain ⟨a, ha, hab⟩ := Option.bind_eq_some_iff.1 hb
    have hle := hc.le ha
    rcases (hg a).spent b hab with hlt | hsecond
    · exact .inl (Nat.lt_of_lt_of_le hlt hle)
    · rcases hc.spent a ha with hlt | hfirst
      · have heq := ((hg a).unaided b hsecond).2
        exact .inl (heq ▸ hlt)
      · exact .inr (Option.bind_eq_some_iff.2 ⟨a, hfirst, hsecond⟩)

theorem ite {q : Prop} [Decidable q] {d : Handler ι σ → Option α} (hc : Tame h x n c)
    (hd : Tame h x n d) : Tame h x n fun f => if q then c f else d f := by
  by_cases hq : q
  · simp only [if_pos hq]
    exact hc
  · simp only [if_neg hq]
    exact hd

end Tame

/-- A computation that may spend by itself too: where the measure is at the end what it was at
the beginning, the handler was not called. -/
structure Frugal (h : Handler ι σ) (x : Nat) (n : α → Nat) (c : Handler ι σ → Option α) : Prop where
  unaided : ∀ a, c halting = some a → c h = some a
  spent : ∀ a, c h = some a → n a < x ∨ n a = x ∧ c halting = some a

namespace Frugal
variable {h : Handler ι σ} {x : Nat} {n : α → Nat} {p : β → Nat} {c : Handler ι σ → Option α}

theorem le (hc : Frugal h x n c) {a : α} (ha : c h = some a) : n a ≤ x := by
  rcases hc.spent a ha with hlt | hsame
  · exact Nat.le_of_lt hlt
  · exact Nat.le_of_eq hsame.1

theorem not_called (hc : Frugal h x n c) {a : α} (ha : c h = some a) (hle : x ≤ n a) :
    c halting = some a := by
  rcases hc.spent a ha with hlt | hsame
  · omega
  · exact hsame.2

theorem of_tame (hc : Tame h x n c) : Frugal h x n c := by
  refine ⟨fun a ha => (hc.unaided a ha).1, fun a ha => ?_⟩
  rcases hc.spent a ha with hlt | hsame
  · exact .inl hlt
  · exact .inr ⟨(hc.unaided a hsame).2, hsame⟩

theorem bind (hc : Frugal h x n c) {g : Handler ι σ → α → Option β}
    (hg : ∀ a, Frugal h (n a) p fun f => g f a) : Frugal h x p fun f => (c f).bind (g f) := by
  constructor
  · intro b hb
    obtain ⟨a, ha, hab⟩ := Option.bind_eq_some_iff.1 hb
    exact Option.bind_eq_some_iff.2 ⟨a, hc.unaided a ha, (hg a).unaided b hab⟩
  · intro b hb
    obtain ⟨a, ha, hab⟩ := Option.bind_eq_some_iff.1 hb
    rcases (hg a).spent b hab with hlt | ⟨heq, hsecond⟩
    · exact .inl (Nat.lt_of_lt_of_le hlt (hc.le ha))
    · rcases hc.spent a ha with hlt | ⟨heq', hfirst⟩
      · exact .inl (heq ▸ hlt)
      · exact .inr ⟨heq.trans heq', Option.bind_eq_some_iff.2 ⟨a, hfirst, hsecond⟩⟩

end Frugal

end OsdevCourse.Handlers
