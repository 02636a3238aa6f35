import Mathlib.Data.List.Perm.Subperm
import Mathlib.Tactic.Common

/-!
# Resources with one owner each

`holds p = some r`: the place `p` holds the resource `r`. A resource is owned once when
exactly one place holds it. Moving a resource from one place to another keeps every
resource owned once, and places that hold different resources are no more than the
resources are.
-/

namespace OsdevCourse

set_option autoImplicit false

universe u v
variable {P : Type u} {R : Type v}

/-- Exactly one place holds the resource. -/
def OwnedOnce (holds : P → Option R) (r : R) : Prop := ∃! p, holds p = some r

namespace OwnedOnce
variable {holds holds' : P → Option R} {r g : R} {p q a b : P}

theorem eq_place (h : OwnedOnce holds r) (hp : holds p = some r) (hq : holds q = some r) : p = q :=
  h.unique hp hq

theorem congr (hsame : ∀ p, holds' p = some r ↔ holds p = some r) (h : OwnedOnce holds r) :
    OwnedOnce holds' r := by
  obtain ⟨p, hp, honly⟩ := h
  refine ⟨p, (hsame p).2 hp, ?_⟩
  intro q hq
  exact honly q ((hsame q).1 hq)

/-- The resource `g` leaves the place `a` for the empty place `b`, and nothing else moves. -/
theorem move {T : List R} (hab : a ≠ b) (hfrom : holds a = some g) (hto : holds' b = some g)
    (hleft : ∀ r ∈ T, holds' a ≠ some r) (hempty : ∀ r ∈ T, holds b ≠ some r)
    (hother : ∀ p, p ≠ a → p ≠ b → ∀ r ∈ T, (holds' p = some r ↔ holds p = some r))
    (h : ∀ r ∈ T, OwnedOnce holds r) : ∀ r ∈ T, OwnedOnce holds' r := by
  intro r hr
  obtain ⟨p, hp, honly⟩ := h r hr
  cases Classical.em (r = g) with
  | inl heq =>
    subst heq
    refine ⟨b, hto, ?_⟩
    intro q hq
    cases Classical.em (q = b) with
    | inl hqb => exact hqb
    | inr hqb =>
      have hqa : q ≠ a := by
        intro hqa
        subst hqa
        exact hleft r hr hq
      have hold := (hother q hqa hqb r hr).1 hq
      exact absurd ((honly q hold).trans (honly a hfrom).symm) hqa
  | inr hne =>
    have hpa : p ≠ a := by
      intro hpa
      subst hpa
      exact hne (Option.some.inj (hp.symm.trans hfrom))
    have hpb : p ≠ b := by
      intro hpb
      subst hpb
      exact hempty r hr hp
    refine ⟨p, (hother p hpa hpb r hr).2 hp, ?_⟩
    intro q hq
    have hqa : q ≠ a := by
      intro hqa
      subst hqa
      exact hleft r hr hq
    have hqb : q ≠ b := by
      intro hqb
      subst hqb
      exact hne (Option.some.inj (hq.symm.trans hto))
    exact honly q ((hother q hqa hqb r hr).1 hq)

end OwnedOnce

section Counting
variable {holds : P → Option R} {T : List R} (slot : Nat → P) {n : Nat}

theorem exists_slot_contents (hslot : ∀ i j, slot i = slot j → i = j)
    (hin : ∀ i < n, ∃ r ∈ T, holds (slot i) = some r) (hown : ∀ r ∈ T, OwnedOnce holds r) :
    ∃ rs : List R, rs.length = n ∧ rs.Nodup ∧
      ∀ r ∈ rs, r ∈ T ∧ ∃ i < n, holds (slot i) = some r := by
  induction n with
  | zero => exact ⟨[], rfl, List.nodup_nil, by simp⟩
  | succ n ih =>
    obtain ⟨rs, hlen, hnodup, hrs⟩ := ih (fun i hi => hin i (Nat.lt_succ_of_lt hi))
    obtain ⟨r, hrT, hr⟩ := hin n (Nat.lt_succ_self n)
    refine ⟨r :: rs, by rw [List.length_cons, hlen], ?_, ?_⟩
    · rw [List.nodup_cons]
      refine ⟨?_, hnodup⟩
      intro hmem
      obtain ⟨_, i, hi, hheld⟩ := hrs r hmem
      have heq := hslot _ _ ((hown r hrT).eq_place hheld hr)
      omega
    · intro x hx
      cases List.mem_cons.1 hx with
      | inl heq => subst heq; exact ⟨hrT, n, Nat.lt_succ_self n, hr⟩
      | inr hmem =>
        obtain ⟨hxT, i, hi, hheld⟩ := hrs x hmem
        exact ⟨hxT, i, Nat.lt_succ_of_lt hi, hheld⟩

theorem slots_le_length (hslot : ∀ i j, slot i = slot j → i = j)
    (hin : ∀ i < n, ∃ r ∈ T, holds (slot i) = some r) (hown : ∀ r ∈ T, OwnedOnce holds r) :
    n ≤ T.length := by
  obtain ⟨rs, hlen, hnodup, hrs⟩ := exists_slot_contents slot hslot hin hown
  rw [← hlen]
  exact (List.subperm_of_subset hnodup fun r hr => (hrs r hr).1).length_le

theorem slots_lt_length {g : R} {b : P} (hslot : ∀ i j, slot i = slot j → i = j)
    (hin : ∀ i < n, ∃ r ∈ T, holds (slot i) = some r) (hown : ∀ r ∈ T, OwnedOnce holds r)
    (hg : g ∈ T) (hheld : holds b = some g) (hb : ∀ i < n, slot i ≠ b) : n < T.length := by
  obtain ⟨rs, hlen, hnodup, hrs⟩ := exists_slot_contents slot hslot hin hown
  have hfresh : g ∉ rs := by
    intro hmem
    obtain ⟨_, i, hi, hslot⟩ := hrs g hmem
    exact hb i hi ((hown g hg).eq_place hslot hheld)
  have hsub : g :: rs ⊆ T := by
    intro r hr
    cases List.mem_cons.1 hr with
    | inl heq => rw [heq]; exact hg
    | inr hmem => exact (hrs r hmem).1
  have hle := (List.subperm_of_subset (List.nodup_cons.2 ⟨hfresh, hnodup⟩) hsub).length_le
  rw [List.length_cons, hlen] at hle
  omega

end Counting

end OsdevCourse
