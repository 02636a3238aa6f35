import Mathlib.Tactic.Common
import Mathlib.Data.List.Basic

/-!
# Lists threaded through the links of their nodes

A node type `P`, a forward link `next` and a backward link `prev`, both possibly NULL.
`Path next p xs`: following `next` from the node `p` visits exactly `xs` and then NULL.
`BackLinked prev p xs`: each node of `xs` links back to the one before it, the first to `p`.
The node `p` may be a sentinel. Every list edit is stated for links that agree with
the old ones away from the edited nodes, so that a frame is an equation on links.
-/

namespace OsdevCourse

set_option autoImplicit false

universe u
variable {P : Type u} {next next' prev prev' : P → Option P} {p x c : P} {xs ys zs : List P}

def Path (next : P → Option P) : P → List P → Prop
  | p, [] => next p = none
  | p, x :: xs => next p = some x ∧ Path next x xs

def BackLinked (prev : P → Option P) : P → List P → Prop
  | _, [] => True
  | p, x :: xs => prev x = some p ∧ BackLinked prev x xs

/-- A doubly linked list: both directions agree. -/
def Chain (next prev : P → Option P) (p : P) (xs : List P) : Prop :=
  Path next p xs ∧ BackLinked prev p xs

/-- The nodes that following `next` visits, at most as many as there is fuel. -/
def walk (next : P → Option P) : Nat → P → List P
  | 0, _ => []
  | fuel + 1, p =>
    match next p with
    | none => []
    | some x => x :: walk next fuel x

namespace Path

theorem walk_eq {fuel : Nat} (h : Path next p xs) (hfuel : xs.length < fuel) :
    walk next fuel p = xs := by
  induction xs generalizing p fuel with
  | nil =>
    obtain ⟨n, rfl⟩ : ∃ n, fuel = n + 1 := ⟨fuel - 1, by omega⟩
    have hnone : next p = none := h
    simp [walk, hnone]
  | cons x xs ih =>
    obtain ⟨n, rfl⟩ : ∃ n, fuel = n + 1 := ⟨fuel - 1, by omega⟩
    rw [List.length_cons] at hfuel
    have hrest : walk next n x = xs := ih h.2 (by omega)
    simp [walk, h.1, hrest]

theorem congr (h : Path next p xs) (heq : ∀ y ∈ p :: xs, next' y = next y) : Path next' p xs := by
  induction xs generalizing p with
  | nil => exact (heq p List.mem_cons_self).trans h
  | cons x xs ih =>
    refine ⟨(heq p List.mem_cons_self).trans h.1, ih h.2 ?_⟩
    exact fun y hy => heq y (List.mem_cons_of_mem p hy)

theorem functional (hx : Path next p xs) (hy : Path next p ys) : xs = ys := by
  induction xs generalizing p ys with
  | nil =>
    cases ys with
    | nil => rfl
    | cons y ys => exact absurd (hx.symm.trans hy.1) (by simp)
  | cons x xs ih =>
    cases ys with
    | nil => exact absurd (hx.1.symm.trans hy) (by simp)
    | cons y ys =>
      have hxy : x = y := Option.some.inj (hx.1.symm.trans hy.1)
      subst hxy
      rw [ih hx.2 hy.2]

theorem split (h : Path next p (ys ++ zs)) : Path next (ys.getLastD p) zs := by
  induction ys generalizing p with
  | nil => simpa using h
  | cons y ys ih => simpa only [List.getLastD_cons] using ih h.2

/-- A list that reaches NULL never comes back to a node: it is finite and acyclic. -/
theorem nodup (h : Path next p xs) : (p :: xs).Nodup := by
  induction xs generalizing p with
  | nil => simp
  | cons x xs ih =>
    refine List.nodup_cons.mpr ⟨?_, ih h.2⟩
    intro hmem
    obtain ⟨ys, zs, hsplit⟩ := List.mem_iff_append.mp hmem
    have hagain : Path next p zs := by
      have hsuffix : Path next p ((ys ++ [p]) ++ zs) := by
        simpa only [List.append_assoc, List.singleton_append, ← hsplit] using h
      simpa only [List.getLastD_concat] using hsuffix.split
    have hlen := congrArg List.length (hagain.functional h)
    have hlen' := congrArg List.length hsplit
    simp only [List.length_append, List.length_cons] at hlen hlen'
    omega

theorem not_mem (h : Path next p xs) : p ∉ xs := (List.nodup_cons.mp h.nodup).1

theorem next_last (h : Path next p xs) : next (xs.getLastD p) = none := by
  have hnil : Path next p (xs ++ []) := by simpa using h
  exact hnil.split

theorem insert (h : Path next p (ys ++ zs)) (hlast : next' (ys.getLastD p) = some c)
    (hc : next' c = next (ys.getLastD p)) (hnew : c ∉ p :: (ys ++ zs))
    (hother : ∀ y, y ≠ ys.getLastD p → y ≠ c → next' y = next y) :
    Path next' p (ys ++ c :: zs) := by
  have hnodup := h.nodup
  induction ys generalizing p with
  | nil =>
    refine ⟨hlast, ?_⟩
    cases zs with
    | nil => exact hc.trans h
    | cons z zs =>
      refine ⟨hc.trans h.1, h.2.congr fun y hy => hother y ?_ ?_⟩
      · rintro rfl
        exact (List.nodup_cons.mp hnodup).1 hy
      · rintro rfl
        exact hnew (List.mem_cons_of_mem p hy)
  | cons y ys ih =>
    rw [List.getLastD_cons] at hlast hc hother
    refine ⟨?_, ih h.2 hlast hc (fun hmem => hnew (List.mem_cons_of_mem p hmem)) hother
      (List.nodup_cons.mp hnodup).2⟩
    rw [hother p ?_ ?_]
    · exact h.1
    · intro heq
      apply (List.nodup_cons.mp hnodup).1
      rw [heq]
      exact List.mem_append_left zs List.getLastD_mem_cons
    · rintro rfl
      exact hnew List.mem_cons_self

/-- A node takes the place of all that comes after the first part of the list. -/
theorem cutSnoc (h : Path next p (ys ++ zs)) (hlast : next' (ys.getLastD p) = some c)
    (hc : next' c = none) (hnew : c ∉ p :: ys)
    (hother : ∀ y, y ≠ ys.getLastD p → y ≠ c → next' y = next y) : Path next' p (ys ++ [c]) := by
  have hnodup : (p :: ys).Nodup := h.nodup.sublist ((List.sublist_append_left ys zs).cons_cons p)
  induction ys generalizing p with
  | nil => exact ⟨hlast, hc⟩
  | cons y ys ih =>
    rw [List.getLastD_cons] at hlast hother
    refine ⟨?_, ih h.2 hlast (fun hmem => hnew (List.mem_cons_of_mem p hmem)) hother
      (List.nodup_cons.mp hnodup).2⟩
    rw [hother p ?_ ?_]
    · exact h.1
    · intro heq
      apply (List.nodup_cons.mp hnodup).1
      rw [heq]
      exact List.getLastD_mem_cons
    · rintro rfl
      exact hnew List.mem_cons_self

theorem push (h : Path next p xs) (hp : next' p = some c) (hc : next' c = next p)
    (hother : ∀ y ∈ xs, next' y = next y) : Path next' p (c :: xs) := by
  refine ⟨hp, ?_⟩
  cases xs with
  | nil => exact hc.trans h
  | cons x xs => exact ⟨hc.trans h.1, h.2.congr hother⟩

theorem pop (h : Path next p (x :: xs)) (hp : next' p = next x)
    (hother : ∀ y ∈ xs, next' y = next y) : Path next' p xs := by
  have htail := h.2
  cases xs with
  | nil => exact hp.trans htail
  | cons y ys => exact ⟨hp.trans htail.1, htail.2.congr hother⟩

theorem remove (h : Path next p (ys ++ c :: zs)) (hlast : next' (ys.getLastD p) = next c)
    (hother : ∀ y ∈ p :: (ys ++ zs), y ≠ ys.getLastD p → next' y = next y) :
    Path next' p (ys ++ zs) := by
  have hnodup := h.nodup
  induction ys generalizing p with
  | nil =>
    refine h.pop hlast fun y hy => hother y (List.mem_cons_of_mem p hy) ?_
    rintro rfl
    exact (List.nodup_cons.mp hnodup).1 (List.mem_cons_of_mem c hy)
  | cons y ys ih =>
    rw [List.getLastD_cons] at hlast hother
    refine ⟨?_, ih h.2 hlast (fun z hz => hother z (List.mem_cons_of_mem p hz))
      (List.nodup_cons.mp hnodup).2⟩
    rw [hother p List.mem_cons_self ?_]
    · exact h.1
    · intro heq
      apply (List.nodup_cons.mp hnodup).1
      rw [heq]
      exact List.mem_append_left _ List.getLastD_mem_cons

end Path

namespace BackLinked

theorem congr (h : BackLinked prev p xs) (heq : ∀ y ∈ xs, prev' y = prev y) :
    BackLinked prev' p xs := by
  induction xs generalizing p with
  | nil => trivial
  | cons x xs ih =>
    refine ⟨(heq x List.mem_cons_self).trans h.1, ih h.2 ?_⟩
    exact fun y hy => heq y (List.mem_cons_of_mem x hy)

theorem append_iff : BackLinked prev p (ys ++ zs) ↔
    BackLinked prev p ys ∧ BackLinked prev (ys.getLastD p) zs := by
  induction ys generalizing p with
  | nil => simp [BackLinked]
  | cons y ys ih => simp only [List.cons_append, BackLinked, List.getLastD_cons, ih, and_assoc]

/-- Only the first node's backward link depends on what the list hangs off. -/
theorem rehead (h : BackLinked prev p xs) (hhead : ∀ y ∈ xs.head?, prev' y = some c)
    (htail : ∀ y ∈ xs.tail, prev' y = prev y) : BackLinked prev' c xs := by
  cases xs with
  | nil => trivial
  | cons x xs => exact ⟨hhead x rfl, h.2.congr htail⟩

theorem insert (h : BackLinked prev p (ys ++ zs)) (hc : prev' c = some (ys.getLastD p))
    (hys : ∀ y ∈ ys, prev' y = prev y) (hhead : ∀ y ∈ zs.head?, prev' y = some c)
    (htail : ∀ y ∈ zs.tail, prev' y = prev y) : BackLinked prev' p (ys ++ c :: zs) := by
  obtain ⟨hleft, hright⟩ := append_iff.mp h
  exact append_iff.mpr ⟨hleft.congr hys, hc, hright.rehead hhead htail⟩

theorem cutSnoc (h : BackLinked prev p (ys ++ zs)) (hc : prev' c = some (ys.getLastD p))
    (hother : ∀ y ∈ ys, prev' y = prev y) : BackLinked prev' p (ys ++ [c]) :=
  append_iff.mpr ⟨(append_iff.mp h).1.congr hother, hc, trivial⟩

end BackLinked

end OsdevCourse
