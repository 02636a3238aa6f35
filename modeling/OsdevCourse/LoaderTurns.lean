import OsdevCourse.LoaderImage

/-!
# The turns of the relocation loop

A turn patches one word or ends the loop. `Turn t s j u`: the loop that began in the state `s`
comes to its turn `j`, in the state `u`.
-/

namespace OsdevCourse.Loader

set_option autoImplicit false

open Elf

inductive Turn (t : Tables) (s : State) : Nat → State → Prop where
  | start : Turn t s 0 s
  | next {j : Nat} {u : State} : Turn t s j u → Patches t j u → Turn t s (j + 1) (patched t j u)

variable {t : Tables} {s u v : State} {i j k count buffer : Nat} {ok : Bool}

/-! ### The states of the turns -/

namespace Turn

theorem succ (h : Turn t s (j + 1) v) : ∃ u, Turn t s j u ∧ Patches t j u ∧ v = patched t j u := by
  cases h with
  | next hturn hpatch => exact ⟨_, hturn, hpatch, rfl⟩

theorem unique (hu : Turn t s j u) (hv : Turn t s j v) : u = v := by
  induction hu generalizing v with
  | start =>
    cases hv with
    | start => rfl
  | next _ _ ih =>
    obtain ⟨w, hw, _, rfl⟩ := hv.succ
    rw [ih hw]

theorem earlier (h : Turn t s j u) (hi : i < j) : ∃ v, Turn t s i v ∧ Patches t i v := by
  induction h with
  | start => exact absurd hi (Nat.not_lt_zero i)
  | @next j u hturn hpatch ih =>
    rcases Nat.lt_succ_iff_lt_or_eq.mp hi with hi | rfl
    · exact ih hi
    · exact ⟨u, hturn, hpatch⟩

theorem same (h : Turn t s j u) : u.segments = s.segments ∧ u.symbols = s.symbols := by
  induction h with
  | start => exact ⟨rfl, rfl⟩
  | next _ _ ih => exact ih

theorem events (h : Turn t s j u) : ∃ es, u.events = s.events ++ es ∧
    ∀ e, e ∈ es ↔ ∃ i v, i < j ∧ Turn t s i v ∧ Patches t i v ∧ e = .patch (target t i v) := by
  induction h with
  | start =>
    refine ⟨[], (List.append_nil _).symm, fun e => ⟨fun he => absurd he List.not_mem_nil, ?_⟩⟩
    rintro ⟨i, _, hi, _⟩
    exact absurd hi (Nat.not_lt_zero i)
  | @next j u hturn hpatch ih =>
    obtain ⟨es, hes, hmem⟩ := ih
    refine ⟨es ++ [.patch (target t j u)], ?_, fun e => ?_⟩
    · rw [← List.append_assoc, ← hes]
      rfl
    · rw [List.mem_append, hmem, List.mem_singleton]
      constructor
      · rintro (⟨i, v, hi, hv⟩ | rfl)
        · exact ⟨i, v, Nat.lt_succ_of_lt hi, hv⟩
        · exact ⟨j, u, Nat.lt_succ_self j, hturn, hpatch, rfl⟩
      · rintro ⟨i, v, hi, hv, hrest⟩
        rcases Nat.lt_succ_iff_lt_or_eq.mp hi with hi | rfl
        · exact Or.inl ⟨i, v, hi, hv, hrest⟩
        · obtain rfl := hv.unique hturn
          exact Or.inr hrest.2

end Turn

/-- Where the loop ends: behind its last turn, or before one that does not patch. -/
theorem relocateEntries_turn (h : Turn t s j u) (hloop : relocateEntries t count j u = (v, ok)) :
    (ok = true ∧ Turn t s (j + count) v) ∨
      (ok = false ∧ ∃ k, k < j + count ∧ Turn t s k v ∧ ¬ Patches t k v) := by
  induction count generalizing j u with
  | zero =>
    obtain ⟨rfl, rfl⟩ := Prod.mk.inj hloop
    exact Or.inl ⟨rfl, h⟩
  | succ count ih =>
    rw [relocateEntries, relocateEntry_eq] at hloop
    by_cases hpatch : Patches t j u
    · rw [if_pos hpatch] at hloop
      have hrest := ih (h.next hpatch) hloop
      rwa [Nat.add_right_comm, Nat.add_assoc] at hrest
    · rw [if_neg hpatch] at hloop
      obtain ⟨rfl, rfl⟩ := Prod.mk.inj hloop
      exact Or.inr ⟨rfl, j, by omega, h, hpatch⟩

theorem relocate_turns (buffer : Nat) (s : State) : ∃ v,
    (relocate buffer s).1.mem = v.mem ∧ (relocate buffer s).1.segments = s.segments ∧
    (relocate buffer s).1.events = v.events ∧
    (((relocate buffer s).2 = true ∧
        Turn (sections s.mem buffer) s (sections s.mem buffer).relCount v ∧
        (relocate buffer s).1 = (List.range (sections s.mem buffer).symCount).foldl
          (extractSymbol (sections s.mem buffer)) v) ∨
      ((relocate buffer s).2 = false ∧ ∃ k, k < (sections s.mem buffer).relCount ∧
        Turn (sections s.mem buffer) s k v ∧ ¬ Patches (sections s.mem buffer) k v)) := by
  cases hloop : relocateEntries (sections s.mem buffer) (sections s.mem buffer).relCount 0 s with
  | mk v ok =>
    have hturn := relocateEntries_turn .start hloop
    rw [Nat.zero_add] at hturn
    unfold relocate
    simp only [hloop]
    rcases hturn with ⟨rfl, hturn⟩ | ⟨rfl, k, hk, hturn, hstop⟩
    · obtain ⟨hmem, hsegments⟩ := extractSymbols_same (sections s.mem buffer)
        (List.range (sections s.mem buffer).symCount) v
      exact ⟨v, hmem, hsegments.trans hturn.same.1, extractSymbol_events _ _ _,
        Or.inl ⟨rfl, hturn, rfl⟩⟩
    · exact ⟨v, rfl, hturn.same.1, rfl, Or.inr ⟨rfl, k, hk, hturn, hstop⟩⟩

/-- The words that `relocate` patches are the targets of the turns that patch. -/
theorem relocate_patches_iff (buffer : Nat) (s : State) (a : Nat) :
    Event.patch a ∈ (relocate buffer s).1.events.drop s.events.length ↔
      ∃ j u, j < (sections s.mem buffer).relCount ∧ Turn (sections s.mem buffer) s j u ∧
        Patches (sections s.mem buffer) j u ∧ a = target (sections s.mem buffer) j u := by
  obtain ⟨v, _, _, hevents, hend⟩ := relocate_turns buffer s
  rw [hevents]
  rcases hend with ⟨_, hturn, _⟩ | ⟨_, k, hk, hturn, hstop⟩
  · obtain ⟨es, hes, hmem⟩ := hturn.events
    rw [hes, List.drop_left, hmem]
    constructor
    · rintro ⟨j, u, hj, hu, hpatch, heq⟩
      exact ⟨j, u, hj, hu, hpatch, Event.patch.inj heq⟩
    · rintro ⟨j, u, hj, hu, hpatch, rfl⟩
      exact ⟨j, u, hj, hu, hpatch, rfl⟩
  · obtain ⟨es, hes, hmem⟩ := hturn.events
    rw [hes, List.drop_left, hmem]
    constructor
    · rintro ⟨j, u, hj, hu, hpatch, heq⟩
      exact ⟨j, u, Nat.lt_trans hj hk, hu, hpatch, Event.patch.inj heq⟩
    · rintro ⟨j, u, _, hu, hpatch, rfl⟩
      refine ⟨j, u, ?_, hu, hpatch, rfl⟩
      -- the loop has not gone past the turn that ended it
      by_contra hge
      rcases Nat.eq_or_lt_of_le (Nat.not_lt.mp hge) with rfl | hlt
      · exact hstop (hturn.unique hu ▸ hpatch)
      · obtain ⟨w, hw, hpatch'⟩ := hu.earlier hlt
        exact hstop (hturn.unique hw ▸ hpatch')

end OsdevCourse.Loader
