import OsdevCourse.LoaderBounds

/-!
# The arithmetic of relocations

The three formulas of the ELF386 psABI for the addend `A` that is stored at the place `P`, a
symbol at `S` and a load bias `B`. `relocate` adds to the addend in two kinds of entries. In
the third one, `R_386_PC32`, it puts `S - P - 4` in its place, which is right for the addend
`-4` that a call instruction is compiled with.
-/

namespace OsdevCourse.Loader

set_option autoImplicit false

open Elf

/-- The words at the two addresses have no byte in common. -/
def WordsApart (a b : Nat) : Prop := ∀ i, i < 4 → ∀ k, k < 4 → (a + i) % 2 ^ 32 ≠ (b + k) % 2 ^ 32

/-- The value that the formula of an entry gives for the addend: `S + A`, `S + A - P` or `B + A`. -/
def formula (t : Tables) (j : Nat) (s : State) (addend : Nat) : Nat :=
  if (relAt s.mem t j).type = R_386_32 then (symbolAddr t j s + addend) % 2 ^ 32
  else if (relAt s.mem t j).type = R_386_PC32 then
    (symbolAddr t j s + addend + 2 ^ 32 - target t j s) % 2 ^ 32
  else (getBase s.segments (relAt s.mem t j).offset + addend) % 2 ^ 32

/-- Each target holds the value of its formula, and no other byte has changed. -/
structure FollowsFormulas (buffer : Nat) (s : State) : Prop where
  words : ∀ j u, j < (sections s.mem buffer).relCount → Turn (sections s.mem buffer) s j u →
    load32 (relocate buffer s).1.mem (target (sections s.mem buffer) j u) =
      formula (sections s.mem buffer) j u
        (load32 s.mem (target (sections s.mem buffer) j u))
  rest : ∀ x, (∀ j u, j < (sections s.mem buffer).relCount → Turn (sections s.mem buffer) s j u →
    ∀ k, k < 4 → x ≠ (target (sections s.mem buffer) j u + k) % 2 ^ 32) →
    (relocate buffer s).1.mem x = s.mem x

/-- No two entries are about overlapping words. -/
def TargetsApart (buffer : Nat) (s : State) : Prop :=
  ∀ i j u v, i < j → j < (sections s.mem buffer).relCount → Turn (sections s.mem buffer) s i u →
    Turn (sections s.mem buffer) s j v →
    WordsApart (target (sections s.mem buffer) i u) (target (sections s.mem buffer) j v)

variable {t : Tables} {s u v : State} {i j k a b n x value buffer : Nat} {m : Memory}

theorem WordsApart.symm (h : WordsApart a b) : WordsApart b a :=
  fun i hi k hk heq => h k hk i hi heq.symm

theorem load32_store32_apart (h : WordsApart a b) :
    load32 (store32 m a value) b = load32 m b := by
  have hsame : SameOn (fun x => ∃ k, k < 4 ∧ x = (b + k) % 2 ^ 32) m (store32 m a value) := by
    apply store32_sameOn
    rintro i hi ⟨k, hk, heq⟩
    exact h i hi k hk heq
  exact load32_congr hsame fun k hk => ⟨k, hk, rfl⟩

theorem newWord_lt : newWord t j s < 2 ^ 32 := by
  unfold newWord
  split_ifs
  · exact Nat.mod_lt _ (by omega)
  · exact Nat.mod_lt _ (by omega)
  · exact Nat.mod_lt _ (by omega)

theorem target_lt : target t j s < 2 ^ 32 := by
  unfold target translateAddr
  split
  · exact Nat.mod_lt _ (by omega)
  · omega

namespace Turn

/-- The turns before have changed their targets only. -/
theorem untouched (h : Turn t s j u)
    (hx : ∀ i w, i < j → Turn t s i w → ∀ k, k < 4 → x ≠ (target t i w + k) % 2 ^ 32) :
    u.mem x = s.mem x := by
  induction h with
  | start => rfl
  | @next j u hturn hpatch ih =>
    have hstore : SameOn (fun y => y = x) u.mem (patched t j u).mem := by
      apply store32_sameOn
      intro k hk heq
      exact hx j u (Nat.lt_succ_self j) hturn k hk heq.symm
    exact (hstore x rfl).trans (ih fun i w hi hw => hx i w (Nat.lt_succ_of_lt hi) hw)

theorem load32_untouched (h : Turn t s j u)
    (hapart : ∀ i w, i < j → Turn t s i w → WordsApart (target t i w) a) :
    load32 u.mem a = load32 s.mem a := by
  have hsame : SameOn (fun x => ∃ k, k < 4 ∧ x = (a + k) % 2 ^ 32) s.mem u.mem := by
    rintro x ⟨k, hk, rfl⟩
    apply h.untouched
    intro i w hi hw l hl heq
    exact hapart i w hi hw l hl k hk heq.symm
  exact load32_congr hsame fun k hk => ⟨k, hk, rfl⟩

theorem load32_target (h : Turn t s n v)
    (hapart : ∀ i j u w, i < j → j < n → Turn t s i u → Turn t s j w →
      WordsApart (target t i u) (target t j w))
    (hj : j < n) (hu : Turn t s j u) : load32 v.mem (target t j u) = newWord t j u := by
  induction h with
  | start => exact absurd hj (Nat.not_lt_zero j)
  | @next n w hw hpatch ih =>
    rcases Nat.lt_succ_iff_lt_or_eq.mp hj with hlt | rfl
    · have hkeep : load32 (patched t n w).mem (target t j u) = load32 w.mem (target t j u) :=
        load32_store32_apart (hapart j n u w hlt (Nat.lt_succ_self n) hu hw).symm
      rw [hkeep]
      exact ih (fun i k u w hik hk => hapart i k u w hik (Nat.lt_succ_of_lt hk)) hlt
    · obtain rfl := hw.unique hu
      exact load32_store32 newWord_lt

end Turn

theorem newWord_eq_formula_iff :
    newWord t j s = formula t j s (load32 s.mem (target t j s)) ↔
      ((relAt s.mem t j).type = R_386_PC32 → load32 s.mem (target t j s) = 2 ^ 32 - 4) := by
  have hword : load32 s.mem (target t j s) < 2 ^ 32 := load32_lt
  have htarget : target t j s < 2 ^ 32 := target_lt
  unfold newWord formula
  by_cases h32 : (relAt s.mem t j).type = R_386_32
  · rw [if_pos h32, if_pos h32, Nat.add_comm]
    refine iff_of_true rfl fun hpc => ?_
    exact absurd (h32.symm.trans hpc) (by decide)
  · rw [if_neg h32, if_neg h32]
    by_cases hpc : (relAt s.mem t j).type = R_386_PC32
    · rw [if_pos hpc, if_pos hpc]
      constructor
      · intro heq _
        omega
      · intro haddend
        have hminus := haddend hpc
        omega
    · rw [if_neg hpc, if_neg hpc, Nat.add_comm]
      exact iff_of_true rfl fun h => absurd h hpc

/-- A turn of a loop that goes to its end: the addend is what was stored at first, and what the
turn has written stays. -/
theorem turn_of_done (hdone : (relocate buffer s).2 = true) (hapart : TargetsApart buffer s)
    (hj : j < (sections s.mem buffer).relCount) (hu : Turn (sections s.mem buffer) s j u) :
    load32 u.mem (target (sections s.mem buffer) j u) =
        load32 s.mem (target (sections s.mem buffer) j u) ∧
      load32 (relocate buffer s).1.mem (target (sections s.mem buffer) j u) =
        newWord (sections s.mem buffer) j u := by
  obtain ⟨v, hmem, _, _, hend⟩ := relocate_turns buffer s
  rcases hend with ⟨_, hv, _⟩ | ⟨hstop, _⟩
  · rw [hmem]
    refine ⟨hu.load32_untouched fun i w hi hw => ?_, hv.load32_target hapart hj hu⟩
    exact hapart i j w u hi hj hw hu
  · rw [hdone] at hstop
    exact absurd hstop (by decide)

theorem relocate_rest (buffer : Nat) (s : State)
    (hx : ∀ j u, j < (sections s.mem buffer).relCount → Turn (sections s.mem buffer) s j u →
      ∀ k, k < 4 → x ≠ (target (sections s.mem buffer) j u + k) % 2 ^ 32) :
    (relocate buffer s).1.mem x = s.mem x := by
  obtain ⟨v, hmem, _, _, hend⟩ := relocate_turns buffer s
  rw [hmem]
  rcases hend with ⟨_, hv, _⟩ | ⟨_, k, hk, hv, _⟩
  · exact hv.untouched hx
  · exact hv.untouched fun i w hi hw => hx i w (Nat.lt_trans hi hk) hw

/-- For entries about separate words the formulas are followed exactly when each word of an entry
`R_386_PC32` holds `-4` before. -/
theorem formulas_followed_iff (buffer : Nat) (s : State) (hdone : (relocate buffer s).2 = true)
    (hapart : TargetsApart buffer s) : FollowsFormulas buffer s ↔
      ∀ j u, j < (sections s.mem buffer).relCount → Turn (sections s.mem buffer) s j u →
        (relAt u.mem (sections s.mem buffer) j).type = R_386_PC32 →
        load32 s.mem (target (sections s.mem buffer) j u) = 2 ^ 32 - 4 := by
  constructor
  · intro h j u hj hu
    obtain ⟨haddend, hword⟩ := turn_of_done hdone hapart hj hu
    have hformula := h.words j u hj hu
    rw [hword, ← haddend] at hformula
    rw [← haddend]
    exact newWord_eq_formula_iff.mp hformula
  · intro hminus
    refine ⟨fun j u hj hu => ?_, fun x hx => relocate_rest buffer s hx⟩
    obtain ⟨haddend, hword⟩ := turn_of_done hdone hapart hj hu
    have hpc := hminus j u hj hu
    rw [← haddend] at hpc
    rw [hword, ← haddend]
    exact newWord_eq_formula_iff.mpr hpc

theorem targetsApart_of_one (hcount : (sections s.mem buffer).relCount ≤ 1) :
    TargetsApart buffer s := by
  intro i j u v hij hj
  omega

/-- A symbol, and an entry of each kind for the first words of the page. -/
def callElf : List UInt8 :=
  sectionedElf 2 ++ shdrBytes SHT_SYNSYM 132 16 0 ++ shdrBytes SHT_REL 148 24 0 ++
  [0, 0x08048010, 0, 0, 0x08048000, R_386_PC32, 0x08048004, R_386_32, 0x08048008,
    R_386_RELATIVE].flatMap Memory.wordBytes

/-- The addends are `-4`, 2 and 5. -/
def callState : State :=
  { sectionedState callElf with
    mem := store32 (store32 (store32 (sectionedState callElf).mem 0x08048000 (2 ^ 32 - 4))
      0x08048004 2) 0x08048008 5 }

theorem callState_target {j : Nat} {u : State}
    (hu : Turn (sections callState.mem 0xF2000010) callState j u) (hj : j < 3) :
    target (sections callState.mem 0xF2000010) j u = 0x08048000 + 4 * j ∧
      ((relAt u.mem (sections callState.mem 0xF2000010) j).type = R_386_PC32 → j = 0) := by
  match j with
  | 0 =>
    rw [hu.unique .start]
    decide +kernel
  | 1 =>
    obtain ⟨v, hv, _, rfl⟩ := hu.succ
    rw [hv.unique .start]
    decide +kernel
  | 2 =>
    obtain ⟨v, hv, _, rfl⟩ := hu.succ
    obtain ⟨w, hw, _, rfl⟩ := hv.succ
    rw [hw.unique .start]
    decide +kernel

theorem formulas_followed_iff_call : FollowsFormulas 0xF2000010 callState := by
  have hcount : (sections callState.mem 0xF2000010).relCount = 3 := by decide +kernel
  have hapart : TargetsApart 0xF2000010 callState := by
    intro i j u v hij hj hu hv l hl k hk
    rw [hcount] at hj
    rw [(callState_target hu (by omega)).1, (callState_target hv hj).1]
    omega
  refine (formulas_followed_iff _ _ (by decide +kernel) hapart).mpr ?_
  intro j u hj hu hpc
  rw [hcount] at hj
  obtain ⟨htarget, hfirst⟩ := callState_target hu hj
  rw [htarget, hfirst hpc]
  decide +kernel

/-- A symbol at the start of the page and a relocation `R_386_PC32` of the word there. -/
def pcElf : List UInt8 :=
  sectionedElf 2 ++ shdrBytes SHT_SYNSYM 132 16 0 ++ shdrBytes SHT_REL 148 8 0 ++
  [0, 0x08048000, 0, 0, 0x08048000, R_386_PC32].flatMap Memory.wordBytes

/-- The addend is 0, the word becomes `-4`. -/
theorem pc_addend_ignored : ¬ ∀ (buffer : Nat) (s : State), (relocate buffer s).2 = true →
    TargetsApart buffer s → FollowsFormulas buffer s := by
  intro hclaim
  have hcount : (sections (sectionedState pcElf).mem 0xF2000010).relCount = 1 := by decide +kernel
  have hfollows := hclaim 0xF2000010 (sectionedState pcElf) (by decide +kernel)
    (targetsApart_of_one (Nat.le_of_eq hcount))
  have hword := hfollows.words 0 _ (by omega) .start
  exact absurd hword (by decide +kernel)

end OsdevCourse.Loader
