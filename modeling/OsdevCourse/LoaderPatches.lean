import OsdevCourse.Loader
import Mathlib.Tactic.SplitIfs

/-!
# What a turn of the relocation loop patches

A turn reads its entry, and the symbol the entry uses, from memory as the turns before have
left it. It patches one word or ends the loop.
-/

namespace OsdevCourse.Loader

set_option autoImplicit false

open Elf

def relAddr (t : Tables) (j : Nat) : Nat := t.rel + j * Rel.size

def symAddr (t : Tables) (i : Nat) : Nat := t.sym + i * Sym.size

section Defs
variable (m : Memory) (t : Tables) (j : Nat) (s : State)

def relAt : Rel := Rel.read m (relAddr t j)

def symAt (i : Nat) : Sym := Sym.read m (symAddr t i)

/-- The relocation uses a symbol. -/
def Symbolic : Prop := (relAt m t j).type = R_386_32 ∨ (relAt m t j).type = R_386_PC32

/-- The address of the word that an entry is about. -/
def target : Nat := translateAddr s.segments (relAt s.mem t j).offset

/-- The address of the symbol that an entry uses. -/
def symbolAddr : Nat :=
  let sym := symAt s.mem t (relAt s.mem t j).sym
  if (relAt s.mem t j).type = R_386_PC32 ∧ sym.value = 0 then getAddr s (t.symName + sym.name)
  else translateAddr s.segments sym.value

/-- The entry is applied. -/
def Patches : Prop :=
  target t j s ≠ 0 ∧ ((relAt s.mem t j).type = R_386_RELATIVE ∨
    Symbolic s.mem t j ∧ (relAt s.mem t j).sym < t.symCount ∧ symbolAddr t j s ≠ 0)

/-- The value that the word gets. -/
def newWord : Nat :=
  if (relAt s.mem t j).type = R_386_32 then
    (load32 s.mem (target t j s) + symbolAddr t j s) % 2 ^ 32
  else if (relAt s.mem t j).type = R_386_PC32 then
    (symbolAddr t j s + 2 ^ 32 - (target t j s + 4) % 2 ^ 32) % 2 ^ 32
  else (load32 s.mem (target t j s) + getBase s.segments (relAt s.mem t j).offset) % 2 ^ 32

/-- The state after a turn that patches. -/
def patched : State := patch s (target t j s) (newWord t j s)

end Defs

variable {t : Tables} {j : Nat} {s : State}

instance (t : Tables) (j : Nat) (s : State) : Decidable (Patches t j s) :=
  inferInstanceAs (Decidable (_ ∧ (_ ∨ (_ ∨ _) ∧ _ ∧ _)))

theorem relocateEntry_abs (h : (relAt s.mem t j).type = R_386_32) : relocateEntry t j s =
    if t.symCount ≤ (relAt s.mem t j).sym then (s, false)
    else if target t j s = 0 then (s, false)
    else if symbolAddr t j s = 0 then (s, false)
    else (patched t j s, true) := by
  have haddr : symbolAddr t j s = translateAddr s.segments
      (symAt s.mem t (relAt s.mem t j).sym).value := by
    unfold symbolAddr
    rw [h]
    exact if_neg fun hpc => absurd hpc.1 (by decide)
  have hword : newWord t j s =
      (load32 s.mem (target t j s) + symbolAddr t j s) % 2 ^ 32 := if_pos h
  unfold patched
  rw [hword, haddr]
  exact if_pos h

theorem relocateEntry_pc (h : (relAt s.mem t j).type = R_386_PC32) : relocateEntry t j s =
    if t.symCount ≤ (relAt s.mem t j).sym then (s, false)
    else if target t j s = 0 then (s, false)
    else if symbolAddr t j s = 0 then (s, false)
    else (patched t j s, true) := by
  have hne : (relAt s.mem t j).type ≠ R_386_32 := by
    rw [h]
    decide
  have haddr : symbolAddr t j s = if (symAt s.mem t (relAt s.mem t j).sym).value ≠ 0 then
      translateAddr s.segments (symAt s.mem t (relAt s.mem t j).sym).value
      else getAddr s (t.symName + (symAt s.mem t (relAt s.mem t j).sym).name) := by
    unfold symbolAddr
    simp only [h, true_and, ne_eq, ite_not]
  have hword : newWord t j s =
      (symbolAddr t j s + 2 ^ 32 - (target t j s + 4) % 2 ^ 32) % 2 ^ 32 := by
    unfold newWord
    rw [if_neg hne, if_pos h]
  unfold patched
  rw [hword, haddr]
  exact (if_neg hne).trans (if_pos h)

theorem relocateEntry_relative (h : (relAt s.mem t j).type = R_386_RELATIVE) : relocateEntry t j s =
    if target t j s = 0 then (s, false) else (patched t j s, true) := by
  have h32 : (relAt s.mem t j).type ≠ R_386_32 := by
    rw [h]
    decide
  have hpc : (relAt s.mem t j).type ≠ R_386_PC32 := by
    rw [h]
    decide
  have hword : newWord t j s = (load32 s.mem (target t j s) +
      getBase s.segments (relAt s.mem t j).offset) % 2 ^ 32 := by
    unfold newWord
    rw [if_neg h32, if_neg hpc]
  unfold patched
  rw [hword]
  exact (if_neg h32).trans ((if_neg hpc).trans (if_pos h))

theorem Symbolic.not_relative {m : Memory} (h : Symbolic m t j) :
    (relAt m t j).type ≠ R_386_RELATIVE := by
  rcases h with heq | heq
  · rw [heq]
    decide
  · rw [heq]
    decide

theorem relocateEntry_eq (t : Tables) (j : Nat) (s : State) : relocateEntry t j s =
    if Patches t j s then (patched t j s, true) else (s, false) := by
  by_cases hsymbolic : Symbolic s.mem t j
  · have hrel := hsymbolic.not_relative
    have hentry : relocateEntry t j s =
        if t.symCount ≤ (relAt s.mem t j).sym then (s, false)
        else if target t j s = 0 then (s, false)
        else if symbolAddr t j s = 0 then (s, false)
        else (patched t j s, true) := by
      rcases hsymbolic with h | h
      · exact relocateEntry_abs h
      · exact relocateEntry_pc h
    rw [hentry]
    by_cases hpatch : Patches t j s
    · obtain ⟨_, hcount, haddr⟩ := hpatch.2.resolve_left hrel
      rw [if_pos hpatch, if_neg (Nat.not_le.mpr hcount), if_neg hpatch.1, if_neg haddr]
    · rw [if_neg hpatch]
      split_ifs with hcount htarget haddr
      · rfl
      · rfl
      · rfl
      · exact absurd ⟨htarget, Or.inr ⟨hsymbolic, Nat.not_le.mp hcount, haddr⟩⟩ hpatch
  · by_cases hrel : (relAt s.mem t j).type = R_386_RELATIVE
    · rw [relocateEntry_relative hrel]
      by_cases hpatch : Patches t j s
      · rw [if_pos hpatch, if_neg hpatch.1]
      · rw [if_neg hpatch]
        split_ifs with htarget
        · rfl
        · exact absurd ⟨htarget, Or.inl hrel⟩ hpatch
    · have hnone : ¬ Patches t j s := by
        rintro ⟨_, h | ⟨h, _⟩⟩
        · exact hrel h
        · exact hsymbolic h
      obtain ⟨h32, hpc⟩ := not_or.mp hsymbolic
      rw [if_neg hnone]
      exact (if_neg h32).trans ((if_neg hpc).trans (if_neg hrel))

theorem relocateEntry_cases (t : Tables) (j : Nat) (s : State) :
    relocateEntry t j s = (s, false) ∨
      ∃ v value, relocateEntry t j s = (patch s (translateAddr s.segments v) value, true) ∧
        v < 2 ^ 32 ∧ translateAddr s.segments v ≠ 0 := by
  rw [relocateEntry_eq]
  split
  · rename_i hpatch
    exact .inr ⟨(relAt s.mem t j).offset, newWord t j s, rfl, load32_lt, hpatch.1⟩
  · exact .inl rfl

end OsdevCourse.Loader
