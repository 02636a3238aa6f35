import Mathlib
import OsdevCourse.Vfs
import OsdevCourse.Loader

/-!
# The order of `kstrcmp` and `kstrncmp`

At the end of the loop `kstrcmp` returns -1 when the first string goes on and 1 when the second
one does. So the NUL at the end of a string counts as larger than every character, and the
comparison is the lexicographic one of the strings with that end. It is an order, and it is the
usual one wherever neither string is the beginning of the other.
-/

namespace OsdevCourse.StringOrder

set_option autoImplicit false

open Memory
open Tarfs (char char_eq_iff)
open Vfs (kstrncmp)

/-- The loop of `kstrcmp`. There is no result when no string ends within the fuel. -/
def kstrcmp (ma mb : Memory) : Nat → Nat → Nat → Option Int
  | 0, _, _ => none
  | fuel + 1, a, b =>
    if ma a ≠ 0 ∧ mb b ≠ 0 then
      let d := char (ma a) - char (mb b)
      if d ≠ 0 then some d else kstrcmp ma mb fuel (a + 1) (b + 1)
    else if ma a ≠ 0 then some (-1)
    else if mb b ≠ 0 then some 1
    else some 0

/-- A string in a memory, with the characters it has. -/
structure NulString where
  mem : Memory
  addr : Nat
  chars : List UInt8
  ends : CStr mem addr chars

namespace NulString

/-- The values of the characters, which are signed. -/
def signed (a : NulString) : List Int := a.chars.map char

/-- What `kstrcmp` returns for two strings, whatever fuel is enough to reach an end. -/
def Returns (a b : NulString) (r : Int) : Prop :=
  ∀ fuel, a.chars.length < fuel → kstrcmp a.mem b.mem fuel a.addr b.addr = some r

end NulString

/-! The comparison of the characters. -/

def compareChars : List UInt8 → List UInt8 → Int
  | [], [] => 0
  | [], _ :: _ => 1
  | _ :: _, [] => -1
  | c :: cs, d :: ds => if char c - char d ≠ 0 then char c - char d else compareChars cs ds

/-- The values of the characters with a NUL that is larger than all of them. -/
def ended (cs : List UInt8) : List (WithTop Int) := cs.map (fun c => (char c : WithTop Int)) ++ [⊤]

section Loops
variable {ma mb : Memory} {a b : Nat} {cs ds : List UInt8}

theorem kstrcmp_eq {fuel : Nat} (ha : CStr ma a cs) (hb : CStr mb b ds) (hfuel : cs.length < fuel) :
    kstrcmp ma mb fuel a b = some (compareChars cs ds) := by
  induction fuel generalizing a b cs ds with
  | zero => omega
  | succ fuel ih =>
    rw [kstrcmp]
    cases cs with
    | nil =>
      have hnul := CStr.nil_iff.mp ha
      cases ds with
      | nil => simp [hnul, CStr.nil_iff.mp hb, compareChars]
      | cons d ds =>
        obtain ⟨hd, hne, _⟩ := CStr.cons_iff.mp hb
        simp [hnul, hd, hne, compareChars]
    | cons c cs =>
      obtain ⟨hc, hcne, hctail⟩ := CStr.cons_iff.mp ha
      cases ds with
      | nil => simp [hc, hcne, CStr.nil_iff.mp hb, compareChars]
      | cons d ds =>
        obtain ⟨hd, hdne, hdtail⟩ := CStr.cons_iff.mp hb
        have hshort : cs.length < fuel := by
          rw [List.length_cons] at hfuel
          omega
        rw [hc, hd, if_pos ⟨hcne, hdne⟩, compareChars]
        by_cases hdiff : char c - char d ≠ 0
        · simp only [if_pos hdiff]
        · simp only [if_neg hdiff]
          exact ih hctail hdtail hshort

theorem kstrncmp_eq {n : Nat} (ha : CStr ma a cs) (hb : CStr mb b ds) :
    kstrncmp ma a mb b n = compareChars (cs.take n) (ds.take n) := by
  induction n generalizing a b cs ds with
  | zero => simp [kstrncmp, compareChars]
  | succ n ih =>
    rw [kstrncmp]
    cases cs with
    | nil =>
      have hnul := CStr.nil_iff.mp ha
      cases ds with
      | nil => simp [hnul, CStr.nil_iff.mp hb, compareChars]
      | cons d ds =>
        obtain ⟨hd, hne, _⟩ := CStr.cons_iff.mp hb
        simp [hnul, hd, hne, compareChars]
    | cons c cs =>
      obtain ⟨hc, hcne, hctail⟩ := CStr.cons_iff.mp ha
      cases ds with
      | nil => simp [hc, hcne, CStr.nil_iff.mp hb, compareChars]
      | cons d ds =>
        obtain ⟨hd, hdne, hdtail⟩ := CStr.cons_iff.mp hb
        rw [hc, hd, if_pos ⟨hcne, hdne⟩, List.take_succ_cons, List.take_succ_cons, compareChars]
        by_cases hdiff : char c - char d ≠ 0
        · simp only [if_pos hdiff]
        · simp only [if_neg hdiff]
          exact ih hctail hdtail

theorem tarfs_kstrcmp_eq (ha : CStr ma a cs) : Tarfs.kstrcmp ma a ds = compareChars cs ds := by
  induction ds generalizing a cs with
  | nil =>
    cases cs with
    | nil => simp [Tarfs.kstrcmp, CStr.nil_iff.mp ha, compareChars]
    | cons c cs =>
      obtain ⟨hc, hne, _⟩ := CStr.cons_iff.mp ha
      simp [Tarfs.kstrcmp, hc, hne, compareChars]
  | cons d ds ih =>
    rw [Tarfs.kstrcmp]
    cases cs with
    | nil => simp [CStr.nil_iff.mp ha, compareChars]
    | cons c cs =>
      obtain ⟨hc, hne, htail⟩ := CStr.cons_iff.mp ha
      rw [hc, if_neg hne, compareChars, ih htail]

theorem loader_kstrcmp_iff {m : Memory} {fuel : Nat} : Loader.kstrcmp m fuel a b = true ↔
    kstrcmp (fun n => m (n % 2 ^ 32)) (fun n => m (n % 2 ^ 32)) fuel a b = some 0 := by
  induction fuel generalizing a b with
  | zero => simp [Loader.kstrcmp, kstrcmp]
  | succ fuel ih =>
    have hdiff := char_eq_iff (b := Elf.load8 m a) (c := Elf.load8 m b)
    rw [Loader.kstrcmp, kstrcmp]
    change _ ↔ (if Elf.load8 m a ≠ 0 ∧ Elf.load8 m b ≠ 0 then
      let d := char (Elf.load8 m a) - char (Elf.load8 m b)
      if d ≠ 0 then some d else kstrcmp _ _ fuel (a + 1) (b + 1)
      else if Elf.load8 m a ≠ 0 then some (-1) else if Elf.load8 m b ≠ 0 then some 1 else some 0) =
        some (0 : Int)
    by_cases hboth : Elf.load8 m a ≠ 0 ∧ Elf.load8 m b ≠ 0
    · rw [if_pos hboth, if_pos hboth]
      by_cases heq : Elf.load8 m a = Elf.load8 m b
      · rw [if_pos heq]
        simp only [ne_eq, hdiff.mpr heq, not_true_eq_false, if_false]
        exact ih
      · have hne : char (Elf.load8 m a) - char (Elf.load8 m b) ≠ 0 := fun h => heq (hdiff.mp h)
        rw [if_neg heq]
        simp [hne]
    · rw [if_neg hboth, if_neg hboth]
      by_cases ha : Elf.load8 m a = 0 <;> by_cases hb : Elf.load8 m b = 0 <;> simp [ha, hb]

end Loops

/-! The order of the characters. -/

section Order
variable {cs ds es : List UInt8}

theorem compareChars_neg_iff : compareChars cs ds < 0 ↔ ended cs < ended ds := by
  induction cs generalizing ds with
  | nil =>
    cases ds with
    | nil => simp [compareChars]
    | cons d ds => simp [compareChars, ended, List.cons_lt_cons_iff]
  | cons c cs ih =>
    cases ds with
    | nil => simp [compareChars, ended, List.cons_lt_cons_iff, WithTop.coe_lt_top]
    | cons d ds =>
      have hstep : ended (c :: cs) < ended (d :: ds) ↔
          char c < char d ∨ char c = char d ∧ ended cs < ended ds := by
        simp [ended, List.cons_lt_cons_iff]
      rw [hstep, ← ih, compareChars]
      by_cases hdiff : char c - char d ≠ 0
      · rw [if_pos hdiff]
        omega
      · rw [if_neg hdiff]
        omega

theorem compareChars_swap : (compareChars ds cs).sign = -(compareChars cs ds).sign := by
  induction cs generalizing ds with
  | nil => cases ds <;> simp [compareChars]
  | cons c cs ih =>
    cases ds with
    | nil => simp [compareChars]
    | cons d ds =>
      rw [compareChars, compareChars]
      by_cases hdiff : char c - char d ≠ 0
      · have hdiff' : char d - char c ≠ 0 := by omega
        rw [if_pos hdiff, if_pos hdiff', ← Int.sign_neg]
        apply congrArg
        omega
      · have hdiff' : ¬char d - char c ≠ 0 := by omega
        rw [if_neg hdiff, if_neg hdiff']
        exact ih

theorem compareChars_pos_iff : 0 < compareChars cs ds ↔ ended ds < ended cs := by
  have hswap : (compareChars ds cs).sign = -(compareChars cs ds).sign := compareChars_swap
  rw [← compareChars_neg_iff, ← Int.sign_eq_one_iff_pos, ← Int.sign_eq_neg_one_iff_neg]
  omega

theorem compareChars_eq_zero_iff : compareChars cs ds = 0 ↔ cs = ds := by
  induction cs generalizing ds with
  | nil => cases ds <;> simp [compareChars]
  | cons c cs ih =>
    cases ds with
    | nil => simp [compareChars]
    | cons d ds =>
      rw [compareChars, List.cons.injEq, ← ih, ← char_eq_iff]
      by_cases hdiff : char c - char d ≠ 0
      · rw [if_pos hdiff]
        exact ⟨fun h => absurd h hdiff, fun h => absurd h.1 hdiff⟩
      · rw [if_neg hdiff]
        exact ⟨fun h => ⟨not_not.mp hdiff, h⟩, fun h => h.2⟩

theorem compareChars_le_trans (hcd : compareChars cs ds ≤ 0) (hde : compareChars ds es ≤ 0) :
    compareChars cs es ≤ 0 := by
  rw [← not_lt, compareChars_pos_iff, not_lt] at hcd hde ⊢
  exact hcd.trans hde

def ProperPrefix (cs ds : List UInt8) : Prop := cs <+: ds ∧ cs ≠ ds

theorem properPrefix_cons_iff {c d : UInt8} :
    ProperPrefix (c :: cs) (d :: ds) ↔ c = d ∧ ProperPrefix cs ds := by
  rw [ProperPrefix, ProperPrefix, List.cons_prefix_cons, ne_eq, ne_eq, List.cons.injEq]
  tauto

/-- The two orders differ where one string is a proper prefix of the other, and only there. -/
theorem ended_lt_iff : (ended cs < ended ds ↔ cs.map char < ds.map char) ↔
    ¬ProperPrefix cs ds ∧ ¬ProperPrefix ds cs := by
  induction cs generalizing ds with
  | nil =>
    cases ds with
    | nil => simp [ProperPrefix]
    | cons d ds => simp [ProperPrefix, ended, List.cons_lt_cons_iff]
  | cons c cs ih =>
    cases ds with
    | nil => simp [ProperPrefix, ended, List.cons_lt_cons_iff, WithTop.coe_lt_top]
    | cons d ds =>
      have hstep : ended (c :: cs) < ended (d :: ds) ↔
          char c < char d ∨ char c = char d ∧ ended cs < ended ds := by
        simp [ended, List.cons_lt_cons_iff]
      have hstep' : (c :: cs).map char < (d :: ds).map char ↔
          char c < char d ∨ char c = char d ∧ cs.map char < ds.map char := by
        simp [List.cons_lt_cons_iff]
      rw [hstep, hstep', properPrefix_cons_iff, properPrefix_cons_iff]
      have hchar : char c = char d ↔ c = d := by
        rw [← char_eq_iff, Int.sub_eq_zero]
      by_cases hcd : c = d
      · subst hcd
        simp only [lt_irrefl, false_or, true_and]
        exact ih
      · have hne : char c ≠ char d := fun h => hcd (hchar.mp h)
        have hdc : d ≠ c := fun h => hcd h.symm
        simp [hcd, hdc, hne]

end Order

/-! The comparisons as an ordering of strings. -/

namespace NulString
variable {a b c : NulString} {n : Nat}

theorem returns_iff {r : Int} : a.Returns b r ↔ r = compareChars a.chars b.chars := by
  constructor
  · intro h
    have hval := h (a.chars.length + 1) (Nat.lt_succ_self _)
    rw [kstrcmp_eq a.ends b.ends (Nat.lt_succ_self _)] at hval
    exact (Option.some.inj hval).symm
  · intro h fuel hfuel
    rw [h]
    exact kstrcmp_eq a.ends b.ends hfuel

/-- What an ordering of strings asks of `kstrcmp` and `kstrncmp` at three strings and a count.
The order of the signed characters has a proper prefix before its extensions. -/
structure Ordered (a b c : NulString) (n : Nat) : Prop where
  returns : ∃ r, a.Returns b r
  zero : a.Returns b 0 ↔ a.chars = b.chars
  negative : ∀ r, a.Returns b r → (r < 0 ↔ a.signed < b.signed)
  positive : ∀ r, a.Returns b r → (0 < r ↔ b.signed < a.signed)
  antisymm : ∀ r s, a.Returns b r → b.Returns a s → s.sign = -r.sign
  trans : ∀ r s t, a.Returns b r → b.Returns c s → a.Returns c t → r ≤ 0 → s ≤ 0 → t ≤ 0
  first : ∀ x y : NulString, x.chars = a.chars.take n → y.chars = b.chars.take n →
    ∀ r, x.Returns y r → (kstrncmp a.mem a.addr b.mem b.addr n).sign = r.sign

/-- The comparisons are an ordering at the strings of which neither is a proper prefix of the
other, and at no others. -/
theorem kstrcmp_ordered_iff (a b c : NulString) (n : Nat) :
    Ordered a b c n ↔ ¬ProperPrefix a.chars b.chars ∧ ¬ProperPrefix b.chars a.chars := by
  constructor
  · intro h
    have hneg := h.negative _ (returns_iff.mpr rfl)
    rw [compareChars_neg_iff] at hneg
    exact ended_lt_iff.mp hneg
  · intro h
    refine ⟨⟨_, returns_iff.mpr rfl⟩, ?_, ?_, ?_, ?_, ?_, ?_⟩
    · rw [returns_iff, eq_comm, compareChars_eq_zero_iff]
    · intro r hr
      rw [returns_iff.mp hr, compareChars_neg_iff]
      exact ended_lt_iff.mpr h
    · intro r hr
      rw [returns_iff.mp hr, compareChars_pos_iff]
      exact ended_lt_iff.mpr h.symm
    · intro r s hr hs
      rw [returns_iff.mp hr, returns_iff.mp hs]
      exact compareChars_swap
    · intro r s t hr hs ht
      rw [returns_iff.mp hr, returns_iff.mp hs, returns_iff.mp ht]
      exact compareChars_le_trans
    · intro x y hx hy r hr
      rw [returns_iff.mp hr, hx, hy, kstrncmp_eq a.ends b.ends]

/-- The empty string and one character. -/
def short : NulString := ⟨fun _ => 0, 0, [], CStr.nil_iff.mpr rfl⟩

def long : NulString :=
  ⟨fun x => if x = 0 then 97 else 0, 0, [97], CStr.cons_iff.mpr
    ⟨rfl, by decide, CStr.nil_iff.mpr rfl⟩⟩

/-- `kstrcmp("", "a")` is 1. -/
theorem short_after_long : short.Returns long 1 ∧ short.signed < long.signed ∧
    ¬∀ (a b c : NulString) (n : Nat), Ordered a b c n := by
  have hreturns : short.Returns long 1 := returns_iff.mpr (by simp [short, long, compareChars])
  have hbefore : short.signed < long.signed := by simp [NulString.signed, short, long]
  refine ⟨hreturns, hbefore, fun h => ?_⟩
  have hneg := ((h short long short 0).negative 1 hreturns).mpr hbefore
  omega

end NulString

end OsdevCourse.StringOrder
