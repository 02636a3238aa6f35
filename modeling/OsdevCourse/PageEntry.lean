import Mathlib.Data.BitVec
import Mathlib.Tactic.Common

/-!
# Page table entries

A 32-bit entry is the address of a 4 KiB frame, whose low twelve bits are zero, with
flags in those bits. Bit 0 says that the entry is present.
-/

namespace OsdevCourse

set_option autoImplicit false

abbrev Word := BitVec 32

namespace PageEntry

def frameOf (e : Word) : Word := e &&& 0xFFFFF000#32

def present (e : Word) : Bool := (e &&& 1#32) != 0#32

/-- The low twelve bits of a frame's address are zero. -/
def IsFrame (f : Word) : Prop := frameOf f = f

/-- A word of flags has no bit of an address. -/
def IsFlags (b : Word) : Prop := frameOf b = 0#32

instance (f : Word) : Decidable (IsFrame f) := inferInstanceAs (Decidable (_ = _))
instance (b : Word) : Decidable (IsFlags b) := inferInstanceAs (Decidable (_ = _))

theorem frameOf_or (a b : Word) : frameOf (a ||| b) = frameOf a ||| frameOf b := by
  unfold frameOf
  exact BitVec.and_or_distrib_right

theorem frameOf_and (a b : Word) : frameOf (a &&& b) = a &&& frameOf b := by
  unfold frameOf
  exact BitVec.and_assoc a b _

theorem isFrame_frameOf (e : Word) : IsFrame (frameOf e) := by
  unfold IsFrame
  rw [frameOf, frameOf, BitVec.and_assoc, BitVec.and_self]

theorem IsFlags.or {a b : Word} (ha : IsFlags a) (hb : IsFlags b) : IsFlags (a ||| b) := by
  unfold IsFlags at *
  rw [frameOf_or, ha, hb, BitVec.or_self]

theorem IsFlags.and {b : Word} (a : Word) (hb : IsFlags b) : IsFlags (a &&& b) := by
  unfold IsFlags at *
  rw [frameOf_and, hb, BitVec.and_zero]

theorem frameOf_or_flags {f b : Word} (hf : IsFrame f) (hb : IsFlags b) :
    frameOf (f ||| b) = f := by
  rw [frameOf_or, hf, hb, BitVec.or_zero]

theorem present_iff_getLsbD (e : Word) : present e = e.getLsbD 0 := by
  unfold present
  cases h : e.getLsbD 0 with
  | false =>
    have hzero : e &&& 1#32 = 0#32 := by
      apply BitVec.eq_of_getLsbD_eq
      intro i hi
      rw [BitVec.getLsbD_and, BitVec.getLsbD_one, BitVec.getLsbD_zero]
      cases i with
      | zero => rw [h, Bool.false_and]
      | succ j => simp
    rw [hzero]
    decide
  | true =>
    have hone : (e &&& 1#32).getLsbD 0 = true := by
      rw [BitVec.getLsbD_and, h]
      decide
    rw [bne_iff_ne]
    intro hzero
    rw [hzero] at hone
    exact absurd hone (by decide)

theorem present_or (a b : Word) : present (a ||| b) = (present a || present b) := by
  simp only [present_iff_getLsbD, BitVec.getLsbD_or]

theorem present_and (a b : Word) : present (a &&& b) = (present a && present b) := by
  simp only [present_iff_getLsbD, BitVec.getLsbD_and]

theorem not_present_zero : present 0#32 = false := by
  decide

theorem frameOf_and_not {b : Word} (e : Word) (hb : IsFlags b) :
    frameOf (e &&& ~~~b) = frameOf e := by
  unfold IsFlags frameOf at *
  apply BitVec.eq_of_getLsbD_eq
  intro i hi
  have hbit := congrArg (fun w => BitVec.getLsbD w i) hb
  simp only [BitVec.getLsbD_and, BitVec.getLsbD_zero] at hbit
  simp only [BitVec.getLsbD_and, BitVec.getLsbD_not, hi, decide_true, Bool.true_and]
  cases hmask : (0xFFFFF000#32).getLsbD i with
  | false => simp
  | true =>
    rw [hmask, Bool.and_true] at hbit
    simp [hbit]

theorem isFrame_and_flags {f b : Word} (hf : IsFrame f) (hb : IsFlags b) : f &&& b = 0#32 := by
  unfold IsFrame IsFlags frameOf at *
  rw [← hf, BitVec.and_assoc, BitVec.and_comm _ b, hb, BitVec.and_zero]

theorem isFrame_iff {f : Word} : IsFrame f ↔ f.toNat % 4096 = 0 := by
  have hmask : (0xFFFFF000#32).toNat = (2 ^ 20 - 1) * 2 ^ 12 := rfl
  have hlow : f.toNat % 4096 = f.toNat &&& 0xFFF := (Nat.and_two_pow_sub_one_eq_mod f.toNat 12).symm
  constructor
  · intro hf
    rw [hlow]
    have hzero := congrArg BitVec.toNat
      (isFrame_and_flags hf (show IsFlags 0xFFF#32 from by decide))
    rw [BitVec.toNat_and] at hzero
    exact hzero
  · intro hzero
    apply BitVec.eq_of_toNat_eq
    unfold frameOf
    apply Nat.eq_of_testBit_eq
    intro i
    have hbit := f.isLt
    rw [BitVec.toNat_and, Nat.testBit_and, hmask, Nat.testBit_mul_two_pow,
      Nat.testBit_two_pow_sub_one]
    cases Nat.decLt i 12 with
    | isTrue hi =>
      have hclear : f.toNat.testBit i = false := by
        have hmod : (f.toNat % 2 ^ 12).testBit i = f.toNat.testBit i := by
          rw [Nat.testBit_mod_two_pow, decide_eq_true hi, Bool.true_and]
        rw [← hmod, show f.toNat % 2 ^ 12 = 0 from hzero, Nat.zero_testBit]
      rw [hclear, Bool.false_and]
    | isFalse hi =>
      cases Nat.decLt i 32 with
      | isTrue hlt =>
        rw [decide_eq_true (show i ≥ 12 by omega), decide_eq_true (show i - 12 < 20 by omega),
          Bool.and_self, Bool.and_true]
      | isFalse hge =>
        rw [Nat.testBit_lt_two_pow (Nat.lt_of_lt_of_le hbit (Nat.pow_le_pow_right (by omega)
          (by omega))), Bool.false_and]

theorem add_flags {f b : Word} (hf : IsFrame f) (hb : IsFlags b) : f + b = f ||| b :=
  BitVec.add_eq_or_of_and_eq_zero f b (isFrame_and_flags hf hb)

end PageEntry

end OsdevCourse
