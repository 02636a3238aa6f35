import Mathlib.Algebra.Group.Nat.Defs
import Mathlib.Tactic.Common
import Mathlib.Tactic.SplitIfs

/-!
# Memory as bytes

A memory gives every address its byte. A block of bytes is stored over a range of
addresses, and a 32-bit word is the block of its four bytes, the lowest one first. What a
store leaves alone is told by the addresses it touches.
-/

namespace OsdevCourse

set_option autoImplicit false

abbrev Memory := Nat → UInt8

namespace Memory
variable {m m' : Memory} {a b v n : Nat} {bs cs : List UInt8}

/-- The block `bs` stored from the address `a` on. -/
def writeBytes (m : Memory) (a : Nat) (bs : List UInt8) : Memory :=
  fun x => if a ≤ x ∧ x < a + bs.length then bs.getD (x - a) 0 else m x

def readBytes (m : Memory) (a n : Nat) : List UInt8 := (List.range n).map fun i => m (a + i)

/-- The block `bs` is in memory from the address `a` on. -/
def Stored (m : Memory) : Nat → List UInt8 → Prop
  | _, [] => True
  | a, b :: bs => m a = b ∧ Stored m (a + 1) bs

/-- The four bytes of a word, the lowest first. -/
def wordBytes (v : Nat) : List UInt8 :=
  [UInt8.ofNat v, UInt8.ofNat (v / 256), UInt8.ofNat (v / 65536), UInt8.ofNat (v / 16777216)]

def read32 (m : Memory) (a : Nat) : Nat :=
  (m a).toNat + 256 * (m (a + 1)).toNat + 65536 * (m (a + 2)).toNat
    + 16777216 * (m (a + 3)).toNat

def write32 (m : Memory) (a v : Nat) : Memory := writeBytes m a (wordBytes v)

/-- The two memories hold the same bytes from `a` to before `b`. -/
def AgreeOn (m m' : Memory) (a b : Nat) : Prop := ∀ x, a ≤ x → x < b → m' x = m x

theorem writeBytes_out (h : n < a ∨ a + bs.length ≤ n) : writeBytes m a bs n = m n := by
  unfold writeBytes
  exact if_neg (by omega)

theorem writeBytes_in (h : n < bs.length) : writeBytes m a bs (a + n) = bs.getD n 0 := by
  unfold writeBytes
  rw [if_pos (by omega), Nat.add_sub_cancel_left]

@[simp] theorem writeBytes_nil : writeBytes m a [] = m := by
  funext x
  apply writeBytes_out
  simp only [List.length_nil]
  omega

@[simp] theorem readBytes_length : (readBytes m a n).length = n := by simp [readBytes]

theorem readBytes_succ : readBytes m a (n + 1) = m a :: readBytes m (a + 1) n := by
  simp only [readBytes, List.range_succ_eq_map, List.map_cons, List.map_map, Nat.add_zero]
  refine congrArg _ (List.map_congr_left fun i _ => ?_)
  simp only [Function.comp_apply]
  congr 1
  omega

theorem getD_readBytes (h : b < n) : (readBytes m a n).getD b 0 = m (a + b) := by
  rw [List.getD_eq_getElem?_getD, List.getElem?_eq_getElem (by rwa [readBytes_length])]
  simp only [readBytes, List.getElem_map, List.getElem_range, Option.getD_some]

theorem readBytes_congr (h : AgreeOn m m' a (a + n)) : readBytes m' a n = readBytes m a n := by
  apply List.map_congr_left
  intro i hi
  rw [List.mem_range] at hi
  exact h (a + i) (by omega) (by omega)

theorem readBytes_writeBytes : readBytes (writeBytes m a bs) a bs.length = bs := by
  apply List.ext_getElem
  · simp
  · intro i hi _
    rw [readBytes_length] at hi
    simp only [readBytes, List.getElem_map, List.getElem_range]
    rw [writeBytes_in hi, List.getD_eq_getElem?_getD, List.getElem?_eq_getElem hi, Option.getD_some]

theorem stored_append : Stored m a (bs ++ cs) ↔ Stored m a bs ∧ Stored m (a + bs.length) cs := by
  induction bs generalizing a with
  | nil => simp [Stored]
  | cons b bs ih =>
    simp only [List.cons_append, Stored, ih, List.length_cons, and_assoc]
    rw [show a + 1 + bs.length = a + (bs.length + 1) by omega]

theorem stored_iff : Stored m a bs ↔ readBytes m a bs.length = bs := by
  induction bs generalizing a with
  | nil => simp [Stored, readBytes]
  | cons b bs ih => rw [List.length_cons, readBytes_succ, List.cons.injEq, ← ih, Stored]

theorem Stored.mono (h : Stored m a cs) (hpre : bs <+: cs) : Stored m a bs := by
  obtain ⟨ds, rfl⟩ := hpre
  exact (stored_append.mp h).1

theorem Stored.drop (h : Stored m a bs) (n : Nat) : Stored m (a + n) (bs.drop n) := by
  by_cases hn : n ≤ bs.length
  · rw [← List.take_append_drop n bs, stored_append, List.length_take_of_le hn] at h
    exact h.2
  · rw [List.drop_of_length_le (by omega)]
    trivial

/-- The block byte by byte. -/
theorem stored_iff_getD : Stored m a bs ↔ ∀ i, i < bs.length → m (a + i) = bs.getD i 0 := by
  induction bs generalizing a with
  | nil => simp [Stored]
  | cons b bs ih =>
    rw [Stored, ih]
    constructor
    · rintro ⟨hfirst, hrest⟩ i hi
      cases i with
      | zero => exact hfirst
      | succ i =>
        have hnext := hrest i (Nat.lt_of_succ_lt_succ hi)
        rw [Nat.add_assoc, Nat.add_comm 1] at hnext
        exact hnext
    · intro h
      refine ⟨h 0 (Nat.succ_pos _), fun i hi => ?_⟩
      have hnext := h (i + 1) (Nat.succ_lt_succ hi)
      rw [Nat.add_assoc, Nat.add_comm 1]
      exact hnext

theorem stored_writeBytes : Stored (writeBytes m a bs) a bs := stored_iff.mpr readBytes_writeBytes

@[simp] theorem wordBytes_length : (wordBytes v).length = 4 := rfl

theorem read32_lt : read32 m a < 2 ^ 32 := by
  unfold read32
  have h0 := (m a).toNat_lt
  have h1 := (m (a + 1)).toNat_lt
  have h2 := (m (a + 2)).toNat_lt
  have h3 := (m (a + 3)).toNat_lt
  omega

theorem read32_congr (h : AgreeOn m m' a (a + 4)) : read32 m' a = read32 m a := by
  unfold read32
  rw [h a (by omega) (by omega), h (a + 1) (by omega) (by omega), h (a + 2) (by omega) (by omega),
    h (a + 3) (by omega) (by omega)]

theorem write32_out (h : n < a ∨ a + 4 ≤ n) : write32 m a v n = m n :=
  writeBytes_out h

theorem agreeOn_write32 {x y : Nat} (h : y ≤ a ∨ a + 4 ≤ x) : AgreeOn m (write32 m a v) x y := by
  intro n hx hy
  apply write32_out
  omega

theorem read32_write32 (hv : v < 2 ^ 32) : read32 (write32 m a v) a = v := by
  have h0 : write32 m a v a = UInt8.ofNat v := writeBytes_in (n := 0) (by simp)
  have h1 : write32 m a v (a + 1) = UInt8.ofNat (v / 256) := writeBytes_in (n := 1) (by simp)
  have h2 : write32 m a v (a + 2) = UInt8.ofNat (v / 65536) := writeBytes_in (n := 2) (by simp)
  have h3 : write32 m a v (a + 3) = UInt8.ofNat (v / 16777216) := writeBytes_in (n := 3) (by simp)
  unfold read32
  rw [h0, h1, h2, h3]
  simp only [UInt8.toNat_ofNat']
  omega

theorem read32_write32_of_disjoint (h : b + 4 ≤ a ∨ a + 4 ≤ b) :
    read32 (write32 m a v) b = read32 m b :=
  read32_congr (agreeOn_write32 h)

end Memory

end OsdevCourse
