import Mathlib.Algebra.Group.Int.Defs
import OsdevCourse.ByteMemory

/-!
# The ramdisk driver

The disk is a piece of memory; `memory` is told from the start of the disk on, and goes on
behind its end. Offsets and sizes are 64-bit words, a length given to `kmemcpy` a 32-bit
word. A result `int64_t` is an integer.
-/

namespace OsdevCourse

set_option autoImplicit false

open Memory

/-- `struct RAMDISK_DRIVER_DATA`; the size comes from a `size_t`. -/
structure Ramdisk where
  memory : Memory
  size : Nat
  size_lt : size < 2 ^ 32

def toInt64 (n : Nat) : Int := if n < 2 ^ 63 then n else n - 2 ^ 64

/-- `size` cut down to what there is from `offset` to `limit`, when the sum says so. -/
def clampSize (limit offset size : Nat) : Nat :=
  if limit < (offset + size) % 2 ^ 64 then limit - offset else size

namespace Ramdisk

def getDisksize (d : Ramdisk) : Nat := d.size

/-- The result and the bytes that are stored from `buf` on. -/
def read (d : Ramdisk) (offset size : Nat) : Int × List UInt8 :=
  if d.size ≤ offset then (0, [])
  else
    let size := clampSize d.size offset size
    (toInt64 size, readBytes d.memory offset (size % 2 ^ 32))

/-- The result and the disk with the bytes of `buf` from `src` on. -/
def write (d : Ramdisk) (buf : Memory) (src offset size : Nat) : Int × Ramdisk :=
  if d.size ≤ offset then (0, d)
  else
    let size := clampSize d.size offset size
    (toInt64 size,
      { d with memory := writeBytes d.memory offset (readBytes buf src (size % 2 ^ 32)) })

variable {d : Ramdisk} {offset size : Nat}

theorem clampSize_eq {limit : Nat} (hoff : offset ≤ limit) (hsum : offset + size < 2 ^ 64) :
    clampSize limit offset size = min size (limit - offset) := by
  unfold clampSize
  rw [Nat.mod_eq_of_lt hsum]
  split_ifs <;> omega

theorem read_eq (hoff : offset < d.size) (hsum : offset + size < 2 ^ 64) :
    d.read offset size = (((min size (d.size - offset) : Nat) : Int),
      readBytes d.memory offset (min size (d.size - offset))) := by
  have hlt := d.size_lt
  unfold read
  rw [if_neg (by omega)]
  simp only [clampSize_eq (Nat.le_of_lt hoff) hsum]
  rw [Nat.mod_eq_of_lt (by omega)]
  unfold toInt64
  rw [if_pos (by omega)]

theorem write_eq (buf : Memory) (src : Nat) (hoff : offset < d.size)
    (hsum : offset + size < 2 ^ 64) :
    d.write buf src offset size = (((min size (d.size - offset) : Nat) : Int),
      { d with memory :=
          writeBytes d.memory offset (readBytes buf src (min size (d.size - offset))) }) := by
  have hlt := d.size_lt
  unfold write
  rw [if_neg (by omega)]
  simp only [clampSize_eq (Nat.le_of_lt hoff) hsum]
  rw [Nat.mod_eq_of_lt (by omega)]
  unfold toInt64
  rw [if_pos (by omega)]

theorem read_length_le (hsum : offset + size < 2 ^ 64) : (d.read offset size).2.length ≤ size := by
  by_cases hoff : offset < d.size
  · rw [read_eq hoff hsum, readBytes_length]
    exact Nat.min_le_left _ _
  · unfold read
    rw [if_pos (by omega)]
    exact Nat.zero_le _

end Ramdisk

end OsdevCourse
