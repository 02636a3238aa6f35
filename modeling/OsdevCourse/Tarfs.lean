import OsdevCourse.Ramdisk

/-!
# The tar file system

`tarfs_fstat` and `tarfs_read` look for a file by going over the headers on the disk. Both
loops are `scan`. A header is a local variable that nothing initialises: what the disk
does not deliver is whatever the stack holds. Strings are read up to their NUL, also past
the field they begin in. `char` is signed.
-/

namespace OsdevCourse.Tarfs

set_option autoImplicit false

open Memory

/-- The value of a `char`. -/
def char (b : UInt8) : Int := if b.toNat < 128 then b.toNat else (b.toNat : Int) - 256

/-- `r = r * 8 + n` with `n = *s - '0'` an `int` and `r` a 64-bit word. -/
def octStep (r : Nat) (b : UInt8) : Nat := (((r : Int) * 8 + (char b - 48)) % 2 ^ 64).toNat

def octLoop (m : Memory) : Nat → Nat → Nat → Option Nat
  | 0, _, _ => none
  | fuel + 1, s, r => if m s = 0 then some r else octLoop m fuel (s + 1) (octStep r (m s))

/-- The number written from the address `s` on. There is no result when no NUL comes within
the fuel. -/
def oct2uint64 (m : Memory) (fuel s : Nat) : Option Nat := octLoop m fuel s 0

/-- The string at `a` compared with a string of which only the characters before the NUL are
given. -/
def kstrcmp (m : Memory) (a : Nat) : List UInt8 → Int
  | [] => if m a ≠ 0 then -1 else 0
  | c :: cs =>
    if m a = 0 then 1
    else if char (m a) - char c ≠ 0 then char (m a) - char c
    else kstrcmp m (a + 1) cs

/-- What the local header and the stack above it hold before the disk is read at a cursor.
There is a NUL somewhere above the header. -/
structure Stack where
  bytes : Nat → Memory
  limit : Nat
  nul : ∀ cursor, ∃ i, 511 ≤ i ∧ i < limit ∧ bytes cursor i = 0

/-- The offset of `filelen` in `struct TAR_HEADER`; `filename` is at its start. -/
def filelenOffset : Nat := 124

/-- The header and the stack above it after the read. The fields of `struct TAR_HEADER` come to 511
bytes. -/
def header (d : Ramdisk) (stack : Stack) (cursor : Nat) : Memory :=
  writeBytes (stack.bytes cursor) 0 (d.read cursor 511).2

/-- The length in a header. -/
def headerLen (d : Ramdisk) (stack : Stack) (cursor : Nat) : Option Nat :=
  oct2uint64 (header d stack cursor) stack.limit filelenOffset

/-- `((filelen + 511) >> 9) << 9` -/
def roundBlock (filelen : Nat) : Nat := (filelen + 511) % 2 ^ 64 / 512 * 512

/-- The cursor after a header that is not the one looked for: the addition in the loop and
then the one in the `for`. -/
def nextCursor (cursor filelen : Nat) : Nat :=
  ((cursor + roundBlock filelen) % 2 ^ 64 + 512) % 2 ^ 64

inductive Scan where
  | failed
  | missing
  | found (cursor filelen : Nat)
  deriving DecidableEq

/-- The loop from a cursor on. There is no result when it is not over after as many
iterations as there is fuel. -/
def scan (d : Ramdisk) (stack : Stack) (filename : List UInt8) : Nat → Nat → Option Scan
  | 0, cursor => if cursor < d.getDisksize then none else some .missing
  | fuel + 1, cursor =>
    if cursor < d.getDisksize then
      if (d.read cursor 511).1 = 0 then some .failed
      else
        match headerLen d stack cursor with
        | none => none
        | some filelen =>
          if kstrcmp (header d stack cursor) 0 filename ≠ 0 then
            scan d stack filename fuel (nextCursor cursor filelen)
          else some (.found cursor filelen)
    else some .missing

/-- `some len` stands for the result true with `stat->filelen = len`, `none` for false. -/
def tarfsFstat (d : Ramdisk) (stack : Stack) (fuel : Nat) (filename : List UInt8) :
    Option (Option Nat) :=
  match scan d stack filename fuel 0 with
  | none => none
  | some (.found _ filelen) => some (some filelen)
  | some _ => some none

/-- The result and the bytes that are stored from `buf` on. -/
def tarfsRead (d : Ramdisk) (stack : Stack) (fuel : Nat) (filename : List UInt8)
    (offset size : Nat) : Option (Int × List UInt8) :=
  match scan d stack filename fuel 0 with
  | none => none
  | some (.found cursor filelen) =>
    if filelen ≤ offset then some (0, [])
    else
      let size := clampSize filelen offset size
      let cursor := (cursor + 512) % 2 ^ 64
      some (d.read ((cursor + offset) % 2 ^ 64) size)
  | some _ => some (0, [])

/-! ### Strings -/

variable {m : Memory} {a b r n fuel : Nat} {bs cs : List UInt8}

theorem char_eq_iff {b c : UInt8} : char b - char c = 0 ↔ b = c := by
  have hb := b.toNat_lt
  have hc := c.toNat_lt
  rw [← UInt8.toNat_inj]
  unfold char
  split_ifs <;> omega

/-- `kstrcmp` gives 0 for the same string only. -/
theorem kstrcmp_eq_zero_iff (hstored : Stored m a (bs ++ [0])) (hbs : ∀ b ∈ bs, b ≠ 0)
    (hcs : ∀ c ∈ cs, c ≠ 0) : kstrcmp m a cs = 0 ↔ cs = bs := by
  induction bs generalizing a cs with
  | nil =>
    have hnul : m a = 0 := hstored.1
    cases cs with
    | nil => simp [kstrcmp, hnul]
    | cons c cs => simp [kstrcmp, hnul]
  | cons b bs ih =>
    obtain ⟨hb, hrest⟩ := hstored
    have hnz : b ≠ 0 := hbs b List.mem_cons_self
    cases cs with
    | nil => simp [kstrcmp, hb, hnz]
    | cons c cs =>
      have htail := ih hrest (fun x hx => hbs x (List.mem_cons_of_mem b hx))
        (fun x hx => hcs x (List.mem_cons_of_mem c hx))
      simp only [kstrcmp, hb, if_neg hnz, List.cons.injEq]
      by_cases heq : b = c
      · rw [if_neg (not_not.mpr (char_eq_iff.mpr heq)), htail]
        exact ⟨fun h => ⟨heq.symm, h⟩, fun h => h.2⟩
      · have hne : char b - char c ≠ 0 := fun h => heq (char_eq_iff.mp h)
        rw [if_pos hne]
        exact ⟨fun h => absurd h hne, fun h => absurd h.1.symm heq⟩

theorem octLoop_returns (h : ∃ i, i < fuel ∧ m (a + i) = 0) : ∃ v, octLoop m fuel a r = some v := by
  induction fuel generalizing a r with
  | zero =>
    obtain ⟨i, hi, _⟩ := h
    omega
  | succ fuel ih =>
    unfold octLoop
    split_ifs with hnul
    · exact ⟨r, rfl⟩
    · obtain ⟨i, hi, hzero⟩ := h
      obtain ⟨j, rfl⟩ : ∃ j, i = j + 1 := ⟨i - 1, by
        have hne : i ≠ 0 := by
          rintro rfl
          exact hnul hzero
        omega⟩
      refine ih ⟨j, by omega, ?_⟩
      rw [← hzero]
      congr 1
      omega

theorem headerLen_returns (d : Ramdisk) (stack : Stack) {cursor : Nat} (hcursor : cursor < d.size) :
    ∃ v, headerLen d stack cursor = some v := by
  obtain ⟨i, hi, hlt, hnul⟩ := stack.nul cursor
  apply octLoop_returns
  refine ⟨i - filelenOffset, by omega, ?_⟩
  have hoff : filelenOffset = 124 := rfl
  rw [show filelenOffset + (i - filelenOffset) = i by omega, ← hnul]
  apply writeBytes_out
  right
  have hlen : (d.read cursor 511).2.length ≤ 511 := by
    have hlt := d.size_lt
    exact Ramdisk.read_length_le (by omega)
  omega

/-! ### The loop -/

variable {d : Ramdisk} {stack : Stack} {cursor : Nat} {filename : List UInt8}

theorem read_header_ne_zero (hcursor : cursor < d.size) : (d.read cursor 511).1 ≠ 0 := by
  have hlt := d.size_lt
  rw [Ramdisk.read_eq hcursor (by omega)]
  simp only [ne_eq, Int.natCast_eq_zero]
  omega

theorem header_byte (hn : n < 511) (hin : cursor + n < d.size) :
    header d stack cursor n = d.memory (cursor + n) := by
  have hlt := d.size_lt
  have hlen : n < min 511 (d.size - cursor) := by omega
  unfold header
  rw [Ramdisk.read_eq (by omega) (by omega)]
  have hbyte : writeBytes (stack.bytes cursor) 0
      (readBytes d.memory cursor (min 511 (d.size - cursor))) (0 + n) = _ :=
    writeBytes_in (by rwa [readBytes_length])
  rw [Nat.zero_add] at hbyte
  rw [hbyte, getD_readBytes hlen]

theorem scan_succ (hcursor : cursor < d.size) (hlen : headerLen d stack cursor = some n) :
    scan d stack filename (fuel + 1) cursor =
      if kstrcmp (header d stack cursor) 0 filename ≠ 0 then
        scan d stack filename fuel (nextCursor cursor n)
      else some (.found cursor n) := by
  have hsize : cursor < d.getDisksize := hcursor
  rw [scan, if_pos hsize, if_neg (read_header_ne_zero hcursor), hlen]

theorem scan_end (hcursor : d.size ≤ cursor) : scan d stack filename fuel cursor =
    some .missing := by
  have hsize : ¬ cursor < d.getDisksize := Nat.not_lt.mpr hcursor
  cases fuel with
  | zero => rw [scan, if_neg hsize]
  | succ fuel => rw [scan, if_neg hsize]

end OsdevCourse.Tarfs
