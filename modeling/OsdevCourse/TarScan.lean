import OsdevCourse.Tarfs

/-!
# The end of the directory scan

The number that is added to the cursor is read from the disk. `HeaderAt` are the places of
the headers as the lengths on the disk give them, in numbers that do not wrap. The loops
of `tarfs_fstat` and `tarfs_read` go up at every iteration, and so come to an end, exactly
when all of these places are 64-bit words.
-/

namespace OsdevCourse.Tarfs

set_option autoImplicit false

variable {d : Ramdisk} {stack : Stack} {filename : List UInt8} {c n fuel : Nat}

/-- The cursors the loop comes to. -/
inductive Visited (d : Ramdisk) (stack : Stack) (filename : List UInt8) : Nat → Prop where
  | start : Visited d stack filename 0
  | next {c n : Nat} : Visited d stack filename c → c < d.size →
      headerLen d stack c = some n → kstrcmp (header d stack c) 0 filename ≠ 0 →
      Visited d stack filename (nextCursor c n)

/-- The places of the headers up to the first one of the name. -/
inductive HeaderAt (d : Ramdisk) (stack : Stack) (filename : List UInt8) : Nat → Prop where
  | start : HeaderAt d stack filename 0
  | next {c n : Nat} : HeaderAt d stack filename c → c < d.size →
      headerLen d stack c = some n → kstrcmp (header d stack c) 0 filename ≠ 0 →
      HeaderAt d stack filename (c + roundBlock n + 512)

/-- The cursor goes up at every iteration, and both functions return after at most
`disksize / 512 + 1` iterations. -/
structure ScanEnds (d : Ramdisk) (stack : Stack) (filename : List UInt8) : Prop where
  increases : ∀ c n, Visited d stack filename c → c < d.size → headerLen d stack c = some n →
    kstrcmp (header d stack c) 0 filename ≠ 0 → c < nextCursor c n
  fstat : ∃ r, tarfsFstat d stack (d.size / 512 + 1) filename = some r
  read : ∀ offset size, ∃ r, tarfsRead d stack (d.size / 512 + 1) filename offset size = some r

theorem roundBlock_le (n : Nat) : roundBlock n + 512 ≤ 2 ^ 64 := by
  unfold roundBlock
  omega

/-- The cursor goes up exactly when the addition does not wrap. -/
theorem lt_nextCursor_iff (hc : c < 2 ^ 32) :
    c < nextCursor c n ↔ c + roundBlock n + 512 < 2 ^ 64 := by
  have hle := roundBlock_le n
  unfold nextCursor
  constructor
  · intro h
    omega
  · intro h
    omega

theorem nextCursor_of_lt (h : c + roundBlock n + 512 < 2 ^ 64) :
    nextCursor c n = c + roundBlock n + 512 := by
  unfold nextCursor
  omega

theorem Visited.headerAt (hall : ∀ c, HeaderAt d stack filename c → c < 2 ^ 64)
    (h : Visited d stack filename c) : HeaderAt d stack filename c := by
  induction h with
  | start => exact .start
  | @next c n _ hin hlen hmiss ih =>
    have hnext := HeaderAt.next ih hin hlen hmiss
    rw [nextCursor_of_lt (hall _ hnext)]
    exact hnext

theorem Visited.scan_eq (h : Visited d stack filename c) :
    ∃ k, ∀ fuel, scan d stack filename (fuel + k) 0 = scan d stack filename fuel c := by
  induction h with
  | start => exact ⟨0, fun _ => rfl⟩
  | @next c n _ hin hlen hmiss ih =>
    obtain ⟨k, hk⟩ := ih
    refine ⟨k + 1, fun fuel => ?_⟩
    rw [← Nat.add_assoc, Nat.add_right_comm, hk (fuel + 1), scan_succ hin hlen, if_pos hmiss]

theorem scan_returns (hall : ∀ c, HeaderAt d stack filename c → c < 2 ^ 64)
    (h : HeaderAt d stack filename c) (hfuel : d.size ≤ c + 512 * fuel) :
    ∃ r, scan d stack filename fuel c = some r := by
  induction fuel generalizing c with
  | zero => exact ⟨_, scan_end (by omega)⟩
  | succ fuel ih =>
    by_cases hin : c < d.size
    · obtain ⟨n, hlen⟩ := headerLen_returns d stack hin
      rw [scan_succ hin hlen]
      split_ifs with hmiss
      · have hnext := HeaderAt.next h hin hlen hmiss
        rw [nextCursor_of_lt (hall _ hnext)]
        exact ih hnext (by omega)
      · exact ⟨_, rfl⟩
    · exact ⟨_, scan_end (by omega)⟩

theorem HeaderAt.visited (hends : ScanEnds d stack filename) (h : HeaderAt d stack filename c) :
    Visited d stack filename c ∧ c < 2 ^ 64 := by
  induction h with
  | start => exact ⟨.start, by omega⟩
  | @next c n _ hin hlen hmiss ih =>
    have hlt := d.size_lt
    have hup := hends.increases c n ih.1 hin hlen hmiss
    have hword := (lt_nextCursor_iff (by omega)).mp hup
    have hnext := Visited.next ih.1 hin hlen hmiss
    rw [nextCursor_of_lt hword] at hnext
    exact ⟨hnext, hword⟩

/-- The scan ends exactly when no addition to the cursor wraps. -/
theorem scanEnds_iff (d : Ramdisk) (stack : Stack) (filename : List UInt8) :
    ScanEnds d stack filename ↔ ∀ c, HeaderAt d stack filename c → c < 2 ^ 64 := by
  constructor
  · exact fun hends c h => (h.visited hends).2
  · intro hall
    obtain ⟨r, hscan⟩ : ∃ r, scan d stack filename (d.size / 512 + 1) 0 = some r :=
      scan_returns hall .start (by omega)
    refine ⟨?_, ?_, ?_⟩
    · intro c n h hin hlen hmiss
      have hlt := d.size_lt
      apply (lt_nextCursor_iff (by omega)).mpr
      exact hall _ (.next (h.headerAt hall) hin hlen hmiss)
    · unfold tarfsFstat
      rw [hscan]
      cases r with
      | failed => exact ⟨_, rfl⟩
      | missing => exact ⟨_, rfl⟩
      | found cursor filelen => exact ⟨_, rfl⟩
    · intro offset size
      unfold tarfsRead
      rw [hscan]
      cases r with
      | failed => exact ⟨_, rfl⟩
      | missing => exact ⟨_, rfl⟩
      | found cursor filelen =>
        simp only
        split_ifs
        · exact ⟨_, rfl⟩
        · exact ⟨_, rfl⟩

theorem oneBlock_lt : 512 < 2 ^ 32 := by decide

/-- One block in which the length is the byte `0xF0` and a zero digit: `-64 * 8` modulo
`2 ^ 64`. -/
def endlessDisk : Ramdisk where
  memory i := if i = 124 then 0xF0 else if i = 125 then 48 else 0
  size := 512
  size_lt := oneBlock_lt

theorem headerLen_endless (stack : Stack) : headerLen endlessDisk stack 0 = some
    (2 ^ 64 - 512) := by
  obtain ⟨i, hi, hlt, _⟩ := stack.nul 0
  obtain ⟨k, hk⟩ : ∃ k, stack.limit = k + 3 := ⟨stack.limit - 3, by omega⟩
  have hsize : endlessDisk.size = 512 := rfl
  have hbyte : ∀ n, n < 511 → header endlessDisk stack 0 n = endlessDisk.memory (0 + n) :=
    fun n hn => header_byte hn (by omega)
  unfold headerLen oct2uint64 filelenOffset
  rw [hk]
  simp only [octLoop, hbyte 124 (by omega), hbyte 125 (by omega), hbyte 126 (by omega)]
  rfl

theorem kstrcmp_endless (stack : Stack) : kstrcmp (header endlessDisk stack 0) 0 [97] ≠ 0 := by
  have hzero : header endlessDisk stack 0 0 = 0 := header_byte (by omega) (Nat.succ_pos 511)
  simp [kstrcmp, hzero]

/-- The cursor stays at 0 for ever. -/
theorem scan_never_ends : ∃ d : Ramdisk, ∀ stack, ¬ ScanEnds d stack [97] ∧
    ∀ fuel, tarfsFstat d stack fuel [97] = none ∧
      ∀ offset size, tarfsRead d stack fuel [97] offset size = none := by
  have hin : 0 < endlessDisk.size := Nat.succ_pos 511
  refine ⟨endlessDisk, fun stack => ⟨fun hends => ?_, fun fuel => ?_⟩⟩
  · have hup := hends.increases 0 _ .start hin (headerLen_endless stack) (kstrcmp_endless stack)
    exact absurd hup (by decide)
  · have hscan : scan endlessDisk stack [97] fuel 0 = none := by
      induction fuel with
      | zero => rfl
      | succ fuel ih =>
        rw [scan_succ hin (headerLen_endless stack), if_pos (kstrcmp_endless stack)]
        exact ih
    unfold tarfsFstat tarfsRead
    rw [hscan]
    exact ⟨rfl, fun _ _ => rfl⟩

end OsdevCourse.Tarfs
