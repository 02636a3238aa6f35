import OsdevCourse.TarArchive
import OsdevCourse.TarScan

/-!
# The last block of a disk

The driver delivers what there is from a cursor on, and any number but zero lets the loops
of `tarfs_fstat` and `tarfs_read` go on. A header has 511 bytes. Where the last block of a disk
has less, a header there is therefore made up of the end of the disk and of what the local
variable held. Two stacks that differ in that variable only give the same results when the
loops do not come to this cursor.
-/

namespace OsdevCourse.Tarfs

set_option autoImplicit false

open Memory

variable {d : Ramdisk} {stack stack' : Stack} {filename : List UInt8} {m m' : Memory}
  {a c n r fuel : Nat}

/-- The second stack differs from the first one in the bytes of the local header only. -/
structure SameAbove (stack stack' : Stack) : Prop where
  limit : stack'.limit = stack.limit
  above : ∀ cursor i, 511 ≤ i → stack'.bytes cursor i = stack.bytes cursor i

/-- What the local header holds before each read does not show in the results. -/
structure SameResults (d : Ramdisk) (stack : Stack) (filename : List UInt8) : Prop where
  fstat : ∀ stack', SameAbove stack stack' → ∀ fuel,
    tarfsFstat d stack' fuel filename = tarfsFstat d stack fuel filename
  read : ∀ stack', SameAbove stack stack' → ∀ fuel offset size,
    tarfsRead d stack' fuel filename offset size = tarfsRead d stack fuel filename offset size

/-- Besides, no header is looked into of which only a part was delivered. -/
structure DependsOnDisk (d : Ramdisk) (stack : Stack) (filename : List UInt8) : Prop where
  results : SameResults d stack filename
  whole : ∀ stack', SameAbove stack stack' → ∀ c, Visited d stack' filename c → c < d.size →
    c + 511 ≤ d.size

/-- The cursors that the loop comes to over headers that are delivered as a whole. -/
inductive Arrives (d : Ramdisk) (stack : Stack) (filename : List UInt8) : Nat → Prop where
  | start : Arrives d stack filename 0
  | next {c n : Nat} : Arrives d stack filename c → c + 511 ≤ d.size →
      headerLen d stack c = some n → kstrcmp (header d stack c) 0 filename ≠ 0 →
      Arrives d stack filename (nextCursor c n)

/-- The loop does not come to a last block of less than 511 bytes. -/
def StaysWhole (d : Ramdisk) (stack : Stack) (filename : List UInt8) : Prop :=
  d.size % 512 = 0 ∨ d.size % 512 = 511 ∨ ¬ Arrives d stack filename (d.size / 512 * 512)

theorem SameAbove.refl (stack : Stack) : SameAbove stack stack := ⟨rfl, fun _ _ _ => rfl⟩

theorem SameAbove.header_eq (h : SameAbove stack stack') (hin : c + 511 ≤ d.size) :
    header d stack' c = header d stack c := by
  have hlt := d.size_lt
  funext i
  rcases Nat.lt_or_ge i 511 with hi | hi
  · rw [header_byte hi (by omega), header_byte hi (by omega)]
  · have hlen : (d.read c 511).2.length = 511 := by
      rw [Ramdisk.read_eq (by omega) (by omega), readBytes_length]
      omega
    unfold header
    rw [writeBytes_out (Or.inr (by omega)), writeBytes_out (Or.inr (by omega))]
    exact h.above c i hi

theorem SameAbove.headerLen_eq (h : SameAbove stack stack') (hin : c + 511 ≤ d.size) :
    headerLen d stack' c = headerLen d stack c := by
  unfold headerLen
  rw [h.header_eq hin, h.limit]

theorem Visited.dvd (h : Visited d stack filename c) : 512 ∣ c := by
  induction h with
  | start => exact Nat.dvd_zero _
  | next _ _ _ _ ih =>
    unfold nextCursor roundBlock
    omega

theorem Arrives.visited (h : Arrives d stack filename c) : Visited d stack filename c := by
  induction h with
  | start => exact .start
  | next _ hin hlen hmiss ih => exact .next ih (by omega) hlen hmiss

theorem StaysWhole.whole (h : StaysWhole d stack filename) (harrives : Arrives d stack filename c)
    (hin : c < d.size) : c + 511 ≤ d.size := by
  have hdvd := harrives.visited.dvd
  rcases h with hsize | hsize | hnot
  · omega
  · omega
  · by_contra hpart
    have hlast : c = d.size / 512 * 512 := by omega
    exact hnot (hlast ▸ harrives)

theorem Visited.arrives (hwhole : StaysWhole d stack filename) (hsame : SameAbove stack stack')
    (h : Visited d stack' filename c) : Arrives d stack filename c := by
  induction h with
  | start => exact .start
  | next _ hin hlen hmiss ih =>
    have hall := hwhole.whole ih hin
    rw [hsame.headerLen_eq hall] at hlen
    rw [hsame.header_eq hall] at hmiss
    exact .next ih hall hlen hmiss

theorem scan_same (hwhole : StaysWhole d stack filename) (hsame : SameAbove stack stack')
    (h : Arrives d stack filename c) :
    scan d stack' filename fuel c = scan d stack filename fuel c := by
  induction fuel generalizing c with
  | zero => rfl
  | succ fuel ih =>
    rcases Nat.lt_or_ge c d.size with hin | hend
    · have hall := hwhole.whole h hin
      obtain ⟨n, hlen⟩ := headerLen_returns d stack hin
      have hlen' := (hsame.headerLen_eq hall).trans hlen
      rw [scan_succ hin hlen, scan_succ hin hlen', hsame.header_eq hall]
      split_ifs with hmiss
      · exact ih (.next h hall hlen hmiss)
      · rfl
    · rw [scan_end hend, scan_end hend]

theorem StaysWhole.sameResults (h : StaysWhole d stack filename) :
    SameResults d stack filename := by
  constructor
  · intro stack' hsame fuel
    unfold tarfsFstat
    rw [scan_same h hsame .start]
  · intro stack' hsame fuel offset size
    unfold tarfsRead
    rw [scan_same h hsame .start]

theorem dependsOnDisk_iff (d : Ramdisk) (stack : Stack) (filename : List UInt8) :
    DependsOnDisk d stack filename ↔ StaysWhole d stack filename := by
  constructor
  · intro h
    by_contra hbad
    obtain ⟨hsize, hbad⟩ := not_or.mp hbad
    obtain ⟨hsize', harrives⟩ := not_or.mp hbad
    have hvisited := (not_not.mp harrives).visited
    have hin := h.whole stack (.refl stack) _ hvisited (by omega)
    omega
  · intro h
    refine ⟨h.sameResults, ?_⟩
    intro stack' hsame c hvisited hin
    exact h.whole (hvisited.arrives h hsame) hin

/-! ### A header made of two parts -/

theorem Arrives.scan_eq (h : Arrives d stack filename c) :
    ∃ k, ∀ stack' fuel, SameAbove stack stack' →
      scan d stack' filename (fuel + k) 0 = scan d stack' filename fuel c := by
  induction h with
  | start => exact ⟨0, fun _ _ _ => rfl⟩
  | @next c n _ hall hlen hmiss ih =>
    obtain ⟨k, hk⟩ := ih
    refine ⟨k + 1, fun stack' fuel hsame => ?_⟩
    have hin : c < d.size := by omega
    rw [← Nat.add_assoc, Nat.add_right_comm, hk stack' (fuel + 1) hsame,
      scan_succ hin ((hsame.headerLen_eq hall).trans hlen), hsame.header_eq hall, if_pos hmiss]

/-- The local header before every read: zeros, with two bytes at the place of the length. -/
def Stack.withLength (stack : Stack) (x y : UInt8) : Stack where
  bytes cursor i :=
    if 511 ≤ i then stack.bytes cursor i else if i = 124 then x else if i = 125 then y else 0
  limit := stack.limit
  nul cursor := by
    obtain ⟨i, hi, hlt, hnul⟩ := stack.nul cursor
    refine ⟨i, hi, hlt, ?_⟩
    rw [if_pos hi]
    exact hnul

theorem Stack.withLength_same (stack : Stack) (x y : UInt8) :
    SameAbove stack (stack.withLength x y) :=
  ⟨rfl, fun _ _ hi => if_pos hi⟩

theorem kstrcmp_congr {k : Nat} (hagree : ∀ i, i ≤ k → m' (a + i) = m (a + i))
    (hnul : m (a + k) = 0) :
    kstrcmp m' a filename = kstrcmp m a filename := by
  induction k generalizing a filename with
  | zero =>
    have hzero : m a = 0 := hnul
    have hzero' : m' a = 0 := (hagree 0 (Nat.le_refl _)).trans hzero
    cases filename with
    | nil => simp only [kstrcmp, hzero, hzero']
    | cons f fs => simp only [kstrcmp, hzero, hzero', if_true]
  | succ k ih =>
    have hfirst : m' a = m a := hagree 0 (Nat.zero_le _)
    have hrest : ∀ fs, kstrcmp m' (a + 1) fs = kstrcmp m (a + 1) fs := by
      intro fs
      apply ih
      · intro i hi
        have hnext := hagree (i + 1) (by omega)
        rwa [← Nat.add_assoc, Nat.add_right_comm] at hnext
      · rwa [Nat.add_assoc, Nat.add_comm 1]
    cases filename with
    | nil => simp only [kstrcmp, hfirst]
    | cons f fs => simp only [kstrcmp, hfirst, hrest]

section Part
variable {x y : UInt8} {k : Nat}

/-- A byte that the disk does not deliver is what the local header held. -/
theorem header_rest (hin : c < d.size) (hpart : d.size ≤ c + n) :
    header d stack c n = stack.bytes c n := by
  have hlt := d.size_lt
  have hlen : (d.read c 511).2.length = min 511 (d.size - c) := by
    rw [Ramdisk.read_eq hin (by omega), readBytes_length]
  unfold header
  apply writeBytes_out
  omega

theorem header_withLength (hin : c < d.size) (hpart : d.size < c + 124) (hn : 123 ≤ n)
    (hn' : n < 511) : header d (stack.withLength x y) c n =
      if n = 124 then x else if n = 125 then y else 0 := by
  rw [header_rest hin (by omega)]
  exact if_neg (by omega)

theorem headerLen_zero (hin : c < d.size) (hpart : d.size < c + 124) :
    headerLen d (stack.withLength 0 0) c = some 0 := by
  obtain ⟨i, hi, hlt, _⟩ := stack.nul 0
  have hlimit : (stack.withLength 0 0).limit = stack.limit := rfl
  obtain ⟨k, hk⟩ : ∃ k, stack.limit = k + 1 := ⟨stack.limit - 1, by omega⟩
  have hnul : header d (stack.withLength 0 0) c 124 = 0 :=
    header_withLength hin hpart (by omega) (by omega)
  unfold headerLen oct2uint64 filelenOffset
  rw [hlimit, hk]
  simp only [octLoop, hnul, if_true]

theorem headerLen_back (hin : c < d.size) (hpart : d.size < c + 124) :
    headerLen d (stack.withLength 0xF0 48) c = some (2 ^ 64 - 512) := by
  obtain ⟨i, hi, hlt, _⟩ := stack.nul 0
  have hlimit : (stack.withLength 0xF0 48).limit = stack.limit := rfl
  obtain ⟨k, hk⟩ : ∃ k, stack.limit = k + 3 := ⟨stack.limit - 3, by omega⟩
  have hfirst : header d (stack.withLength 0xF0 48) c 124 = 0xF0 :=
    header_withLength hin hpart (by omega) (by omega)
  have hsecond : header d (stack.withLength 0xF0 48) c 125 = 48 :=
    header_withLength hin hpart (by omega) (by omega)
  have hnul : header d (stack.withLength 0xF0 48) c 126 = 0 :=
    header_withLength hin hpart (by omega) (by omega)
  unfold headerLen oct2uint64 filelenOffset
  rw [hlimit, hk]
  simp only [octLoop, hfirst, hsecond, hnul]
  rfl

theorem kstrcmp_withLength (hin : c < d.size) (hpart : d.size < c + 124) :
    kstrcmp (header d (stack.withLength 0xF0 48) c) 0 filename =
      kstrcmp (header d (stack.withLength 0 0) c) 0 filename := by
  apply kstrcmp_congr (k := 123)
  · intro i hi
    rw [Nat.zero_add]
    rcases Nat.lt_or_ge (c + i) d.size with hon | hoff
    · rw [header_byte (by omega) hon, header_byte (by omega) hon]
    · rw [header_rest hin hoff, header_rest hin hoff]
      unfold Stack.withLength
      simp only
      rw [if_neg (by omega), if_neg (by omega), if_neg (by omega), if_neg (by omega),
        if_neg (by omega),
        if_neg (by omega)]
  · exact header_withLength hin hpart (by omega) (by omega)

end Part

/-- When the disk ends in front of the length of the header at the last cursor, what the local
header holds there decides about the result. -/
theorem results_differ (harrives : Arrives d stack filename c) (hin : c < d.size)
    (hpart : d.size < c + 124) : ¬ SameResults d stack filename := by
  intro hsame
  have hlt := d.size_lt
  obtain ⟨k, hk⟩ := harrives.scan_eq
  have hzero := hk _ 1 (stack.withLength_same 0 0)
  have hback := hk _ 1 (stack.withLength_same 0xF0 48)
  have hequal := (hsame.fstat _ (stack.withLength_same 0 0) (1 + k)).trans
    (hsame.fstat _ (stack.withLength_same 0xF0 48) (1 + k)).symm
  unfold tarfsFstat at hequal
  rw [hzero, hback, scan_succ hin (headerLen_zero hin hpart),
    scan_succ hin (headerLen_back hin hpart),
    kstrcmp_withLength hin hpart] at hequal
  split_ifs at hequal with hmiss
  · -- one loop is at its end, the other one is where it was
    have hnext : nextCursor c 0 = c + 512 := by
      unfold nextCursor roundBlock
      omega
    have hstay : nextCursor c (2 ^ 64 - 512) = c := by
      unfold nextCursor roundBlock
      omega
    have hsize : c < d.getDisksize := hin
    rw [hnext, hstay, scan_end (by omega), scan, if_pos hsize] at hequal
    cases hequal
  · cases hequal

/-- The results depend on the disk only, and on headers that are delivered as a whole, exactly
when the loop does not come to a last block of less than 511 bytes. Where that block ends
before its length begins, the results alone tell. -/
theorem lookup_depends_on_disk_iff (d : Ramdisk) (stack : Stack) (filename : List UInt8) :
    (DependsOnDisk d stack filename ↔
      d.size % 512 = 0 ∨ d.size % 512 = 511 ∨ ¬ Arrives d stack filename (d.size / 512 * 512)) ∧
    (d.size % 512 < 124 → (SameResults d stack filename ↔
      d.size % 512 = 0 ∨ d.size % 512 = 511 ∨
        ¬ Arrives d stack filename (d.size / 512 * 512))) := by
  refine ⟨dependsOnDisk_iff d stack filename, fun hpart => ⟨fun h => ?_, StaysWhole.sameResults⟩⟩
  by_contra hbad
  obtain ⟨hsize, hbad⟩ := not_or.mp hbad
  obtain ⟨_, harrives⟩ := not_or.mp hbad
  exact results_differ (not_not.mp harrives) (by omega) (by omega) h

/-- A disk of one byte. -/
def oneByteDisk : Ramdisk where
  memory _ := 97
  size := 1
  size_lt := by omega

/-- Whether `a` is found on it is not told by the disk. -/
theorem partial_header_interpreted : ¬ ∀ (d : Ramdisk) (stack : Stack) (filename : List UInt8),
    SameResults d stack filename := by
  intro hclaim
  have hin : 0 < oneByteDisk.size := Nat.one_pos
  have hpart : oneByteDisk.size < 0 + 124 := by
    have hsize : oneByteDisk.size = 1 := rfl
    omega
  exact results_differ .start hin hpart (hclaim oneByteDisk zeroStack [97])

end OsdevCourse.Tarfs
