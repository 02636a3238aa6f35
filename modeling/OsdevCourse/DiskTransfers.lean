import OsdevCourse.TarArchive
import OsdevCourse.TarScan

/-!
# Clamped transfers

A transfer is cut down to what is left of the disk, and before that to what is left of the
file, when the sum of offset and size goes past the end. The sums are 64-bit words. A sum
that wraps is small, so that nothing is cut: the driver then returns a size that is no
count of bytes on the disk.
-/

namespace OsdevCourse

set_option autoImplicit false

open Memory

namespace Ramdisk
variable {d : Ramdisk} {offset size : Nat}

/-- The number of bytes from `offset` on, at most `size`, that the disk has. -/
def available (d : Ramdisk) (offset size : Nat) : Nat := min size (d.size - offset)

/-- A read and a write of these 64-bit arguments transfer what there is, and no more. -/
structure Transfers (d : Ramdisk) (offset size : Nat) : Prop where
  read : d.read offset size =
    ((d.available offset size : Int), readBytes d.memory offset (d.available offset size))
  result : ∀ buf src, (d.write buf src offset size).1 = (d.available offset size : Int)
  stored : ∀ buf src i, i < d.available offset size →
    (d.write buf src offset size).2.memory (offset + i) = buf (src + i)
  rest : ∀ buf src a, a < offset ∨ offset + d.available offset size ≤ a →
    (d.write buf src offset size).2.memory a = d.memory a
  size_kept : ∀ buf src, (d.write buf src offset size).2.size = d.size
  read_back : ∀ buf src, (d.write buf src offset size).2.read offset size =
    ((d.available offset size : Int), readBytes buf src (d.available offset size))

theorem transfers_behind (hoff : d.size ≤ offset) : Transfers d offset size := by
  have hnone : d.available offset size = 0 := by
    unfold available
    omega
  have hwrite : ∀ buf src, d.write buf src offset size = (0, d) := fun _ _ => if_pos hoff
  have hread : d.read offset size = (0, []) := if_pos hoff
  refine ⟨?_, ?_, ?_, ?_, ?_, ?_⟩
  · rw [hread, hnone]
    rfl
  · intro buf src
    rw [hwrite, hnone]
    rfl
  · intro buf src i hi
    omega
  · intro buf src a _
    rw [hwrite]
  · intro buf src
    rw [hwrite]
  · intro buf src
    rw [hwrite, hread, hnone]
    rfl

theorem transfers_of_lt (hoff : offset < d.size) (hsum : offset + size < 2 ^ 64) :
    Transfers d offset size := by
  have hwrite := fun buf src => write_eq buf src hoff hsum
  refine ⟨read_eq hoff hsum, ?_, ?_, ?_, ?_, ?_⟩
  · intro buf src
    rw [hwrite]
    rfl
  · intro buf src i hi
    rw [hwrite]
    refine (writeBytes_in ?_).trans (getD_readBytes hi)
    rwa [readBytes_length]
  · intro buf src a ha
    rw [hwrite]
    apply writeBytes_out
    rwa [readBytes_length]
  · intro buf src
    rw [hwrite]
  · intro buf src
    have hsize : (d.write buf src offset size).2.size = d.size := by rw [hwrite]
    have hmemory : (d.write buf src offset size).2.memory =
        writeBytes d.memory offset (readBytes buf src (d.available offset size)) := by
      rw [hwrite]
      rfl
    have hread := read_eq (by rwa [hsize]) hsum
    rw [hsize, hmemory] at hread
    refine hread.trans ?_
    have hlen : (readBytes buf src (d.available offset size)).length = d.available offset size :=
      readBytes_length
    have hback : readBytes (writeBytes d.memory offset
      (readBytes buf src (d.available offset size)))
        offset (readBytes buf src (d.available offset size)).length =
        readBytes buf src (d.available offset size) := readBytes_writeBytes
    rw [hlen] at hback
    exact congrArg (Prod.mk _) hback

theorem read_wrapped (hoff : offset < d.size) (hsize : size < 2 ^ 64)
    (hsum : 2 ^ 64 ≤ offset + size) : (d.read offset size).1 < 0 := by
  have hlt := d.size_lt
  have hkeep : clampSize d.size offset size = size := by
    unfold clampSize
    rw [if_neg (by omega)]
  unfold read
  rw [if_neg (by omega)]
  simp only [hkeep]
  unfold toInt64
  rw [if_neg (by omega)]
  omega

theorem transfers_iff (hsize : size < 2 ^ 64) :
    Transfers d offset size ↔ d.size ≤ offset ∨ offset + size < 2 ^ 64 := by
  constructor
  · intro h
    by_contra hbad
    have hneg : (d.read offset size).1 < 0 := read_wrapped (by omega) hsize (by omega)
    rw [h.read] at hneg
    exact absurd hneg (by simp only; omega)
  · rintro (hbehind | hsum)
    · exact transfers_behind hbehind
    · rcases Nat.lt_or_ge offset d.size with hoff | hoff
      · exact transfers_of_lt hoff hsum
      · exact transfers_behind hoff

end Ramdisk

namespace Tarfs
variable {d : Ramdisk} {stack : Stack} {filename : List UInt8} {m : Memory}
  {cursor filelen offset size fuel s r n : Nat}

/-- What the disk holds of the data behind the header at `cursor`. -/
def fileBytes (d : Ramdisk) (cursor filelen : Nat) : List UInt8 :=
  readBytes d.memory (cursor + 512) (min filelen (d.size - (cursor + 512)))

/-- `tarfs_read` transfers what the file has from `offset` on, at most `size` bytes, and these
bytes are the file's. -/
def FileTransfers (d : Ramdisk) (filename : List UInt8) (stack : Stack)
    (fuel cursor filelen offset size : Nat) : Prop :=
  ∃ bs : List UInt8, tarfsRead d stack fuel filename offset size = some ((bs.length : Int), bs) ∧
    bs.length = min size (filelen - offset) ∧
    bs = ((fileBytes d cursor filelen).drop offset).take (min size (filelen - offset))

theorem octLoop_lt (hr : r < 2 ^ 64) (h : octLoop m fuel s r = some n) : n < 2 ^ 64 := by
  induction fuel generalizing s r with
  | zero => cases h
  | succ fuel ih =>
    unfold octLoop at h
    split_ifs at h with hnul
    · cases h
      exact hr
    · refine ih ?_ h
      unfold octStep
      omega

theorem scan_found (h : scan d stack filename fuel s = some (.found cursor filelen)) :
    cursor < d.size ∧ headerLen d stack cursor = some filelen ∧ filelen < 2 ^ 64 := by
  induction fuel generalizing s with
  | zero =>
    unfold scan at h
    split_ifs at h
    cases h
  | succ fuel ih =>
    rcases Nat.lt_or_ge s d.size with hin | hend
    · obtain ⟨v, hlen⟩ := headerLen_returns d stack hin
      rw [scan_succ hin hlen] at h
      split_ifs at h with hmiss
      · exact ih h
      · cases h
        exact ⟨hin, hlen, octLoop_lt (by omega) hlen⟩
    · rw [scan_end hend] at h
      cases h

theorem tarfsRead_found (hfound : scan d stack filename fuel 0 = some (.found cursor filelen))
    (hoff : offset < filelen) : tarfsRead d stack fuel filename offset size =
      some (d.read ((cursor + 512 + offset) % 2 ^ 64) (clampSize filelen offset size)) := by
  unfold tarfsRead
  simp only [hfound, if_neg (Nat.not_le.mpr hoff), Nat.mod_add_mod]

theorem fileBytes_length : (fileBytes d cursor filelen).length = min filelen
    (d.size - (cursor + 512)) :=
  readBytes_length

theorem read_fileBytes (hin : cursor + 512 + offset + n ≤ d.size) (hn : offset + n ≤ filelen) :
    readBytes d.memory (cursor + 512 + offset) n =
      ((fileBytes d cursor filelen).drop offset).take n := by
  apply readBytes_contents
  · rw [stored_iff, fileBytes_length]
    rfl
  · rw [fileBytes_length]
    omega

theorem read_nothing (d : Ramdisk) (s : Nat) : d.read s 0 = (0, []) := by
  have hlt := d.size_lt
  rcases Nat.lt_or_ge s d.size with hin | hend
  · rw [Ramdisk.read_eq hin (by omega), Nat.zero_min]
    rfl
  · exact if_pos hend

theorem fileTransfers_behind (hfound : scan d stack filename fuel 0 = some (.found cursor filelen))
    (hoff : filelen ≤ offset) : FileTransfers d filename stack fuel cursor filelen offset size := by
  refine ⟨[], ?_, ?_, ?_⟩
  · unfold tarfsRead
    simp only [hfound, if_pos hoff]
    rfl
  · rw [Nat.sub_eq_zero_of_le hoff, Nat.min_zero]
    rfl
  · rw [Nat.sub_eq_zero_of_le hoff, Nat.min_zero, List.take_zero]

theorem fileTransfers_of_lt (hfound : scan d stack filename fuel 0 = some (.found cursor filelen))
    (hoff : offset < filelen) (hsum : offset + size < 2 ^ 64)
    (hin : size = 0 ∨ cursor + 512 + offset + min size (filelen - offset) ≤ d.size) :
    FileTransfers d filename stack fuel cursor filelen offset size := by
  have hlt := d.size_lt
  have hclamp := Ramdisk.clampSize_eq (Nat.le_of_lt hoff) hsum
  unfold FileTransfers
  rw [tarfsRead_found hfound hoff, hclamp]
  rcases Nat.eq_zero_or_pos size with rfl | hpos
  · refine ⟨[], ?_, ?_, ?_⟩
    · rw [Nat.zero_min, read_nothing]
      rfl
    · rw [Nat.zero_min]
      rfl
    · rw [Nat.zero_min, List.take_zero]
  · have hcursor : (cursor + 512 + offset) % 2 ^ 64 = cursor + 512 + offset :=
      Nat.mod_eq_of_lt (by omega)
    have hmin : min (min size (filelen - offset)) (d.size - (cursor + 512 + offset)) =
        min size (filelen - offset) := by omega
    refine ⟨readBytes d.memory (cursor + 512 + offset) (min size (filelen - offset)), ?_, ?_, ?_⟩
    · rw [hcursor, Ramdisk.read_eq (by omega) (by omega), hmin, readBytes_length]
    · exact readBytes_length
    · exact read_fileBytes (by omega) (by omega)

theorem FileTransfers.inside (h : FileTransfers d filename stack fuel cursor filelen offset size)
    (hfound : scan d stack filename fuel 0 = some (.found cursor filelen)) (hoff : offset < filelen)
    (hsize : size < 2 ^ 64) : offset + size < 2 ^ 64 ∧
      (size = 0 ∨ cursor + 512 + offset + min size (filelen - offset) ≤ d.size) := by
  obtain ⟨bs, hread, hlen, hbytes⟩ := h
  obtain ⟨_, _, hword⟩ := scan_found hfound
  have hlt := d.size_lt
  have htake := congrArg List.length hbytes
  rw [List.length_take, List.length_drop, fileBytes_length, hlen] at htake
  have hin : size = 0 ∨ cursor + 512 + offset + min size (filelen - offset) ≤ d.size := by omega
  refine ⟨?_, hin⟩
  by_contra hwrap
  have hpos : (cursor + 512 + offset) % 2 ^ 64 = cursor + 512 + offset :=
    Nat.mod_eq_of_lt (by omega)
  have hkeep : clampSize filelen offset size = size := by
    unfold clampSize
    rw [if_neg (by omega)]
  have hneg : (d.read (cursor + 512 + offset) size).1 < 0 :=
    Ramdisk.read_wrapped (by omega) hsize (by omega)
  rw [tarfsRead_found hfound hoff, hpos, hkeep] at hread
  rw [Option.some.inj hread] at hneg
  simp only at hneg
  omega

theorem fileTransfers_iff (hfound : scan d stack filename fuel 0 = some (.found cursor filelen))
    (hsize : size < 2 ^ 64) : FileTransfers d filename stack fuel cursor filelen offset size ↔
      filelen ≤ offset ∨ (offset + size < 2 ^ 64 ∧
        (size = 0 ∨ cursor + 512 + offset + min size (filelen - offset) ≤ d.size)) := by
  rcases Nat.lt_or_ge offset filelen with hoff | hoff
  · constructor
    · exact fun h => Or.inr (h.inside hfound hoff hsize)
    · rintro (hbehind | ⟨hsum, hin⟩)
      · omega
      · exact fileTransfers_of_lt hfound hoff hsum hin
  · exact ⟨fun _ => Or.inl hoff, fun _ => fileTransfers_behind hfound hoff⟩

/-- Transfers are clamped exactly when no sum wraps, and for a file when the part that is asked
for is on the disk. -/
theorem transfers_clamped_iff (d : Ramdisk) (offset size : Nat) (hsize : size < 2 ^ 64) :
    (d.Transfers offset size ↔ d.size ≤ offset ∨ offset + size < 2 ^ 64) ∧
    ∀ stack filename fuel cursor filelen,
      scan d stack filename fuel 0 = some (.found cursor filelen) →
      (FileTransfers d filename stack fuel cursor filelen offset size ↔
        filelen ≤ offset ∨ (offset + size < 2 ^ 64 ∧
          (size = 0 ∨ cursor + 512 + offset + min size (filelen - offset) ≤ d.size))) :=
  ⟨Ramdisk.transfers_iff hsize, fun _ _ _ _ _ hfound => fileTransfers_iff hfound hsize⟩

/-- The second file of two, from its second byte on. -/
theorem transfers_clamped_iff_two : ∃ (d : Ramdisk) (cursor : Nat),
    scan d zeroStack [98] 7 0 = some (.found cursor 2) ∧ d.Transfers 1 10 ∧
    FileTransfers d [98] zeroStack 7 cursor 2 1 10 := by
  have hfuel : twoFiles.disk.size / 512 + 1 ≤ 7 := Nat.le_of_eq (by rw [twoFiles_size])
  have hfinds : ∃ pos, scan twoFiles.disk zeroStack [98] 7 0 = some (.found pos 2) ∧
      Stored twoFiles.disk.memory (pos + 512) [100, 101] ∧ pos + 512 + 2 ≤ twoFiles.disk.size :=
    twoFiles.openedOn.finds zeroStack (List.cons_ne_nil 98 []) (by simp) hfuel
  obtain ⟨pos, hscan, _, hin⟩ := hfinds
  obtain ⟨hdisk, hfile⟩ := transfers_clamped_iff twoFiles.disk 1 10 (by omega)
  exact ⟨twoFiles.disk, pos, hscan, hdisk.mpr (.inr (by omega)),
    (hfile _ _ _ _ _ hscan).mpr (.inr ⟨by omega, .inr (by omega)⟩)⟩

/-- From byte 1 of 512 on a read of `2 ^ 64 - 1` bytes returns `-1`. -/
theorem wrapping_read_not_clamped : ¬ ∀ (d : Ramdisk) (offset size : Nat), offset < 2 ^ 64 →
    size < 2 ^ 64 → d.Transfers offset size ∧
      ∀ stack filename fuel cursor filelen,
        scan d stack filename fuel 0 = some (.found cursor filelen) →
        FileTransfers d filename stack fuel cursor filelen offset size := by
  intro hclaim
  have hread := congrArg Prod.fst (hclaim endlessDisk 1 (2 ^ 64 - 1) (by omega) (by omega)).1.read
  have hresult : (endlessDisk.read 1 (2 ^ 64 - 1)).1 = -1 := rfl
  have hcount : endlessDisk.available 1 (2 ^ 64 - 1) = 511 := rfl
  rw [hresult, hcount] at hread
  exact absurd hread (by omega)

end Tarfs

end OsdevCourse
