import OsdevCourse.Tarfs

/-!
# Tar archives

An archive is a list of entries, each a header and the contents padded to whole blocks,
and after them blocks of zeros. An entry carries the proof that its header states its name
and its length; the other bytes of the header are anything. What `tarfs_fstat` and
`tarfs_read` say about a ramdisk that holds an archive is what the list of entries says.
-/

namespace OsdevCourse.Tarfs

set_option autoImplicit false

open Memory

/-- The value of octal digits. -/
def octalValue (ds : List UInt8) : Nat := ds.foldl (fun r b => 8 * r + (b.toNat - 48)) 0

def OctalDigit (b : UInt8) : Prop := 48 ≤ b.toNat ∧ b.toNat ≤ 55

structure Entry where
  name : List UInt8
  digits : List UInt8
  header : List UInt8
  contents : List UInt8
  header_length : header.length = 512
  name_length : 1 ≤ name.length ∧ name.length ≤ 99
  name_nonzero : ∀ b ∈ name, b ≠ 0
  name_stored : name ++ [0] <+: header
  digits_length : digits.length ≤ 11
  digits_octal : ∀ b ∈ digits, OctalDigit b
  digits_stored : digits ++ [0] <+: header.drop filelenOffset
  digits_value : octalValue digits = contents.length

/-- The zeros that fill the last block of a file. -/
def padding (n : Nat) : List UInt8 := List.replicate ((n + 511) / 512 * 512 - n) 0

def Entry.bytes (e : Entry) : List UInt8 := e.header ++ (e.contents ++ padding e.contents.length)

def encode (es : List Entry) : List UInt8 := es.flatMap Entry.bytes

structure Archive where
  entries : List Entry
  blocks : Nat
  small : (encode entries ++ List.replicate (512 * blocks) 0).length < 2 ^ 32

def Archive.bytes (x : Archive) : List UInt8 :=
  encode x.entries ++ List.replicate (512 * x.blocks) 0

/-- The ramdisk has been opened on the archive. -/
structure OpenedOn (d : Ramdisk) (x : Archive) : Prop where
  size_eq : d.size = x.bytes.length
  stored : Stored d.memory 0 x.bytes

variable {m : Memory} {a r fuel cursor k : Nat} {ds query : List UInt8} {e : Entry}
  {es : List Entry} {d : Ramdisk} {stack : Stack}

/-! ### One header -/

theorem octStep_digit {b : UInt8} (hb : OctalDigit b) (hr : 8 * (r + 1) ≤ 2 ^ 64) :
    octStep r b = 8 * r + (b.toNat - 48) := by
  obtain ⟨hlo, hhi⟩ := hb
  unfold octStep char
  rw [if_pos (by omega)]
  omega

theorem octLoop_digits (hstored : Stored m a (ds ++ [0])) (hds : ∀ b ∈ ds, OctalDigit b)
    (hr : 8 ^ ds.length * (r + 1) ≤ 2 ^ 64) (hfuel : ds.length < fuel) :
    octLoop m fuel a r = some (ds.foldl (fun r b => 8 * r + (b.toNat - 48)) r) := by
  induction ds generalizing a r fuel with
  | nil =>
    obtain ⟨n, rfl⟩ : ∃ n, fuel = n + 1 := ⟨fuel - 1, by omega⟩
    have hnul : m a = 0 := hstored.1
    simp [octLoop, hnul]
  | cons b ds ih =>
    rw [List.length_cons] at hr hfuel
    obtain ⟨n, rfl⟩ : ∃ n, fuel = n + 1 := ⟨fuel - 1, by omega⟩
    obtain ⟨hb, hrest⟩ := hstored
    have hdigit := hds b List.mem_cons_self
    have hnz : b ≠ 0 := by
      rintro rfl
      exact absurd hdigit.1 (by decide)
    have hpow : 1 ≤ 8 ^ ds.length := Nat.one_le_pow _ _ (by omega)
    have hstep : octStep r b = 8 * r + (b.toNat - 48) := by
      apply octStep_digit hdigit
      refine Nat.le_trans ?_ hr
      rw [Nat.pow_succ, Nat.mul_assoc]
      exact Nat.le_mul_of_pos_left _ hpow
    have hnext : 8 ^ ds.length * (octStep r b + 1) ≤ 2 ^ 64 := by
      refine Nat.le_trans ?_ hr
      rw [Nat.pow_succ, Nat.mul_assoc]
      apply Nat.mul_le_mul_left
      have hhi := hdigit.2
      omega
    simp only [octLoop, hb, if_neg hnz]
    rw [ih hrest (fun x hx => hds x (List.mem_cons_of_mem b hx)) hnext (by omega), hstep]
    rfl

theorem stored_header {bs : List UInt8} (hlen : bs.length = 512)
    (hstored : Stored d.memory cursor bs)
    (hin : cursor + 512 ≤ d.size) : Stored (header d stack cursor) 0 (bs.take 511) := by
  have hlt := d.size_lt
  have hread := stored_iff.mp (hstored.mono (List.take_prefix 511 bs))
  have hcount : (bs.take 511).length = 511 := by
    rw [List.length_take, hlen]
    rfl
  rw [hcount] at hread
  unfold header
  rw [Ramdisk.read_eq (by omega) (by omega), Nat.min_eq_left (by omega), hread]
  exact stored_writeBytes

theorem stored_field {bs fs : List UInt8} {n : Nat}
    (hblock : Stored (header d stack cursor) 0 (bs.take 511))
    (hfield : fs <+: bs.drop n) (hend : n + fs.length ≤ 511) :
    Stored (header d stack cursor) n fs := by
  have hprefix : fs <+: (bs.take 511).drop n := by
    rw [List.drop_take]
    exact List.prefix_take_iff.mpr ⟨hfield, by omega⟩
  have hdrop := (hblock.drop n).mono hprefix
  rwa [Nat.zero_add] at hdrop

theorem headerLen_entry (hstored : Stored (header d stack cursor) 0 (e.header.take 511)) :
    headerLen d stack cursor = some e.contents.length := by
  have hlen := e.digits_length
  have hoff : filelenOffset = 124 := rfl
  have hdigits : Stored (header d stack cursor) filelenOffset (e.digits ++ [0]) := by
    apply stored_field hstored e.digits_stored
    rw [List.length_append, List.length_singleton]
    omega
  obtain ⟨i, hi, hlt, _⟩ := stack.nul 0
  have hpow : 8 ^ e.digits.length ≤ 8 ^ 11 := Nat.pow_le_pow_right (by omega) hlen
  rw [← e.digits_value]
  apply octLoop_digits hdigits e.digits_octal
  · omega
  · omega

theorem kstrcmp_entry (hstored : Stored (header d stack cursor) 0 (e.header.take 511))
    (hquery : ∀ c ∈ query, c ≠ 0) : kstrcmp (header d stack cursor) 0 query = 0 ↔
    query = e.name := by
  have hlen := e.name_length
  have hname : Stored (header d stack cursor) 0 (e.name ++ [0]) := by
    apply stored_field hstored e.name_stored
    rw [List.length_append, List.length_singleton]
    omega
  exact kstrcmp_eq_zero_iff hname e.name_nonzero hquery

theorem headerLen_zeros (hstored : Stored (header d stack cursor) 0 (List.replicate 511 0)) :
    headerLen d stack cursor = some 0 := by
  have hnul := (hstored.drop filelenOffset)
  rw [Nat.zero_add, List.drop_replicate] at hnul
  obtain ⟨i, hi, hlt, _⟩ := stack.nul 0
  obtain ⟨n, hn⟩ : ∃ n, stack.limit = n + 1 := ⟨stack.limit - 1, by omega⟩
  have hzero : header d stack cursor filelenOffset = 0 := hnul.1
  unfold headerLen oct2uint64
  rw [hn]
  simp [octLoop, hzero]

theorem kstrcmp_zeros (hstored : Stored (header d stack cursor) 0 (List.replicate 511 0))
    (hquery : query ≠ []) : kstrcmp (header d stack cursor) 0 query ≠ 0 := by
  have hzero : header d stack cursor 0 = 0 := hstored.1
  cases query with
  | nil => exact absurd rfl hquery
  | cons c cs => simp [kstrcmp, hzero]

/-! ### The headers one after the other -/

theorem Entry.bytes_length (e : Entry) :
    e.bytes.length = 512 + (e.contents.length + 511) / 512 * 512 := by
  have hheader := e.header_length
  simp only [Entry.bytes, padding, List.length_append, List.length_replicate, hheader]
  omega

theorem nextCursor_eq {n : Nat} (h : cursor + (512 + (n + 511) / 512 * 512) < 2 ^ 33) :
    nextCursor cursor n = cursor + (512 + (n + 511) / 512 * 512) := by
  unfold nextCursor roundBlock
  omega

theorem scan_zeros (hsize : d.size = cursor + 512 * k)
    (hstored : Stored d.memory cursor (List.replicate (512 * k) 0)) (hquery : query ≠ [])
    (hfuel : k ≤ fuel) : scan d stack query fuel cursor = some .missing := by
  induction k generalizing cursor fuel with
  | zero => exact scan_end (by omega)
  | succ k ih =>
    obtain ⟨n, rfl⟩ : ∃ n, fuel = n + 1 := ⟨fuel - 1, by omega⟩
    have hlt := d.size_lt
    rw [Nat.mul_succ, Nat.add_comm, ← List.replicate_append_replicate, stored_append,
      List.length_replicate] at hstored
    have hheader : Stored (header d stack cursor) 0 (List.replicate 511 0) := by
      have hblock : Stored (header d stack cursor) 0 ((List.replicate 512 0).take 511) :=
        stored_header List.length_replicate hstored.1 (by omega)
      rwa [List.take_replicate] at hblock
    have hnext : nextCursor cursor 0 = cursor + 512 := nextCursor_eq (by omega)
    rw [scan_succ (by omega) (headerLen_zeros hheader),
      if_pos (kstrcmp_zeros hheader hquery), hnext]
    exact ih (by omega) hstored.2 (by omega)

/-- What a scan finds: the first entry of the name with its contents behind the header, or
nothing when no entry has the name. -/
def Finds (d : Ramdisk) (query : List UInt8) (es : List Entry) (result : Option Scan) : Prop :=
  match es.find? fun e => e.name = query with
  | none => result = some .missing
  | some e => ∃ pos, result = some (.found pos e.contents.length) ∧
      Stored d.memory (pos + 512) e.contents ∧ pos + 512 + e.contents.length ≤ d.size

theorem scan_finds (hsize : d.size = cursor + (encode es ++ List.replicate (512 * k) 0).length)
    (hstored : Stored d.memory cursor (encode es ++ List.replicate (512 * k) 0))
    (hquery : query ≠ []) (hchars : ∀ c ∈ query, c ≠ 0) (hfuel : es.length + k ≤ fuel) :
    Finds d query es (scan d stack query fuel cursor) := by
  induction es generalizing cursor fuel with
  | nil =>
    simp only [encode, List.flatMap_nil, List.nil_append, List.length_replicate] at hsize hstored
    exact scan_zeros hsize hstored hquery (by simpa using hfuel)
  | cons e es ih =>
    rw [List.length_cons] at hfuel
    obtain ⟨n, rfl⟩ : ∃ n, fuel = n + 1 := ⟨fuel - 1, by omega⟩
    have hlt := d.size_lt
    have hbytes := e.bytes_length
    have hsplit : encode (e :: es) ++ List.replicate (512 * k) 0 =
        e.bytes ++ (encode es ++ List.replicate (512 * k) 0) := by
      simp only [encode, List.flatMap_cons, List.append_assoc]
    rw [hsplit, List.length_append] at hsize
    rw [hsplit, stored_append] at hstored
    obtain ⟨hentry, hrest⟩ := hstored
    unfold Entry.bytes at hentry
    rw [stored_append, stored_append, e.header_length] at hentry
    obtain ⟨hhead, hcontents, _⟩ := hentry
    have hheader : Stored (header d stack cursor) 0 (e.header.take 511) :=
      stored_header e.header_length hhead (by omega)
    have hcmp := kstrcmp_entry hheader hchars
    unfold Finds
    rw [List.find?_cons, scan_succ (by omega) (headerLen_entry hheader)]
    by_cases hname : query = e.name
    · have heq : e.name = query := hname.symm
      rw [if_neg (not_not.mpr (hcmp.mpr hname))]
      simp only [heq, decide_true]
      exact ⟨cursor, rfl, hcontents, by omega⟩
    · have hne : ¬ e.name = query := fun heq => hname heq.symm
      have hnext : nextCursor cursor e.contents.length = cursor + e.bytes.length := by
        rw [hbytes]
        exact nextCursor_eq (by omega)
      have hmiss : kstrcmp (header d stack cursor) 0 query ≠ 0 := fun h => hname (hcmp.mp h)
      rw [if_pos hmiss, hnext]
      simp only [hne, decide_false]
      exact ih (by omega) hrest (by omega)

/-! ### Reading back -/

theorem headers_le (es : List Entry) (k : Nat) :
    512 * (es.length + k) ≤ (encode es ++ List.replicate (512 * k) 0).length := by
  induction es with
  | nil => simp [encode]
  | cons e es ih =>
    have hbytes := e.bytes_length
    simp only [encode, List.flatMap_cons, List.append_assoc, List.length_append, List.length_cons,
      List.length_replicate] at ih ⊢
    omega

theorem OpenedOn.finds {x : Archive} (stack : Stack) (h : OpenedOn d x) (hquery : query ≠ [])
    (hchars : ∀ c ∈ query, c ≠ 0) (hfuel : d.size / 512 + 1 ≤ fuel) :
    Finds d query x.entries (scan d stack query fuel 0) := by
  have hsize := h.size_eq
  have hheaders := headers_le x.entries x.blocks
  unfold Archive.bytes at hsize
  apply scan_finds _ h.stored hquery hchars
  · omega
  · rw [hsize, Nat.zero_add]

theorem readBytes_contents {p offset n : Nat} {bs : List UInt8} (hstored : Stored m p bs)
    (hin : offset + n ≤ bs.length) : readBytes m (p + offset) n = (bs.drop offset).take n := by
  have hdrop := hstored.drop offset
  have htake := hdrop.mono (List.take_prefix n _)
  have hlen : ((bs.drop offset).take n).length = n := by
    rw [List.length_take, List.length_drop]
    omega
  have hread := stored_iff.mp htake
  rwa [hlen] at hread

/-- Whatever the contents and the other bytes of the headers are, the file system tells the
length of the first entry of a name and reads back any part of its contents. -/
theorem archive_reads_back {x : Archive} (stack : Stack) (hopen : OpenedOn d x)
    (hquery : query ≠ [])
    (hchars : ∀ c ∈ query, c ≠ 0) (hfuel : d.size / 512 + 1 ≤ fuel) :
    tarfsFstat d stack fuel query =
        some ((x.entries.find? fun e => e.name = query).map fun e => e.contents.length) ∧
      ∀ offset size, offset + size < 2 ^ 64 →
        tarfsRead d stack fuel query offset size =
          some (match x.entries.find? fun e => e.name = query with
            | none => (0, [])
            | some e => (((min size (e.contents.length - offset) : Nat) : Int),
                (e.contents.drop offset).take (min size (e.contents.length - offset)))) := by
  have hfinds := hopen.finds stack hquery hchars hfuel
  unfold Finds at hfinds
  unfold tarfsFstat tarfsRead
  cases hentry : x.entries.find? fun e => e.name = query with
  | none =>
    simp only [hentry] at hfinds
    simp only [hfinds]
    exact ⟨rfl, fun _ _ _ => trivial⟩
  | some e =>
    simp only [hentry] at hfinds
    obtain ⟨pos, hscan, hstored, hin⟩ := hfinds
    simp only [hscan]
    refine ⟨rfl, fun offset size hsum => ?_⟩
    have hlt := d.size_lt
    split_ifs with hoff
    · rw [Nat.sub_eq_zero_of_le hoff, Nat.min_zero]
      rfl
    · have hclamp := Ramdisk.clampSize_eq (Nat.le_of_lt (Nat.not_le.mp hoff)) hsum
      have hcursor : ((pos + 512) % 2 ^ 64 + offset) % 2 ^ 64 = pos + 512 + offset := by omega
      simp only [hclamp, hcursor]
      rw [Ramdisk.read_eq (by omega) (by omega)]
      have hmin : min (min size (e.contents.length - offset)) (d.size - (pos + 512 + offset)) =
          min size (e.contents.length - offset) := by omega
      rw [hmin, readBytes_contents hstored (by omega)]

/-- The disk whose bytes are those of the archive, and zeros behind them. -/
def Archive.disk (x : Archive) : Ramdisk where
  memory i := x.bytes.getD i 0
  size := x.bytes.length
  size_lt := x.small

theorem Archive.openedOn (x : Archive) : OpenedOn x.disk x where
  size_eq := rfl
  stored := by
    rw [stored_iff]
    apply List.ext_getElem
    · exact readBytes_length
    · intro i _ hi
      simp only [readBytes, List.getElem_map, List.getElem_range, Nat.zero_add, Archive.disk]
      rw [List.getD_eq_getElem?_getD, List.getElem?_eq_getElem hi, Option.getD_some]

/-- A file `a` that holds the three bytes `abc`. -/
def abcEntry : Entry where
  name := [97]
  digits := [51]
  header := [97] ++ (List.replicate 123 0 ++ ([51] ++ List.replicate 387 0))
  contents := [97, 98, 99]
  header_length := by
    simp only [List.length_append, List.length_replicate, List.length_singleton]
  name_length := by decide
  name_nonzero := by simp
  name_stored := ⟨List.replicate 122 0 ++ ([51] ++ List.replicate 387 0), rfl⟩
  digits_length := by decide
  digits_octal := by simp [OctalDigit]
  digits_stored := ⟨List.replicate 386 0, rfl⟩
  digits_value := rfl

def zeroStack : Stack where
  bytes _ _ := 0
  limit := 513
  nul _ := ⟨512, by omega, by omega, rfl⟩

/-- A file `b` that holds the two bytes `de`. -/
def deEntry : Entry where
  name := [98]
  digits := [48, 50]
  header := [98] ++ (List.replicate 123 0 ++ ([48, 50] ++ List.replicate 386 0))
  contents := [100, 101]
  header_length := by
    simp only [List.length_append, List.length_replicate, List.length_cons, List.length_nil]
  name_length := by decide
  name_nonzero := by simp
  name_stored := ⟨List.replicate 122 0 ++ ([48, 50] ++ List.replicate 386 0), rfl⟩
  digits_length := by decide
  digits_octal := by simp [OctalDigit]
  digits_stored := ⟨List.replicate 385 0, rfl⟩
  digits_value := rfl

/-- Two files, and two blocks of zeros. -/
def twoFiles : Archive where
  entries := [abcEntry, deEntry]
  blocks := 2
  small := by
    have hfirst : abcEntry.bytes.length = 1024 := abcEntry.bytes_length
    have hsecond : deEntry.bytes.length = 1024 := deEntry.bytes_length
    simp only [encode, List.flatMap_cons, List.flatMap_nil, List.append_nil, List.length_append,
      List.length_replicate, hfirst, hsecond]
    omega

theorem twoFiles_size : twoFiles.disk.size = 3072 := by
  have hfirst : abcEntry.bytes.length = 1024 := abcEntry.bytes_length
  have hsecond : deEntry.bytes.length = 1024 := deEntry.bytes_length
  show (encode [abcEntry, deEntry] ++ List.replicate (512 * 2) 0).length = 3072
  simp only [encode, List.flatMap_cons, List.flatMap_nil, List.append_nil, List.length_append,
    List.length_replicate, hfirst, hsecond]

/-- The length of the first file, the end of the second one, and no third one. -/
theorem archive_reads_back_abc : ∃ x : Archive, x.entries = [abcEntry, deEntry] ∧
    tarfsFstat x.disk zeroStack 7 [97] = some (some 3) ∧
    tarfsRead x.disk zeroStack 7 [98] 1 10 = some (1, [101]) ∧
    tarfsFstat x.disk zeroStack 7 [99] = some none := by
  have hfuel : twoFiles.disk.size / 512 + 1 ≤ 7 := Nat.le_of_eq (by rw [twoFiles_size])
  obtain ⟨hfirst, _⟩ := archive_reads_back zeroStack twoFiles.openedOn (List.cons_ne_nil 97 [])
    (by simp) hfuel
  obtain ⟨_, hsecond⟩ := archive_reads_back zeroStack twoFiles.openedOn (List.cons_ne_nil 98 [])
    (by simp) hfuel
  obtain ⟨hthird, _⟩ := archive_reads_back zeroStack twoFiles.openedOn (List.cons_ne_nil 99 [])
    (by simp) hfuel
  exact ⟨twoFiles, rfl, hfirst, hsecond 1 10 (by omega), hthird⟩

end OsdevCourse.Tarfs
