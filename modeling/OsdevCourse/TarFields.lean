import Mathlib.Data.List.GetD
import OsdevCourse.CString
import OsdevCourse.DiskTransfers

/-!
# The fields of a header

`kstrcmp` and `oct2uint64` read up to a NUL and know nothing of the width of the field they
begin in. The fields of a header that tell its name and its length are two: what they say
is said here by their own bytes. The bytes beside them are the other fields, and two disks
with the same fields differ in such bytes only.
-/

namespace OsdevCourse.Tarfs

set_option autoImplicit false

open Memory

variable {d d' : Ramdisk} {stack : Stack} {query filename : List UInt8} {m : Memory}
  {a c i j k n r fuel : Nat} {bs ds : List UInt8}

instance : DecidablePred OctalDigit := fun b =>
  inferInstanceAs (Decidable (48 ≤ b.toNat ∧ b.toNat ≤ 55))

/-- The 100 bytes of `filename`. -/
def nameBytes (d : Ramdisk) (c : Nat) : List UInt8 := readBytes d.memory c 100

/-- The 12 bytes of `filelen`. -/
def lengthBytes (d : Ramdisk) (c : Nat) : List UInt8 := readBytes d.memory (c + filelenOffset) 12

/-- The name up to its NUL, or all 100 bytes. -/
def fieldName (d : Ramdisk) (c : Nat) : List UInt8 := chars (nameBytes d c)

/-- The value of the octal digits up to a NUL, a blank or the end of the field. -/
def fieldLength (d : Ramdisk) (c : Nat) : Nat :=
  octalValue (((lengthBytes d c).takeWhile fun b => b ≠ 0 ∧ b ≠ 32).filter fun b => OctalDigit b)

/-- The places of the headers, as the lengths in their fields give them. -/
def headerPos (d : Ramdisk) : Nat → Nat
  | 0 => 0
  | k + 1 => headerPos d k + 512 + (fieldLength d (headerPos d k) + 511) / 512 * 512

/-- The offsets in a header that belong to neither of the two fields. -/
def Neighbour (i : Nat) : Prop := (100 ≤ i ∧ i < 124) ∨ (136 ≤ i ∧ i < 511)

instance : DecidablePred Neighbour := fun _ => inferInstanceAs (Decidable (_ ∨ _))

/-- The disks differ only in bytes of headers beside the two fields. -/
structure SameFields (d d' : Ramdisk) : Prop where
  size_eq : d'.size = d.size
  rest : ∀ a, d'.memory a ≠ d.memory a →
    ∃ k, headerPos d k < d.size ∧ headerPos d k ≤ a ∧ Neighbour (a - headerPos d k)

/-- What the two functions make of a header is what its fields say. -/
structure Judged (d : Ramdisk) (stack : Stack) (query : List UInt8) (c : Nat) : Prop where
  name : kstrcmp (header d stack c) 0 query = 0 ↔ query = fieldName d c
  length : headerLen d stack c = some (fieldLength d c)

/-- On every disk with the same fields the headers that are looked into are judged by their
fields, and every call has the same result. -/
structure JudgedByFields (d : Ramdisk) (stack : Stack) (query : List UInt8) : Prop where
  judged : ∀ d', SameFields d d' → ∀ c, Visited d' stack query c → c < d'.size →
    Judged d' stack query c
  fstat : ∀ d', SameFields d d' → ∀ fuel,
    tarfsFstat d' stack fuel query = tarfsFstat d stack fuel query
  read : ∀ d', SameFields d d' → ∀ fuel offset size, offset < 2 ^ 64 → size < 2 ^ 64 →
    tarfsRead d' stack fuel query offset size = tarfsRead d stack fuel query offset size

/-- The strings that begin in the two fields end in them, as far as it matters for the query. A
name of 100 bytes is compared together with what follows it, so it must not begin the
query, unless the query does not go on as the string in the length field. -/
structure FieldsEnd (d : Ramdisk) (query : List UInt8) (c : Nat) : Prop where
  name : 0 ∈ nameBytes d c ∨ ¬ nameBytes d c <+: query ∨
    (124 ≤ query.length ∧ query.drop 124 ≠ chars (lengthBytes d c))
  length : 0 ∈ lengthBytes d c
  digits : (∀ b ∈ chars (lengthBytes d c), OctalDigit b) ∨
    (chars (lengthBytes d c)).foldl octStep 0 = fieldLength d c

/-! ### Strings and numbers -/

/-- `kstrcmp` gives 0 when the string at the address is the one it is compared with. -/
theorem kstrcmp_eq_zero_iff_cstr (hquery : ∀ c ∈ query, c ≠ 0) :
    kstrcmp m a query = 0 ↔ CStr m a query := by
  induction query generalizing a with
  | nil =>
    rw [CStr.nil_iff]
    by_cases hnul : m a = 0
    · simp [kstrcmp, hnul]
    · simp [kstrcmp, hnul]
  | cons c cs ih =>
    have hne : c ≠ 0 := hquery c List.mem_cons_self
    have htail := ih (a := a + 1) fun x hx => hquery x (List.mem_cons_of_mem c hx)
    rw [CStr.cons_iff, kstrcmp]
    by_cases hnul : m a = 0
    · rw [if_pos hnul, hnul]
      exact ⟨fun h => absurd h (by omega), fun h => absurd h.1.symm hne⟩
    · rw [if_neg hnul]
      by_cases heq : m a = c
      · rw [if_neg (not_not.mpr (char_eq_iff.mpr heq)), htail]
        exact ⟨fun h => ⟨heq, hne, h⟩, fun h => h.2.2⟩
      · have hdiff : char (m a) - char c ≠ 0 := fun h => heq (char_eq_iff.mp h)
        rw [if_pos hdiff]
        exact ⟨fun h => absurd h hdiff, fun h => absurd h.1 heq⟩

/-- The characters up to the NUL are taken as digits, whatever they are. -/
theorem octLoop_cstr (h : CStr m a bs) (hfuel : bs.length < fuel) :
    octLoop m fuel a r = some (bs.foldl octStep r) := by
  induction bs generalizing a r fuel with
  | nil =>
    obtain ⟨n, rfl⟩ : ∃ n, fuel = n + 1 := ⟨fuel - 1, by omega⟩
    have hnul : m a = 0 := CStr.nil_iff.mp h
    simp [octLoop, hnul]
  | cons b bs ih =>
    rw [List.length_cons] at hfuel
    obtain ⟨n, rfl⟩ : ∃ n, fuel = n + 1 := ⟨fuel - 1, by omega⟩
    obtain ⟨hb, hne, htail⟩ := CStr.cons_iff.mp h
    simp only [octLoop, hb, if_neg hne]
    exact ih htail (by omega)

theorem foldl_octStep_digits (hds : ∀ b ∈ ds, OctalDigit b)
    (hr : 8 ^ ds.length * (r + 1) ≤ 2 ^ 64) :
    ds.foldl octStep r = ds.foldl (fun r b => 8 * r + (b.toNat - 48)) r := by
  induction ds generalizing r with
  | nil => rfl
  | cons b ds ih =>
    have hdigit := hds b List.mem_cons_self
    have hpow : 1 ≤ 8 ^ ds.length := Nat.one_le_pow _ _ (by omega)
    rw [List.length_cons, Nat.pow_succ, Nat.mul_assoc] at hr
    have hstep : octStep r b = 8 * r + (b.toNat - 48) :=
      octStep_digit hdigit (Nat.le_trans (Nat.le_mul_of_pos_left _ hpow) hr)
    rw [List.foldl_cons, List.foldl_cons, hstep]
    apply ih
    · exact fun x hx => hds x (List.mem_cons_of_mem b hx)
    · refine Nat.le_trans (Nat.mul_le_mul_left _ ?_) hr
      have hhi := hdigit.2
      omega

theorem foldl_digits_lt (hds : ∀ b ∈ ds, OctalDigit b) :
    ds.foldl (fun r b => 8 * r + (b.toNat - 48)) r < 8 ^ ds.length * (r + 1) := by
  induction ds generalizing r with
  | nil => simp
  | cons b ds ih =>
    have hhi := (hds b List.mem_cons_self).2
    rw [List.foldl_cons, List.length_cons, Nat.pow_succ, Nat.mul_assoc]
    refine Nat.lt_of_lt_of_le (ih fun x hx => hds x (List.mem_cons_of_mem b hx)) ?_
    apply Nat.mul_le_mul_left
    omega

theorem getD_append_nul : (bs ++ [0]).getD i 0 = bs.getD i 0 := by
  rcases Nat.lt_or_ge i bs.length with hi | hi
  · exact List.getD_append _ _ _ _ hi
  · rw [List.getD_append_right _ _ _ _ hi, List.getD_eq_default _ _ hi]
    cases i - bs.length with
    | zero => rfl
    | succ j => rfl

theorem lengthBytes_length : (lengthBytes d c).length = 12 := readBytes_length

theorem fieldLength_lt : fieldLength d c < 2 ^ 36 := by
  unfold fieldLength octalValue
  refine Nat.lt_of_lt_of_le (foldl_digits_lt ?_) ?_
  · intro b hb
    exact of_decide_eq_true (List.mem_filter.mp hb).2
  · have hlen := Nat.le_trans (List.length_filter_le (fun b => decide (OctalDigit b)) _)
      (List.takeWhile_sublist (fun b => decide (b ≠ 0 ∧ b ≠ 32)) (l := lengthBytes d c)).length_le
    rw [lengthBytes_length] at hlen
    exact Nat.le_trans (Nat.mul_le_mul_right _ (Nat.pow_le_pow_right (by omega) hlen)) (by omega)

theorem chars_length_le (bs : List UInt8) : (chars bs).length ≤ bs.length :=
  (List.takeWhile_sublist _).length_le

/-- With digits only in front of the NUL the field has no blank there. -/
theorem takeWhile_digits (h : ∀ b ∈ chars bs, OctalDigit b) :
    (bs.takeWhile fun b => b ≠ 0 ∧ b ≠ 32) = chars bs := by
  induction bs with
  | nil => rfl
  | cons b bs ih =>
    by_cases hnul : b = 0
    · simp [chars, hnul]
    · have hkeep : chars (b :: bs) = b :: chars bs := by simp [chars, hnul]
      rw [hkeep] at h ⊢
      have hblank : b ≠ 32 := by
        rintro rfl
        exact absurd (h 32 List.mem_cons_self).1 (by decide)
      rw [← ih fun x hx => h x (List.mem_cons_of_mem b hx)]
      simp [hnul, hblank]

theorem foldl_chars_digits (hds : ∀ b ∈ chars (lengthBytes d c), OctalDigit b) :
    (chars (lengthBytes d c)).foldl octStep 0 = fieldLength d c := by
  have hlen : (chars (lengthBytes d c)).length ≤ 12 := chars_length_le _
  have hpow : 8 ^ (chars (lengthBytes d c)).length ≤ 8 ^ 12 := Nat.pow_le_pow_right (by omega) hlen
  have hall : (chars (lengthBytes d c)).filter (fun b => decide (OctalDigit b)) =
      chars (lengthBytes d c) := by
    rw [List.filter_eq_self]
    exact fun b hb => decide_eq_true (hds b hb)
  unfold fieldLength
  rw [takeWhile_digits hds, hall]
  exact foldl_octStep_digits hds (by omega)

theorem FieldsEnd.spelled (h : FieldsEnd d query c) :
    (chars (lengthBytes d c)).foldl octStep 0 = fieldLength d c := by
  rcases h.digits with hds | heq
  · exact foldl_chars_digits hds
  · exact heq

/-! ### One header -/

section Header
variable (hin : c + 512 ≤ d.size)
include hin

theorem header_field (hn : n < 511) : header d stack c n = d.memory (c + n) :=
  header_byte hn (by omega)

theorem readBytes_header {w : Nat} (hn : n + w ≤ 511) :
    readBytes (header d stack c) n w = readBytes d.memory (c + n) w := by
  apply List.map_congr_left
  intro i hi
  rw [List.mem_range] at hi
  rw [header_field hin (by omega), Nat.add_assoc]

theorem cstr_length (h : 0 ∈ lengthBytes d c) :
    CStr (header d stack c) filelenOffset (chars (lengthBytes d c)) := by
  have hread : readBytes (header d stack c) filelenOffset 12 = lengthBytes d c :=
    readBytes_header hin (by decide)
  have hstring : 0 ∈ readBytes (header d stack c) filelenOffset 12 := by
    rw [hread]
    exact h
  have hcstr := cstr_chars hstring
  rwa [hread] at hcstr

theorem headerLen_field (h : 0 ∈ lengthBytes d c) :
    headerLen d stack c = some ((chars (lengthBytes d c)).foldl octStep 0) := by
  obtain ⟨i, hi, hlt, _⟩ := stack.nul 0
  have hlen : (chars (lengthBytes d c)).length ≤ 12 := chars_length_le _
  exact octLoop_cstr (cstr_length hin h) (by omega)

theorem FieldsEnd.judged (hquery : ∀ x ∈ query, x ≠ 0) (h : FieldsEnd d query c) :
    Judged d stack query c := by
  have hread : readBytes (header d stack c) 0 100 = nameBytes d c :=
    readBytes_header hin (by omega)
  constructor
  · rw [kstrcmp_eq_zero_iff_cstr hquery]
    by_cases hnul : 0 ∈ nameBytes d c
    · have hname : CStr (header d stack c) 0 (fieldName d c) := by
        have hcstr := cstr_chars (hread.symm ▸ hnul)
        rwa [hread] at hcstr
      constructor
      · exact fun hcstr => hcstr.unique hname
      · rintro rfl
        exact hname
    · have hall : ∀ b ∈ nameBytes d c, b ≠ 0 := by
        rintro b hb rfl
        exact hnul hb
      have hfull : fieldName d c = nameBytes d c := chars_eq_self hall
      have hpre : CStr (header d stack c) 0 query → nameBytes d c <+: query := by
        intro hcstr
        rw [← hread]
        exact hcstr.isPrefix (hread.symm ▸ hall)
      rw [hfull]
      rcases h.name with hnul' | hother | ⟨hlong, hrest⟩
      · exact absurd hnul' hnul
      · constructor
        · exact fun hcstr => absurd (hpre hcstr) hother
        · rintro rfl
          exact absurd (List.prefix_refl _) hother
      · constructor
        · intro hcstr
          have hsplit : query.take 124 ++ query.drop 124 = query := List.take_append_drop 124 query
          rw [← hsplit] at hcstr
          have htail := hcstr.drop
          rw [List.length_take, Nat.min_eq_left hlong, Nat.zero_add] at htail
          exact absurd (htail.unique (cstr_length hin h.length)) hrest
        · rintro rfl
          have hlen : (nameBytes d c).length = 100 := readBytes_length
          omega
  · rw [headerLen_field hin h.length, h.spelled]

end Header

/-! ### The places of the headers -/

theorem headerPos_dvd (d : Ramdisk) (k : Nat) : 512 ∣ headerPos d k := by
  induction k with
  | zero => exact Nat.dvd_zero _
  | succ k ih =>
    rw [headerPos]
    omega

theorem headerPos_mono (d : Ramdisk) (h : j ≤ k) : headerPos d j ≤ headerPos d k := by
  induction h with
  | refl => exact Nat.le_refl _
  | step _ ih =>
    rw [headerPos]
    omega

theorem headerPos_step (d : Ramdisk) (k : Nat) :
    headerPos d k + 512 + fieldLength d (headerPos d k) ≤ headerPos d (k + 1) := by
  rw [headerPos]
  omega

theorem headerPos_lt (d : Ramdisk) (h : j < k) : headerPos d j + 512 ≤ headerPos d k := by
  have hstep := headerPos_step d j
  have hmono : headerPos d (j + 1) ≤ headerPos d k := headerPos_mono d h
  omega

theorem nextCursor_headerPos (h : headerPos d k < d.size) :
    nextCursor (headerPos d k) (fieldLength d (headerPos d k)) = headerPos d (k + 1) := by
  have hlt := d.size_lt
  have hlen : fieldLength d (headerPos d k) < 2 ^ 36 := fieldLength_lt
  rw [headerPos]
  unfold nextCursor roundBlock
  omega

theorem SameFields.refl (d : Ramdisk) : SameFields d d := ⟨rfl, fun _ h => absurd rfl h⟩

section Same
variable (h : SameFields d d')
include h

theorem SameFields.field_byte (hi : i < 512) (hfield : ¬ Neighbour i) :
    d'.memory (headerPos d k + i) = d.memory (headerPos d k + i) := by
  by_contra hne
  obtain ⟨j, _, hle, hnext⟩ := h.rest _ hne
  have hj := headerPos_dvd d j
  have hk := headerPos_dvd d k
  have hsame : headerPos d j = headerPos d k := by
    unfold Neighbour at hnext
    omega
  rw [hsame, Nat.add_sub_cancel_left] at hnext
  exact hfield hnext

theorem SameFields.data_byte (hlo : headerPos d k + 512 ≤ a) (hhi : a < headerPos d (k + 1)) :
    d'.memory a = d.memory a := by
  by_contra hne
  obtain ⟨j, _, hle, hnext⟩ := h.rest _ hne
  unfold Neighbour at hnext
  rcases Nat.lt_or_ge k j with hkj | hjk
  · have hmono : headerPos d (k + 1) ≤ headerPos d j := headerPos_mono d hkj
    omega
  · have hmono := headerPos_mono d hjk
    omega

theorem SameFields.readBytes_eq {w : Nat}
    (hfield : ∀ i, i < w → n + i < 512 ∧ ¬ Neighbour (n + i)) :
    readBytes d'.memory (headerPos d k + n) w = readBytes d.memory (headerPos d k + n) w := by
  apply List.map_congr_left
  intro i hi
  rw [List.mem_range] at hi
  obtain ⟨hlt, hnot⟩ := hfield i hi
  rw [Nat.add_assoc]
  exact h.field_byte hlt hnot

theorem SameFields.nameBytes_eq : nameBytes d' (headerPos d k) = nameBytes d (headerPos d k) := by
  apply h.readBytes_eq (n := 0)
  intro i hi
  unfold Neighbour
  omega

theorem SameFields.lengthBytes_eq :
    lengthBytes d' (headerPos d k) = lengthBytes d (headerPos d k) := by
  apply h.readBytes_eq
  intro i hi
  unfold Neighbour filelenOffset
  omega

theorem SameFields.fieldName_eq : fieldName d' (headerPos d k) = fieldName d (headerPos d k) := by
  unfold fieldName
  rw [h.nameBytes_eq]

theorem SameFields.fieldLength_eq :
    fieldLength d' (headerPos d k) = fieldLength d (headerPos d k) := by
  unfold fieldLength
  rw [h.lengthBytes_eq]

theorem SameFields.headerPos_eq (k : Nat) : headerPos d' k = headerPos d k := by
  induction k with
  | zero => rfl
  | succ k ih => rw [headerPos, headerPos, ih, h.fieldLength_eq]

end Same

/-! ### What has to hold of the fields -/

/-- The bytes of a header beside the two fields replaced by others. -/
def withRest (d : Ramdisk) (c : Nat) (rest : Nat → UInt8) : Ramdisk where
  memory a := if c ≤ a ∧ Neighbour (a - c) then rest (a - c) else d.memory a
  size := d.size
  size_lt := d.size_lt

theorem withRest_same {rest : Nat → UInt8} (hin : headerPos d k < d.size) :
    SameFields d (withRest d (headerPos d k) rest) := by
  refine ⟨rfl, fun a hne => ⟨k, hin, ?_⟩⟩
  by_contra hother
  exact hne (if_neg hother)

theorem withRest_byte {rest : Nat → UInt8} (hin : c + 512 ≤ d.size) (hn : n < 511) :
    header (withRest d c rest) stack c n = if Neighbour n then rest n else d.memory (c + n) := by
  have hbyte : header (withRest d c rest) stack c n = (withRest d c rest).memory (c + n) :=
    header_field hin hn
  rw [hbyte, withRest]
  simp only [Nat.le_add_right, Nat.add_sub_cancel_left, true_and]

section Necessary
variable (hin : headerPos d k + 512 ≤ d.size)
  (hall : ∀ d', SameFields d d' → Judged d' stack query (headerPos d k))
include hin

theorem stored_withRest_name (rest : Nat → UInt8) :
    Stored (header (withRest d (headerPos d k) rest) stack (headerPos d k)) 0
      (nameBytes d (headerPos d k)) := by
  have hsame : SameFields d (withRest d (headerPos d k) rest) := withRest_same (by omega)
  have hin' : headerPos d k + 512 ≤ (withRest d (headerPos d k) rest).size := hin
  have hread : readBytes (header (withRest d (headerPos d k) rest) stack (headerPos d k)) 0 100 =
      nameBytes (withRest d (headerPos d k) rest) (headerPos d k) :=
        readBytes_header hin' (by omega)
  rw [stored_iff]
  exact hread.trans hsame.nameBytes_eq

theorem stored_withRest_length (rest : Nat → UInt8) :
    Stored (header (withRest d (headerPos d k) rest) stack (headerPos d k)) filelenOffset
      (lengthBytes d (headerPos d k)) := by
  have hsame : SameFields d (withRest d (headerPos d k) rest) := withRest_same (by omega)
  have hin' : headerPos d k + 512 ≤ (withRest d (headerPos d k) rest).size := hin
  have hread : readBytes (header (withRest d (headerPos d k) rest) stack (headerPos d k))
      filelenOffset 12 = lengthBytes (withRest d (headerPos d k) rest) (headerPos d k) :=
    readBytes_header hin' (by decide)
  rw [stored_iff]
  exact hread.trans hsame.lengthBytes_eq

theorem withRest_neighbour {rest : Nat → UInt8} (hn : Neighbour n) :
    header (withRest d (headerPos d k) rest) stack (headerPos d k) n = rest n := by
  have hlt : n < 511 := by
    unfold Neighbour at hn
    omega
  rw [withRest_byte hin hlt, if_pos hn]

include hall

theorem lengthBytes_nul : 0 ∈ lengthBytes d (headerPos d k) := by
  by_contra hnul
  have hne : ∀ b ∈ lengthBytes d (headerPos d k), b ≠ 0 := by
    rintro b hb rfl
    exact hnul hb
  have hlonger : ∀ x : UInt8, x ≠ 0 →
      octStep ((lengthBytes d (headerPos d k)).foldl octStep 0) x = fieldLength d
          (headerPos d k) := by
    intro x hx
    obtain ⟨rest, hrest⟩ : ∃ rest : Nat → UInt8, rest = fun i =>
      if i = 136 then x else 0 := ⟨_, rfl⟩
    have hsame : SameFields d (withRest d (headerPos d k) rest) := withRest_same (by omega)
    have hfirst : header (withRest d (headerPos d k) rest) stack (headerPos d k) 136 = x := by
      rw [withRest_neighbour hin (Or.inr (by omega)), hrest]
      exact if_pos rfl
    have hend : header (withRest d (headerPos d k) rest) stack (headerPos d k) 137 = 0 := by
      rw [withRest_neighbour hin (Or.inr (by omega)), hrest]
      exact if_neg (by omega)
    have hstring : CStr (header (withRest d (headerPos d k) rest) stack (headerPos d k))
      filelenOffset
        (lengthBytes d (headerPos d k) ++ [x]) := by
      apply CStr.append (stored_withRest_length hin rest) hne
      rw [lengthBytes_length]
      exact CStr.cons_iff.mpr ⟨hfirst, hx, CStr.nil_iff.mpr hend⟩
    obtain ⟨i, hi, hlt, _⟩ := stack.nul 0
    have hroom : (lengthBytes d (headerPos d k) ++ [x]).length < stack.limit := by
      rw [List.length_append, lengthBytes_length, List.length_singleton]
      omega
    have hlen := octLoop_cstr (r := 0) hstring hroom
    have hjudged := (hall _ hsame).length
    rw [hsame.fieldLength_eq] at hjudged
    rw [List.foldl_append] at hlen
    exact Option.some.inj (hlen.symm.trans hjudged)
  have hone := (hlonger 49 (by decide)).trans (hlonger 50 (by decide)).symm
  have h49 : char 49 = 49 := by decide
  have h50 : char 50 = 50 := by decide
  unfold octStep at hone
  rw [h49, h50] at hone
  omega

theorem nameBytes_end (hquery : ∀ x ∈ query, x ≠ 0) : 0 ∈ nameBytes d (headerPos d k) ∨
    ¬ nameBytes d (headerPos d k) <+: query ∨
    (124 ≤ query.length ∧ query.drop 124 ≠ chars (lengthBytes d (headerPos d k))) := by
  by_contra hbad
  obtain ⟨hnul, hbad⟩ := not_or.mp hbad
  obtain ⟨hpre, hrest⟩ := not_or.mp hbad
  obtain ⟨tail, rfl⟩ := not_not.mp hpre
  have hne : ∀ b ∈ nameBytes d (headerPos d k), b ≠ 0 := by
    rintro b hb rfl
    exact hnul hb
  have hlen : (nameBytes d (headerPos d k)).length = 100 := readBytes_length
  have hfull : fieldName d (headerPos d k) = nameBytes d (headerPos d k) := chars_eq_self hne
  obtain ⟨rest, hfill⟩ : ∃ rest : Nat → UInt8,
      rest = fun i => if tail = [] then 1 else tail.getD (i - 100) 0 := ⟨_, rfl⟩
  have hsame : SameFields d (withRest d (headerPos d k) rest) := withRest_same (by omega)
  have hjudged := (hall _ hsame).name
  rw [kstrcmp_eq_zero_iff_cstr hquery, hsame.fieldName_eq, hfull] at hjudged
  have hname : Stored (header (withRest d (headerPos d k) rest) stack (headerPos d k)) 0
      (nameBytes d (headerPos d k)) := stored_withRest_name hin rest
  by_cases htail : tail = []
  · -- a character behind the name keeps it from being found
    subst htail
    have hcstr := (hjudged.mpr (List.append_nil _)).drop
    have hone : header (withRest d (headerPos d k) rest) stack (headerPos d k) 100 = 1 := by
      rw [withRest_neighbour hin (Or.inl (by omega)), hfill]
      exact if_pos rfl
    rw [hlen, Nat.zero_add, CStr.nil_iff, hone] at hcstr
    exact absurd hcstr (by decide)
  · -- the rest of the query behind the name makes it be found
    have hbyte : ∀ i, i < 24 →
        header (withRest d (headerPos d k) rest) stack (headerPos d k)
            (100 + i) = tail.getD i 0 := by
      intro i hi
      rw [withRest_neighbour hin (Or.inl (by omega)), hfill]
      simp only [if_neg htail, Nat.add_sub_cancel_left]
    have hne' : ∀ x ∈ tail, x ≠ 0 := fun x hx => hquery x (List.mem_append_right _ hx)
    have hbehind : CStr (header (withRest d (headerPos d k) rest) stack (headerPos d k))
        100 tail := by
      rcases Nat.lt_or_ge tail.length 24 with hshort | hlong
      · refine ⟨stored_iff_getD.mpr fun i hi => ?_, hne'⟩
        rw [List.length_append, List.length_singleton] at hi
        rw [hbyte i (by omega), getD_append_nul]
      · have hdrop : (nameBytes d (headerPos d k) ++ tail).drop 124 = tail.drop 24 := by
          have hsum : 124 = (nameBytes d (headerPos d k)).length + 24 := by rw [hlen]
          rw [hsum, List.drop_length_add_append]
        have hlong' : 124 ≤ (nameBytes d (headerPos d k) ++ tail).length := by
          rw [List.length_append]
          omega
        have hnumber : tail.drop 24 = chars (lengthBytes d (headerPos d k)) := by
          by_contra hother
          exact hrest ⟨hlong', hdrop ▸ hother⟩
        have hin' : headerPos d k + 512 ≤ (withRest d (headerPos d k) rest).size := hin
        have hlength : 0 ∈ lengthBytes d (headerPos d k) := lengthBytes_nul hin hall
        rw [← hsame.lengthBytes_eq] at hlength hnumber
        have hsplit : tail.take 24 ++ tail.drop 24 = tail := List.take_append_drop 24 tail
        have hfirst : (tail.take 24).length = 24 := by
          rw [List.length_take]
          omega
        rw [← hsplit]
        apply CStr.append
        · rw [stored_iff_getD, hfirst]
          intro i hi
          rw [hbyte i hi]
          simp [List.getD_eq_getElem?_getD, hi]
        · exact fun x hx => hne' x (List.mem_of_mem_take hx)
        · rw [hfirst, hnumber]
          exact cstr_length hin' hlength
    have hstring : CStr (header (withRest d (headerPos d k) rest) stack (headerPos d k)) 0
        (nameBytes d (headerPos d k) ++ tail) := by
      apply CStr.append hname hne
      rw [hlen]
      exact hbehind
    have heq := congrArg List.length (hjudged.mp hstring)
    rw [List.length_append] at heq
    exact htail (List.eq_nil_of_length_eq_zero (by omega))

theorem fieldsEnd_of_judged (hquery : ∀ x ∈ query, x ≠ 0) : FieldsEnd d query (headerPos d k) := by
  have hnul : 0 ∈ lengthBytes d (headerPos d k) := lengthBytes_nul hin hall
  refine ⟨nameBytes_end hin hall hquery, hnul, Or.inr ?_⟩
  have hlen := (hall d (.refl d)).length
  exact Option.some.inj ((headerLen_field hin hnul).symm.trans hlen)

end Necessary

/-! ### The loop -/

/-- The condition on the headers the loop looks into. -/
def LookedInto (d : Ramdisk) (query : List UInt8) : Prop :=
  ∀ k, headerPos d k < d.size → (∀ j, j < k → fieldName d (headerPos d j) ≠ query) →
    FieldsEnd d query (headerPos d k)

theorem headerPos_whole (hblocks : d.size % 512 = 0) (hin : headerPos d k < d.size) :
    headerPos d k + 512 ≤ d.size := by
  have hdvd := headerPos_dvd d k
  omega

theorem scan_found_visited {s cursor : Nat} (h : Visited d stack query s)
    (hscan : scan d stack query fuel s = some (.found cursor n)) :
    Visited d stack query cursor ∧ kstrcmp (header d stack cursor) 0 query = 0 := by
  induction fuel generalizing s with
  | zero =>
    unfold scan at hscan
    split_ifs at hscan
    cases hscan
  | succ fuel ih =>
    rcases Nat.lt_or_ge s d.size with hin | hend
    · obtain ⟨v, hlen⟩ := headerLen_returns d stack hin
      rw [scan_succ hin hlen] at hscan
      split_ifs at hscan with hmiss
      · exact ih (.next h hin hlen hmiss) hscan
      · cases hscan
        exact ⟨h, not_not.mp hmiss⟩
    · rw [scan_end hend] at hscan
      cases hscan

/-- No header is behind the file of the name, or the file is too short for a sum that wraps: a read
whose sum of offset and size wraps goes on to the end of the disk. -/
def NothingBehind (d : Ramdisk) (query : List UInt8) : Prop :=
  ∀ k, headerPos d (k + 1) < d.size → (∀ j, j < k → fieldName d (headerPos d j) ≠ query) →
    fieldName d (headerPos d k) = query → fieldLength d (headerPos d k) ≤ 1

theorem read_congr {offset size : Nat} (hsize : d'.size = d.size)
    (hmem : ∀ a, offset ≤ a → d'.memory a = d.memory a) :
    d'.read offset size = d.read offset size := by
  have hbytes : ∀ n, readBytes d'.memory offset n = readBytes d.memory offset n :=
    fun n => readBytes_congr fun a hlo _ => hmem a hlo
  unfold Ramdisk.read
  simp only [hsize, hbytes]

theorem SameFields.behind (h : SameFields d d') (hlast : d.size ≤ headerPos d (k + 1))
    (ha : headerPos d k + 512 ≤ a) : d'.memory a = d.memory a := by
  by_contra hne
  obtain ⟨j, hj, hle, hnext⟩ := h.rest _ hne
  have hjk : j ≤ k := by
    by_contra hkj
    have hmono : headerPos d (k + 1) ≤ headerPos d j := headerPos_mono d (by omega)
    omega
  have hmono := headerPos_mono d hjk
  unfold Neighbour at hnext
  omega

theorem succ_ne_self (b : UInt8) : b + 1 ≠ b := by
  intro heq
  have hlt := b.toNat_lt
  have hvalue := congrArg UInt8.toNat heq
  rw [UInt8.toNat_add, UInt8.toNat_one] at hvalue
  omega

theorem read_rest {offset : Nat} (hpos : 0 < offset) (hin : offset < d.size) :
    d.read offset (2 ^ 64 - 1) =
      (toInt64 (2 ^ 64 - 1), readBytes d.memory offset (2 ^ 32 - 1)) := by
  have hlt := d.size_lt
  have hkeep : clampSize d.size offset (2 ^ 64 - 1) = 2 ^ 64 - 1 := by
    unfold clampSize
    rw [if_neg (by omega)]
  unfold Ramdisk.read
  rw [if_neg (by omega)]
  simp only [hkeep]
  rfl

theorem read_sameFields {offset size : Nat} (hsame : SameFields d d')
    (hoff : offset < fieldLength d (headerPos d k)) (hsize64 : size < 2 ^ 64)
    (hlast : headerPos d (k + 1) < d.size → fieldLength d (headerPos d k) ≤ 1)
    (hin : headerPos d k < d.size) :
    d'.read ((headerPos d k + 512 + offset) % 2 ^ 64)
        (clampSize (fieldLength d (headerPos d k)) offset size) =
      d.read ((headerPos d k + 512 + offset) % 2 ^ 64)
        (clampSize (fieldLength d (headerPos d k)) offset size) := by
  have hlt := d.size_lt
  have hlen : fieldLength d (headerPos d k) < 2 ^ 36 := fieldLength_lt
  have hsize := hsame.size_eq
  have hcursor : (headerPos d k + 512 + offset) % 2 ^ 64 = headerPos d k + 512 + offset :=
    Nat.mod_eq_of_lt (by omega)
  rw [hcursor]
  rcases Nat.lt_or_ge (offset + size) (2 ^ 64) with hsum | hwrap
  · rw [Ramdisk.clampSize_eq (Nat.le_of_lt hoff) hsum]
    rcases Nat.lt_or_ge (headerPos d k + 512 + offset) d.size with hon | hend
    · rw [Ramdisk.read_eq hon (by omega), Ramdisk.read_eq (by omega) (by omega), hsize]
      have hstep := headerPos_step d k
      refine congrArg (Prod.mk _) (readBytes_congr fun a hlo hhi => ?_)
      apply hsame.data_byte (k := k)
      · omega
      · omega
    · rw [Ramdisk.read, Ramdisk.read, if_pos hend, if_pos (by omega)]
  · -- the offset is not 0, so that the file has two bytes
    have hnone : d.size ≤ headerPos d (k + 1) := by
      by_contra hbehind
      have hshort := hlast (by omega)
      omega
    apply read_congr hsize
    intro a ha
    exact hsame.behind hnone (by omega)

section Loop
variable (hblocks : d.size % 512 = 0) (hquery : ∀ x ∈ query, x ≠ 0)

theorem SameFields.fieldsEnd (h : SameFields d d') (hends : FieldsEnd d query (headerPos d k)) :
    FieldsEnd d' query (headerPos d k) := by
  refine ⟨?_, ?_, ?_⟩
  · rw [h.nameBytes_eq, h.lengthBytes_eq]
    exact hends.name
  · rw [h.lengthBytes_eq]
    exact hends.length
  · rw [h.lengthBytes_eq, h.fieldLength_eq]
    exact hends.digits

theorem SameFields.lookedInto (h : SameFields d d') (hends : LookedInto d query) :
    LookedInto d' query := by
  intro k hin hother
  rw [h.headerPos_eq] at hin ⊢
  rw [h.size_eq] at hin
  apply h.fieldsEnd
  apply hends k hin
  intro j hj
  have hname := hother j hj
  rwa [h.headerPos_eq, h.fieldName_eq] at hname

include hblocks hquery

theorem visited_of_fieldsEnd
    (hends : ∀ j, j < k → headerPos d j < d.size ∧ FieldsEnd d query (headerPos d j) ∧
      fieldName d (headerPos d j) ≠ query) : Visited d stack query (headerPos d k) := by
  induction k with
  | zero => exact .start
  | succ k ih =>
    obtain ⟨hin, hend, hother⟩ := hends k (Nat.lt_succ_self k)
    have hjudged : Judged d stack query (headerPos d k) :=
      hend.judged (headerPos_whole hblocks hin) hquery
    rw [← nextCursor_headerPos hin]
    refine .next (ih fun j hj => hends j (Nat.lt_succ_of_lt hj)) hin hjudged.length ?_
    intro hzero
    exact hother (hjudged.name.mp hzero).symm

theorem headerPos_of_visited (hends : LookedInto d query) (h : Visited d stack query c) :
    ∃ k, c = headerPos d k ∧ ∀ j, j < k → fieldName d (headerPos d j) ≠ query := by
  induction h with
  | start => exact ⟨0, rfl, fun j hj => absurd hj (Nat.not_lt_zero j)⟩
  | next _ hin hlen hmiss ih =>
    obtain ⟨k, rfl, hother⟩ := ih
    have hjudged : Judged d stack query (headerPos d k) :=
      (hends k hin hother).judged (headerPos_whole hblocks hin) hquery
    obtain rfl := Option.some.inj (hlen.symm.trans hjudged.length)
    refine ⟨k + 1, nextCursor_headerPos hin, fun j hj => ?_⟩
    rcases Nat.lt_succ_iff_lt_or_eq.mp hj with hj | rfl
    · exact hother j hj
    · intro hname
      exact hmiss (hjudged.name.mpr hname.symm)

theorem judged_of_lookedInto (hends : LookedInto d query) (h : Visited d stack query c)
    (hin : c < d.size) : Judged d stack query c := by
  obtain ⟨k, rfl, hother⟩ := headerPos_of_visited hblocks hquery hends h
  exact (hends k hin hother).judged (headerPos_whole hblocks hin) hquery

/-- What the loop finds on the disk it finds on every disk with the same fields. -/
theorem scan_sameFields (hends : LookedInto d query) (hsame : SameFields d d')
    (hother : ∀ j, j < k → fieldName d (headerPos d j) ≠ query) :
    scan d' stack query fuel (headerPos d k) = scan d stack query fuel (headerPos d k) := by
  induction fuel generalizing k with
  | zero =>
    have hsize := hsame.size_eq
    rcases Nat.lt_or_ge (headerPos d k) d.size with hin | hend
    · have hon : headerPos d k < d.getDisksize := hin
      have hon' : headerPos d k < d'.getDisksize := Nat.lt_of_lt_of_eq hin hsize.symm
      rw [scan, scan, if_pos hon, if_pos hon']
    · rw [scan_end hend, scan_end (by omega)]
  | succ fuel ih =>
    have hsize := hsame.size_eq
    rcases Nat.lt_or_ge (headerPos d k) d.size with hin | hend
    · have hwhole := headerPos_whole hblocks hin
      have hend := hends k hin hother
      have hjudged : Judged d stack query (headerPos d k) := hend.judged hwhole hquery
      have hjudged' : Judged d' stack query (headerPos d k) :=
        (hsame.fieldsEnd hend).judged (by omega) hquery
      have hlen := hjudged'.length
      have hname := hjudged'.name
      rw [hsame.fieldLength_eq] at hlen
      rw [hsame.fieldName_eq, ← hjudged.name] at hname
      rw [scan_succ hin hjudged.length, scan_succ (by omega) hlen, nextCursor_headerPos hin]
      by_cases hmatch : kstrcmp (header d stack (headerPos d k)) 0 query = 0
      · rw [if_neg (not_not.mpr hmatch), if_neg (not_not.mpr (hname.mpr hmatch))]
      · rw [if_pos hmatch, if_pos fun hzero => hmatch (hname.mp hzero)]
        apply ih
        intro j hj
        rcases Nat.lt_succ_iff_lt_or_eq.mp hj with hj | rfl
        · exact hother j hj
        · exact fun heq => hmatch (hjudged.name.mpr heq.symm)
    · rw [scan_end hend, scan_end (by omega)]

theorem tarfsRead_sameFields {offset size : Nat} (hends : LookedInto d query)
    (hbehind : NothingBehind d query) (hsame : SameFields d d') (hsize : size < 2 ^ 64) :
    tarfsRead d' stack fuel query offset size = tarfsRead d stack fuel query offset size := by
  have hscan : scan d' stack query fuel 0 = scan d stack query fuel 0 :=
    scan_sameFields hblocks hquery (k := 0) hends hsame fun j hj => absurd hj (Nat.not_lt_zero j)
  cases hresult : scan d stack query fuel 0 with
  | none =>
    unfold tarfsRead
    rw [hscan, hresult]
  | some result =>
    cases result with
    | failed =>
      unfold tarfsRead
      rw [hscan, hresult]
    | missing =>
      unfold tarfsRead
      rw [hscan, hresult]
    | found cursor len =>
      obtain ⟨hin, hlen, _⟩ := scan_found hresult
      obtain ⟨hvisited, hmatch⟩ := scan_found_visited .start hresult
      have hjudged := judged_of_lookedInto hblocks hquery hends hvisited hin
      obtain ⟨k, rfl, hother⟩ := headerPos_of_visited hblocks hquery hends hvisited
      obtain rfl := Option.some.inj (hlen.symm.trans hjudged.length)
      have hname := (hjudged.name.mp hmatch).symm
      rcases Nat.lt_or_ge offset (fieldLength d (headerPos d k)) with hoff | hoff
      · rw [tarfsRead_found hresult hoff, tarfsRead_found (hscan.trans hresult) hoff,
          read_sameFields hsame hoff hsize (fun hnext => hbehind k hnext hother hname) hin]
      · unfold tarfsRead
        simp only [hscan, hresult, if_pos hoff]

theorem LookedInto.judgedByFields (hends : LookedInto d query) (hbehind : NothingBehind d query) :
    JudgedByFields d stack query := by
  constructor
  · intro d' hsame c hvisited hin
    have hblocks' : d'.size % 512 = 0 := by rwa [hsame.size_eq]
    exact judged_of_lookedInto hblocks' hquery (hsame.lookedInto hends) hvisited hin
  · intro d' hsame fuel
    have hscan : scan d' stack query fuel 0 = scan d stack query fuel 0 :=
      scan_sameFields hblocks hquery (k := 0) hends hsame fun j hj => absurd hj (Nat.not_lt_zero j)
    unfold tarfsFstat
    rw [hscan]
  · intro d' hsame fuel offset size _ hsize
    exact tarfsRead_sameFields hblocks hquery hends hbehind hsame hsize

theorem JudgedByFields.lookedInto (h : JudgedByFields d stack query) : LookedInto d query := by
  intro k
  induction k using Nat.strong_induction_on with
  | _ k ih =>
    intro hin hother
    -- up to this header all disks with the same fields are judged by them
    have hall : ∀ d', SameFields d d' → Judged d' stack query (headerPos d k) := by
      intro d' hsame
      have hblocks' : d'.size % 512 = 0 := by rwa [hsame.size_eq]
      have hsize := hsame.size_eq
      have hvisited : Visited d' stack query (headerPos d' k) := by
        apply visited_of_fieldsEnd hblocks' hquery
        intro j hj
        have hlt := headerPos_lt d hj
        have hend := ih j hj (by omega) fun i hi => hother i (Nat.lt_trans hi hj)
        rw [hsame.headerPos_eq, hsame.fieldName_eq]
        exact ⟨by omega, hsame.fieldsEnd hend, hother j hj⟩
      rw [hsame.headerPos_eq] at hvisited
      exact h.judged d' hsame _ hvisited (by omega)
    exact fieldsEnd_of_judged (headerPos_whole hblocks hin) hall hquery

theorem LookedInto.finds (hends : LookedInto d query) (hin : headerPos d k < d.size)
    (hother : ∀ j, j < k → fieldName d (headerPos d j) ≠ query)
    (hname : fieldName d (headerPos d k) = query) : ∃ fuel,
    scan d stack query fuel 0 = some (.found (headerPos d k) (fieldLength d (headerPos d k))) := by
  have hvisited : Visited d stack query (headerPos d k) := by
    apply visited_of_fieldsEnd hblocks hquery
    intro j hj
    have hlt := headerPos_lt d hj
    exact ⟨by omega, hends j (by omega) fun i hi => hother i (Nat.lt_trans hi hj), hother j hj⟩
  have hjudged : Judged d stack query (headerPos d k) :=
    (hends k hin hother).judged (headerPos_whole hblocks hin) hquery
  obtain ⟨n, hn⟩ := hvisited.scan_eq
  refine ⟨1 + n, ?_⟩
  rw [hn, scan_succ hin hjudged.length, if_neg (not_not.mpr (hjudged.name.mpr hname.symm))]

/-- A read from the second byte on whose sum wraps stores what is in the header behind the file. -/
theorem JudgedByFields.nothingBehind (h : JudgedByFields d stack query) :
    NothingBehind d query := by
  intro k hnext hother hname
  by_contra hlong
  have hends := h.lookedInto hblocks hquery
  have hstep := headerPos_step d k
  have hlt := d.size_lt
  have hin : headerPos d k < d.size := by omega
  obtain ⟨fuel, hfound⟩ : ∃ fuel, scan d stack query fuel 0 = _ :=
    LookedInto.finds hblocks hquery hends hin hother hname
  obtain ⟨d', hd'⟩ : ∃ d', d' = withRest d (headerPos d (k + 1))
      fun i => d.memory (headerPos d (k + 1) + i) + 1 := ⟨_, rfl⟩
  have hsame : SameFields d d' := by
    rw [hd']
    exact withRest_same hnext
  have hsize := hsame.size_eq
  have hfound' : scan d' stack query fuel 0 = _ :=
    (scan_sameFields hblocks hquery (k := 0) hends hsame fun j hj =>
    absurd hj (Nat.not_lt_zero j)).trans hfound
  have hread := h.read d' hsame fuel 1 (2 ^ 64 - 1) (by omega) (by omega)
  have hkeep : clampSize (fieldLength d (headerPos d k)) 1 (2 ^ 64 - 1) = 2 ^ 64 - 1 := by
    unfold clampSize
    rw [if_neg (by omega)]
  have hcursor : (headerPos d k + 512 + 1) % 2 ^ 64 = headerPos d k + 513 := by omega
  rw [tarfsRead_found hfound (by omega), tarfsRead_found hfound' (by omega), hkeep, hcursor,
    read_rest (by omega) (by omega), read_rest (by omega) (by omega)] at hread
  have hbytes := congrArg (fun r => r.2.getD (headerPos d (k + 1) + 100 - (headerPos d k + 513)) 0)
    (Option.some.inj hread)
  have hnear : headerPos d (k + 1) + 100 - (headerPos d k + 513) < 2 ^ 32 - 1 := by omega
  have hplace : headerPos d k + 513 + (headerPos d (k + 1) + 100 - (headerPos d k + 513)) =
      headerPos d (k + 1) + 100 := by omega
  simp only [getD_readBytes hnear, hplace] at hbytes
  have hchanged : d'.memory (headerPos d (k + 1) + 100) = d.memory
      (headerPos d (k + 1) + 100) + 1 := by
    rw [hd', withRest]
    simp only [Nat.le_add_right, Nat.add_sub_cancel_left, true_and]
    exact if_pos (Or.inl (by omega))
  rw [hchanged] at hbytes
  exact succ_ne_self _ hbytes

end Loop

/-- An empty file `b` and the file `a` with the length 1. -/
def twoFileDisk : Ramdisk where
  memory i := if i = 0 then 98 else if i = 512 then 97 else if i = 636 then 49 else 0
  size := 1024
  size_lt := by omega

/-- The length of the file `a` is `1` and a blank. -/
def blankDisk : Ramdisk where
  memory i := if i = 0 then 97 else if i = 124 then 49 else if i = 125 then 32 else 0
  size := 512
  size_lt := oneBlock_lt

end OsdevCourse.Tarfs
