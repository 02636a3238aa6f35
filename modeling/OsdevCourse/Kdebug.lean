import Mathlib.Tactic.IntervalCases
import Mathlib.Tactic.NormNum
import Mathlib.Tactic.Positivity
import OsdevCourse.CString

/-!
# Formatted output: `kdebug.c`

`kdebug` goes over its format with one pointer. The pointer moves after a `%`, after an `l`, and
at the end of every turn of the loop; only the test of the loop looks for the NUL. A format is
a sequence of pieces, literal characters and directives, and it can end inside a directive.
-/

namespace OsdevCourse.Kdebug

set_option autoImplicit false

open Memory

/-! The digits. -/

def upDigits : List UInt8 :=
  ['0', '1', '2', '3', '4', '5', '6', '7', '8', '9', 'A', 'B', 'C', 'D', 'E', 'F'].map Char.toUInt8
    ++ [0]

def lowDigits : List UInt8 :=
  ['0', '1', '2', '3', '4', '5', '6', '7', '8', '9', 'a', 'b', 'c', 'd', 'e', 'f'].map Char.toUInt8
    ++ [0]

/-- The bound is `sizeof(up_digits)`, which counts the NUL. -/
def tohex (digit : Int) (upper : Bool) : UInt8 :=
  if digit < 0 ∨ digit ≥ upDigits.length then '-'.toUInt8
  else if upper then upDigits.getD digit.toNat 0
  else lowDigits.getD digit.toNat 0

/-- The loop of `hextoasc32`, with so many turns to go. -/
def hextoasc32Loop (upper : Bool) : Nat → Nat → List UInt8
  | 0, _ => [0]
  | n + 1, num => tohex (num / 2 ^ 28 : Nat) upper :: hextoasc32Loop upper n (num * 16 % 2 ^ 32)

/-- What `hextoasc32` leaves in `des`. -/
def hextoasc32 (num : UInt32) (upper : Bool) : List UInt8 := hextoasc32Loop upper 8 num.toNat

/-- The loop of `hextoasc64` from the turn `i` on, with so many turns to go. -/
def hextoasc64Loop (upper : Bool) : Nat → Nat → Nat → List UInt8
  | 0, _, _ => [0]
  | n + 1, i, num =>
    let digit := tohex (num / 2 ^ 60 : Nat) upper
    let rest := hextoasc64Loop upper n (i + 1) (num * 16 % 2 ^ 64)
    if i = 8 then ':'.toUInt8 :: digit :: rest else digit :: rest

/-- What `hextoasc64` leaves in `des`. -/
def hextoasc64 (num : UInt64) (upper : Bool) : List UInt8 := hextoasc64Loop upper 16 0 num.toNat

/-! The scanner. -/

/-- An argument. `uint32_t`, `uint64_t` and pointers are taken by `va_arg`. -/
inductive Arg
  | word (v : UInt32)
  | long (v : UInt64)
  | pointer (v : UInt32)

/-- The place in the format, the arguments that are left, the addresses of the format that were
read, and what went to the port. -/
structure State where
  p : Nat
  args : List Arg
  reads : List Nat
  out : List UInt8

namespace State

/-- `*p` is read. -/
def look (s : State) : State := { s with reads := s.reads ++ [s.p] }

/-- `*(++p)` is read. -/
def advance (s : State) : State := { s with p := s.p + 1, reads := s.reads ++ [s.p + 1] }

def putc (s : State) (c : UInt8) : State := { s with out := s.out ++ [c] }

def puts (s : State) (cs : List UInt8) : State := { s with out := s.out ++ cs }

/-- `va_arg` where the next argument is of the type that is asked for; nothing is said about
other arguments, and the scanner does not come further. -/
def vaWord (s : State) (use : UInt32 → State → Except State State) : Except State State :=
  match s.args with
  | .word v :: args => use v { s with args := args }
  | _ => .error s

def vaLong (s : State) (use : UInt64 → State → Except State State) : Except State State :=
  match s.args with
  | .long v :: args => use v { s with args := args }
  | _ => .error s

def vaPointer (s : State) (use : UInt32 → State → Except State State) : Except State State :=
  match s.args with
  | .pointer v :: args => use v { s with args := args }
  | _ => .error s

end State

/-- `kdebug_puts`: what it puts out, when a NUL comes within the fuel. -/
def kdebugPuts (m : Memory) : Nat → Nat → Option (List UInt8)
  | 0, _ => none
  | fuel + 1, p => if m p = 0 then some [] else (kdebugPuts m fuel (p + 1)).map (m p :: ·)

/-- `kdebug_puts(buf)` -/
def bufChars (buf : List UInt8) : List UInt8 := chars buf

/-- The `switch` of a directive. `is_long` matters for the numbers only. -/
def convert (m : Memory) (fuel : Nat) (isLong : Bool) (c : UInt8) (s : State) :
    Except State State :=
  if c = 'd'.toUInt8 then
    if isLong then s.vaLong fun u64 s => .ok (s.puts (bufChars (hextoasc64 u64 false)))
    else s.vaWord fun u32 s => .ok (s.puts (bufChars (hextoasc32 u32 false)))
  else if c = 'x'.toUInt8 ∨ c = 'X'.toUInt8 then
    let upper := decide (c = 'X'.toUInt8)
    if isLong then s.vaLong fun u64 s => .ok (s.puts (bufChars (hextoasc64 u64 upper)))
    else s.vaWord fun u32 s => .ok (s.puts (bufChars (hextoasc32 u32 upper)))
  else if c = 'p'.toUInt8 then
    s.vaPointer fun p s =>
      let u64 := p.toUInt64
      if u64.toNat / 2 ^ 32 = 0 then .ok (s.puts (bufChars (hextoasc32 u64.toUInt32 false)))
      else .ok (s.puts (bufChars (hextoasc64 u64 false)))
  else if c = 'c'.toUInt8 then
    s.vaWord fun u32 s =>
      let s := if u32.toNat = 10 then s.putc '\r'.toUInt8 else s
      .ok (s.putc u32.toUInt8)
  else if c = 's'.toUInt8 then
    s.vaPointer fun p s =>
      match kdebugPuts m fuel p.toNat with
      | some cs => .ok (s.puts cs)
      | none => .error s
  else if c = '%'.toUInt8 then .ok (s.putc c)
  else .ok ((s.putc '%'.toUInt8).putc c)

/-- One turn of the loop, up to its `p++`. -/
def turn (m : Memory) (fuel : Nat) (s : State) : Except State State :=
  let c := m s.p
  if c = '\n'.toUInt8 then .ok ((s.putc '\r'.toUInt8).putc '\n'.toUInt8)
  else if c ≠ '%'.toUInt8 then .ok (s.putc c)
  else
    let s := s.advance
    let c := m s.p
    if c = 'l'.toUInt8 then
      let s := s.advance
      convert m fuel true (m s.p) s
    else convert m fuel false c s

/-- The loop. It comes with true when the scanner stops at a NUL. -/
def scan (m : Memory) (limit : Nat) : Nat → State → State × Bool
  | 0, s => (s, false)
  | fuel + 1, s =>
    let s := s.look
    if m s.p = 0 then (s, true)
    else
      match turn m limit s with
      | .error s => (s, false)
      | .ok s => scan m limit fuel { s with p := s.p + 1 }

/-- `kdebug(fmt, ...)` when every loop has so many turns. -/
def kdebug (m : Memory) (fuel fmt : Nat) (args : List Arg) : State × Bool :=
  scan m fuel fuel { p := fmt, args := args, reads := [], out := [] }

/-! The pieces of a format, and what is put out for them. -/

inductive Piece
  | literal (c : UInt8)
  | directive (isLong : Bool) (c : UInt8)

namespace Piece

/-- The characters of the format that are the piece. -/
def chars : Piece → List UInt8
  | literal c => [c]
  | directive false c => ['%'.toUInt8, c]
  | directive true c => ['%'.toUInt8, 'l'.toUInt8, c]

def WellFormed : Piece → Prop
  | literal c => c ≠ '%'.toUInt8
  | directive false c => c ≠ 'l'.toUInt8
  | directive true _ => True

end Piece

/-- The format read from left to right: its pieces, and the directive it ends in, if it ends
inside one. -/
def split : List UInt8 → List Piece × List UInt8
  | [] => ([], [])
  | c :: cs =>
    if c ≠ '%'.toUInt8 then (.literal c :: (split cs).1, (split cs).2)
    else
      match cs with
      | [] => ([], [c])
      | d :: ds =>
        if d ≠ 'l'.toUInt8 then (.directive false d :: (split ds).1, (split ds).2)
        else
          match ds with
          | [] => ([], [c, d])
          | e :: es => (.directive true e :: (split es).1, (split es).2)

/-- The format is the pieces one after the other. -/
def Splits (cs : List UInt8) (ps : List Piece) : Prop :=
  (∀ p ∈ ps, p.WellFormed) ∧ ps.flatMap Piece.chars = cs

inductive Kind
  | word | long | pointer | string

def IsNumber (c : UInt8) : Prop := c = 'd'.toUInt8 ∨ c = 'x'.toUInt8 ∨ c = 'X'.toUInt8

instance (c : UInt8) : Decidable (IsNumber c) := inferInstanceAs (Decidable (_ ∨ _ ∨ _))

/-- The argument that a piece asks for. -/
def Piece.kinds : Piece → List Kind
  | .literal _ => []
  | .directive isLong c =>
    if IsNumber c then [if isLong then .long else .word]
    else if c = 'p'.toUInt8 then [.pointer]
    else if c = 'c'.toUInt8 then [.word]
    else if c = 's'.toUInt8 then [.string]
    else []

/-- The argument is of the kind. A string is in memory and ends with a NUL. -/
def Kind.Accepts (m : Memory) : Kind → Arg → Prop
  | .word, .word _ => True
  | .long, .long _ => True
  | .pointer, .pointer _ => True
  | .string, .pointer v => ∃ cs, CStr m v.toNat cs
  | _, _ => False

def hexDigit (upper : Bool) (d : Nat) : UInt8 :=
  if d < 10 then '0'.toUInt8 + UInt8.ofNat d
  else if upper then 'A'.toUInt8 + UInt8.ofNat (d - 10)
  else 'a'.toUInt8 + UInt8.ofNat (d - 10)

/-- The last `n` digits of a number, the most significant one first. -/
def hex (upper : Bool) : Nat → Nat → List UInt8
  | 0, _ => []
  | n + 1, v => hexDigit upper (v / 16 ^ n % 16) :: hex upper n v

def isUpper (c : UInt8) : Bool := c = 'X'.toUInt8

/-- What is put out for a piece with the arguments that it takes. -/
inductive Writes (m : Memory) : Piece → List Arg → List UInt8 → Prop
  | newline : Writes m (.literal '\n'.toUInt8) [] ['\r'.toUInt8, '\n'.toUInt8]
  | literal {c : UInt8} : c ≠ '\n'.toUInt8 → Writes m (.literal c) [] [c]
  | word {c : UInt8} (v : UInt32) : IsNumber c →
    Writes m (.directive false c) [.word v] (hex (isUpper c) 8 v.toNat)
  | long {c : UInt8} (v : UInt64) : IsNumber c →
    Writes m (.directive true c) [.long v]
      (hex (isUpper c) 8 (v.toNat / 2 ^ 32) ++ ':'.toUInt8 :: hex (isUpper c) 8 v.toNat)
  | pointer (isLong : Bool) (v : UInt32) :
    Writes m (.directive isLong 'p'.toUInt8) [.pointer v] (hex false 8 v.toNat)
  | newlineChar (isLong : Bool) {v : UInt32} : v.toNat = 10 →
    Writes m (.directive isLong 'c'.toUInt8) [.word v] ['\r'.toUInt8, '\n'.toUInt8]
  | char (isLong : Bool) {v : UInt32} : v.toNat ≠ 10 →
    Writes m (.directive isLong 'c'.toUInt8) [.word v] [v.toUInt8]
  | string (isLong : Bool) {v : UInt32} {cs : List UInt8} : CStr m v.toNat cs →
    Writes m (.directive isLong 's'.toUInt8) [.pointer v] cs
  | percent (isLong : Bool) : Writes m (.directive isLong '%'.toUInt8) [] ['%'.toUInt8]
  | unknown (isLong : Bool) {c : UInt8} : (Piece.directive isLong c).kinds = [] → c ≠ '%'.toUInt8 →
    Writes m (.directive isLong c) [] ['%'.toUInt8, c]

/-- The output is the concatenation of what is put out for the pieces. -/
inductive Renders (m : Memory) : List Piece → List Arg → List UInt8 → Prop
  | nil : Renders m [] [] []
  | cons {p : Piece} {ps : List Piece} {as args : List Arg} {o out : List UInt8} :
    Writes m p as o → Renders m ps args out → Renders m (p :: ps) (as ++ args) (o ++ out)

/-- The scanner reads nothing behind the NUL of its format and stops there, and the output is
the one of the format. -/
structure ScansInside (m : Memory) (fmt : Nat) (cs : List UInt8) (args : List Arg) : Prop where
  inside : ∀ fuel, ∀ a ∈ (kdebug m fuel fmt args).1.reads, fmt ≤ a ∧ a ≤ fmt + cs.length
  stops : ∃ s bound, (∀ fuel, bound ≤ fuel → kdebug m fuel fmt args = (s, true)) ∧
    s.p = fmt + cs.length ∧ ∃ ps, Splits cs ps ∧ Renders m ps args s.out

/-! The digits of the loops are the digits of the number. -/

section Digits
variable {upper : Bool} {w n d : Nat}

theorem tohex_eq (hd : d < 16) : tohex d upper = hexDigit upper d := by
  cases upper <;> interval_cases d <;> rfl

theorem hexDigit_ne_zero (hd : d < 16) : hexDigit upper d ≠ 0 := by
  cases upper <;> interval_cases d <;> decide

theorem hex_ne_zero (upper : Bool) (n v : Nat) : ∀ c ∈ hex upper n v, c ≠ 0 := by
  induction n with
  | zero => simp [hex]
  | succ n ih =>
    rw [hex, List.forall_mem_cons]
    exact ⟨hexDigit_ne_zero (Nat.mod_lt _ (by omega)), ih⟩

theorem shifted_top (hn : n + 1 ≤ w) (v : Nat) :
    v % 16 ^ (n + 1) * 16 ^ (w - (n + 1)) / 16 ^ (w - 1) = v / 16 ^ n % 16 := by
  have hsplit : 16 ^ (w - 1) = 16 ^ n * 16 ^ (w - (n + 1)) := by
    rw [← pow_add]
    congr 1
    omega
  rw [hsplit, Nat.mul_div_mul_right _ _ (by positivity), pow_succ, Nat.mod_mul_right_div_self]

theorem shifted_rest (hn : n + 1 ≤ w) (v : Nat) :
    v % 16 ^ (n + 1) * 16 ^ (w - (n + 1)) * 16 % 16 ^ w = v % 16 ^ n * 16 ^ (w - n) := by
  have hshift : 16 ^ (w - (n + 1)) * 16 = 16 ^ (w - n) := by
    rw [← pow_succ]
    congr 1
    omega
  have hsplit : 16 ^ w = 16 ^ n * 16 ^ (w - n) := by
    rw [← pow_add]
    congr 1
    omega
  rw [Nat.mul_assoc, hshift, hsplit, Nat.mul_mod_mul_right,
    Nat.mod_mod_of_dvd _ (pow_dvd_pow 16 (Nat.le_succ n))]

theorem top32 (hn : n + 1 ≤ 8) (v : Nat) :
    v % 16 ^ (n + 1) * 16 ^ (8 - (n + 1)) / 2 ^ 28 = v / 16 ^ n % 16 := shifted_top hn v

theorem rest32 (hn : n + 1 ≤ 8) (v : Nat) :
    v % 16 ^ (n + 1) * 16 ^ (8 - (n + 1)) * 16 % 2 ^ 32 = v % 16 ^ n * 16 ^ (8 - n) :=
  shifted_rest hn v

theorem top64 (hn : n + 1 ≤ 16) (v : Nat) :
    v % 16 ^ (n + 1) * 16 ^ (16 - (n + 1)) / 2 ^ 60 = v / 16 ^ n % 16 := shifted_top hn v

theorem rest64 (hn : n + 1 ≤ 16) (v : Nat) :
    v % 16 ^ (n + 1) * 16 ^ (16 - (n + 1)) * 16 % 2 ^ 64 = v % 16 ^ n * 16 ^ (16 - n) :=
  shifted_rest hn v

theorem hextoasc32Loop_eq (upper : Bool) (v : Nat) (hn : n ≤ 8) :
    hextoasc32Loop upper n (v % 16 ^ n * 16 ^ (8 - n)) = hex upper n v ++ [0] := by
  induction n with
  | zero => rfl
  | succ n ih =>
    rw [hextoasc32Loop, hex, top32 hn, rest32 hn, ih (by omega), tohex_eq (Nat.mod_lt _ (by omega))]
    rfl

theorem hextoasc32_eq (v : UInt32) (upper : Bool) :
    hextoasc32 v upper = hex upper 8 v.toNat ++ [0] := by
  have hlt : v.toNat < 16 ^ 8 := v.toNat_lt
  have hloop := hextoasc32Loop_eq upper v.toNat (Nat.le_refl 8)
  rw [Nat.mod_eq_of_lt hlt, Nat.sub_self, pow_zero, Nat.mul_one] at hloop
  exact hloop

theorem hextoasc64Loop_low (upper : Bool) (v : Nat) {i : Nat} (hn : n ≤ 16) (hi : 8 < i) :
    hextoasc64Loop upper n i (v % 16 ^ n * 16 ^ (16 - n)) = hex upper n v ++ [0] := by
  induction n generalizing i with
  | zero => rfl
  | succ n ih =>
    rw [hextoasc64Loop, hex, top64 hn, rest64 hn, ih (by omega) (by omega),
      tohex_eq (Nat.mod_lt _ (by omega))]
    have hturn : i ≠ 8 := by omega
    rw [if_neg hturn]
    rfl

theorem hextoasc64Loop_eq (upper : Bool) (v : Nat) (hn : n ≤ 8) :
    hextoasc64Loop upper (n + 8) (8 - n) (v % 16 ^ (n + 8) * 16 ^ (16 - (n + 8))) =
      hex upper n (v / 16 ^ 8) ++ ':'.toUInt8 :: (hex upper 8 v ++ [0]) := by
  induction n with
  | zero =>
    have hlow := hextoasc64Loop_low upper v (n := 7) (i := 9) (by omega) (by omega)
    rw [Nat.zero_add, hextoasc64Loop, top64 (n := 7) (by omega), rest64 (n := 7) (by omega), hlow,
      tohex_eq (Nat.mod_lt _ (by omega))]
    rfl
  | succ n ih =>
    have hnext : 8 - (n + 1) + 1 = 8 - n := by omega
    have hturn : 8 - (n + 1) ≠ 8 := by omega
    have hdigits : hex upper (n + 1) (v / 16 ^ 8) =
        hexDigit upper (v / 16 ^ 8 / 16 ^ n % 16) :: hex upper n (v / 16 ^ 8) := rfl
    rw [Nat.succ_add, hextoasc64Loop, top64 (n := n + 8) (by omega),
      rest64 (n := n + 8) (by omega), hnext, ih (by omega), tohex_eq (Nat.mod_lt _ (by omega)),
      if_neg hturn, hdigits, Nat.div_div_eq_div_mul, ← pow_add, Nat.add_comm 8 n]
    rfl

theorem hextoasc64_eq (v : UInt64) (upper : Bool) :
    hextoasc64 v upper =
      hex upper 8 (v.toNat / 2 ^ 32) ++ ':'.toUInt8 :: (hex upper 8 v.toNat ++ [0]) := by
  have hlt : v.toNat < 16 ^ 16 := v.toNat_lt
  have hloop := hextoasc64Loop_eq upper v.toNat (Nat.le_refl 8)
  rw [Nat.mod_eq_of_lt hlt, Nat.sub_self, pow_zero, Nat.mul_one] at hloop
  exact hloop

theorem bufChars_eq {cs : List UInt8} (hcs : ∀ c ∈ cs, c ≠ 0) : bufChars (cs ++ [0]) = cs := by
  rw [bufChars, chars, List.takeWhile_append_of_pos]
  · simp
  · intro c hc
    exact decide_eq_true (hcs c hc)

theorem bufChars_hextoasc32 (v : UInt32) (upper : Bool) :
    bufChars (hextoasc32 v upper) = hex upper 8 v.toNat := by
  rw [hextoasc32_eq]
  exact bufChars_eq (hex_ne_zero upper 8 _)

theorem bufChars_hextoasc64 (v : UInt64) (upper : Bool) :
    bufChars (hextoasc64 v upper) =
      hex upper 8 (v.toNat / 2 ^ 32) ++ ':'.toUInt8 :: hex upper 8 v.toNat := by
  rw [hextoasc64_eq, ← List.cons_append, ← List.append_assoc]
  apply bufChars_eq
  intro c hc
  rcases List.mem_append.mp hc with hhigh | hlow
  · exact hex_ne_zero upper 8 _ c hhigh
  · rcases List.mem_cons.mp hlow with hcolon | hlow
    · rw [hcolon]
      decide
    · exact hex_ne_zero upper 8 _ c hlow

end Digits

/-! A directive moves nothing but the arguments and the output. -/

def stateOf : Except State State → State
  | .ok s => s
  | .error s => s

structure Stays (s : State) (r : Except State State) : Prop where
  p_eq : (stateOf r).p = s.p
  reads_eq : (stateOf r).reads = s.reads

section Stays
variable {m : Memory} {fuel : Nat} {s : State}

theorem vaWord_stays {use : UInt32 → State → Except State State}
    (huse : ∀ v args, Stays s (use v { s with args := args })) : Stays s (s.vaWord use) := by
  unfold State.vaWord
  split
  · exact huse _ _
  · exact ⟨rfl, rfl⟩

theorem vaLong_stays {use : UInt64 → State → Except State State}
    (huse : ∀ v args, Stays s (use v { s with args := args })) : Stays s (s.vaLong use) := by
  unfold State.vaLong
  split
  · exact huse _ _
  · exact ⟨rfl, rfl⟩

theorem vaPointer_stays {use : UInt32 → State → Except State State}
    (huse : ∀ v args, Stays s (use v { s with args := args })) : Stays s (s.vaPointer use) := by
  unfold State.vaPointer
  split
  · exact huse _ _
  · exact ⟨rfl, rfl⟩

theorem convert_stays (isLong : Bool) (c : UInt8) : Stays s (convert m fuel isLong c s) := by
  unfold convert
  split_ifs
  · exact vaLong_stays fun _ _ => ⟨rfl, rfl⟩
  · exact vaWord_stays fun _ _ => ⟨rfl, rfl⟩
  · exact vaLong_stays fun _ _ => ⟨rfl, rfl⟩
  · exact vaWord_stays fun _ _ => ⟨rfl, rfl⟩
  · apply vaPointer_stays
    intro v args
    dsimp only
    split_ifs
    · exact ⟨rfl, rfl⟩
    · exact ⟨rfl, rfl⟩
  · apply vaWord_stays
    intro v args
    dsimp only
    split_ifs
    · exact ⟨rfl, rfl⟩
    · exact ⟨rfl, rfl⟩
  · apply vaPointer_stays
    intro v args
    split
    · exact ⟨rfl, rfl⟩
    · exact ⟨rfl, rfl⟩
  · exact ⟨rfl, rfl⟩
  · exact ⟨rfl, rfl⟩

end Stays

/-! One turn of the loop takes one piece. -/

section Turn
variable {m : Memory} {limit : Nat} {s : State}

theorem turn_literal (hc : m s.p ≠ '%'.toUInt8) : turn m limit s =
    .ok (if m s.p = '\n'.toUInt8 then (s.putc '\r'.toUInt8).putc '\n'.toUInt8 else s.putc
      (m s.p)) := by
  unfold turn
  by_cases hnewline : m s.p = '\n'.toUInt8
  · rw [if_pos hnewline, if_pos hnewline]
  · rw [if_neg hnewline, if_pos hc, if_neg hnewline]

theorem turn_short (hpercent : m s.p = '%'.toUInt8) (hc : m (s.p + 1) ≠ 'l'.toUInt8) :
    turn m limit s = convert m limit false (m (s.p + 1)) s.advance := by
  unfold turn
  have hnewline : m s.p ≠ '\n'.toUInt8 := by
    rw [hpercent]
    decide
  rw [if_neg hnewline, if_neg (not_not.mpr hpercent)]
  exact if_neg hc

theorem turn_long (hpercent : m s.p = '%'.toUInt8) (hc : m (s.p + 1) = 'l'.toUInt8) :
    turn m limit s = convert m limit true (m (s.p + 2)) s.advance.advance := by
  unfold turn
  have hnewline : m s.p ≠ '\n'.toUInt8 := by
    rw [hpercent]
    decide
  rw [if_neg hnewline, if_neg (not_not.mpr hpercent)]
  exact if_pos hc

/-- The characters that a turn reads behind its first are the ones of its piece. -/
theorem turn_reads {p : Piece} {cs : List UInt8} (hp : p.WellFormed)
    (hstored : CStr m s.p (p.chars ++ cs)) :
    (stateOf (turn m limit s)).p + 1 = s.p + p.chars.length ∧
    ∀ a ∈ (stateOf (turn m limit s)).reads, a ∈ s.reads ∨ s.p ≤ a ∧ a < s.p + p.chars.length := by
  cases p with
  | literal c =>
    obtain ⟨hc, _, _⟩ := CStr.cons_iff.mp hstored
    rw [turn_literal (hc ▸ hp)]
    refine ⟨?_, fun a ha => Or.inl ?_⟩
    · rw [stateOf]
      split_ifs <;> rfl
    · rw [stateOf] at ha
      split_ifs at ha <;> exact ha
  | directive isLong c =>
    cases isLong with
    | false =>
      obtain ⟨hpercent, _, htail⟩ := CStr.cons_iff.mp hstored
      obtain ⟨hc, _, _⟩ := CStr.cons_iff.mp htail
      rw [turn_short hpercent (hc ▸ hp)]
      have hstays := @convert_stays m limit s.advance false (m (s.p + 1))
      rw [hstays.p_eq, hstays.reads_eq]
      refine ⟨rfl, fun a ha => ?_⟩
      rcases List.mem_append.mp ha with hold | hnew
      · exact Or.inl hold
      · rw [List.mem_singleton.mp hnew, Piece.chars, List.length_cons, List.length_singleton]
        omega
    | true =>
      obtain ⟨hpercent, _, htail⟩ := CStr.cons_iff.mp hstored
      obtain ⟨hl, _, _⟩ := CStr.cons_iff.mp htail
      rw [turn_long hpercent hl]
      have hstays := @convert_stays m limit s.advance.advance true (m (s.p + 2))
      rw [hstays.p_eq, hstays.reads_eq]
      refine ⟨rfl, fun a ha => ?_⟩
      have hlength : (Piece.directive true c).chars.length = 3 := rfl
      rw [hlength]
      rcases List.mem_append.mp ha with hold | hsecond
      · rcases List.mem_append.mp hold with hold | hfirst
        · exact Or.inl hold
        · rw [List.mem_singleton.mp hfirst]
          omega
      · have hplace : a = s.p + 1 + 1 := List.mem_singleton.mp hsecond
        omega

theorem cstr_after {p : Piece} {a b : Nat} {cs : List UInt8} (h : CStr m a (p.chars ++ cs))
    (hb : b = a + p.chars.length) : CStr m b cs := hb ▸ h.drop

theorem chars_pos (p : Piece) : 0 < p.chars.length := by
  cases p with
  | literal c => exact Nat.one_pos
  | directive isLong c => cases isLong <;> exact Nat.succ_pos _

theorem first_ne_zero {p : Piece} {a : Nat} {cs : List UInt8} (h : CStr m a (p.chars ++ cs)) :
    m a ≠ 0 := by
  cases p with
  | literal c =>
    obtain ⟨hc, hne, _⟩ := CStr.cons_iff.mp h
    rwa [hc]
  | directive isLong c =>
    cases isLong with
    | false =>
      obtain ⟨hc, hne, _⟩ := CStr.cons_iff.mp h
      rwa [hc]
    | true =>
      obtain ⟨hc, hne, _⟩ := CStr.cons_iff.mp h
      rwa [hc]

/-- A format that is made of pieces is not read behind its NUL, whatever the arguments are. -/
theorem scan_reads {ps : List Piece} {fuel : Nat} (hps : ∀ p ∈ ps, p.WellFormed)
    (hstored : CStr m s.p (ps.flatMap Piece.chars)) :
    ∀ a ∈ (scan m limit fuel s).1.reads,
      a ∈ s.reads ∨ s.p ≤ a ∧ a ≤ s.p + (ps.flatMap Piece.chars).length := by
  induction fuel generalizing s ps with
  | zero => exact fun a ha => Or.inl ha
  | succ fuel ih =>
    intro a ha
    rw [scan] at ha
    have hlook : ∀ b, b ∈ s.look.reads → b ∈ s.reads ∨ b = s.p := by
      intro b hb
      rcases List.mem_append.mp hb with hold | hnew
      · exact Or.inl hold
      · exact Or.inr (List.mem_singleton.mp hnew)
    cases ps with
    | nil =>
      have hnul : m s.look.p = 0 := CStr.nil_iff.mp hstored
      rw [if_pos hnul] at ha
      rcases hlook a ha with hold | hhere
      · exact Or.inl hold
      · omega
    | cons p ps =>
      rw [List.flatMap_cons] at hstored ⊢
      have hnonzero : m s.look.p ≠ 0 := first_ne_zero hstored
      obtain ⟨hplace, hreads⟩ := @turn_reads m limit s.look p _
        (hps p List.mem_cons_self) hstored
      have hpos := chars_pos p
      have hhere : s.look.p = s.p := rfl
      rw [if_neg hnonzero] at ha
      rw [hhere] at hplace hreads
      rw [List.length_append]
      cases hturn : turn m limit s.look with
      | error t =>
        rw [hturn] at ha hreads
        rcases hreads a ha with hold | hin
        · rcases hlook a hold with hold | hhere
          · exact Or.inl hold
          · omega
        · omega
      | ok t =>
        rw [hturn] at ha hplace hreads
        have hrest := ih (s := { t with p := t.p + 1 })
          (fun q hq => hps q (List.mem_cons_of_mem _ hq)) (cstr_after hstored hplace) a ha
        rcases hrest with hold | hin
        · rcases hreads a hold with hold | hin
          · rcases hlook a hold with hold | hhere
            · exact Or.inl hold
            · omega
          · omega
        · have hstart : t.p + 1 = s.p + p.chars.length := hplace
          have hbounds : t.p + 1 ≤ a ∧ a ≤ t.p + 1 + (ps.flatMap Piece.chars).length := hin
          omega

end Turn

/-! A directive that has its argument writes what it should. -/

section Writes
variable {m : Memory} {limit : Nat} {s : State} {as rest : List Arg}

theorem kdebugPuts_eq {a fuel : Nat} {cs : List UInt8} (h : CStr m a cs)
    (hfuel : cs.length < fuel) :
    kdebugPuts m fuel a = some cs := by
  induction fuel generalizing a cs with
  | zero => omega
  | succ fuel ih =>
    rw [kdebugPuts]
    cases cs with
    | nil => rw [if_pos (CStr.nil_iff.mp h)]
    | cons c cs =>
      obtain ⟨hc, hne, htail⟩ := CStr.cons_iff.mp h
      rw [List.length_cons] at hfuel
      rw [hc, if_neg hne, ih htail (by omega)]
      rfl

/-- The strings among the arguments end within the limit. -/
def Enough (m : Memory) (limit : Nat) (args : List Arg) : Prop :=
  ∀ v cs, Arg.pointer v ∈ args → CStr m v.toNat cs → cs.length < limit

theorem exists_enough (m : Memory) (args : List Arg) :
    ∃ bound, ∀ limit, bound ≤ limit → Enough m limit args := by
  induction args with
  | nil => exact ⟨0, fun limit _ v cs hv => absurd hv List.not_mem_nil⟩
  | cons arg args ih =>
    obtain ⟨bound, hbound⟩ := ih
    by_cases hstring : ∃ v cs, arg = .pointer v ∧ CStr m v.toNat cs
    · obtain ⟨v, cs, harg, hcs⟩ := hstring
      refine ⟨bound + cs.length + 1, fun limit hlimit w ds hw hds => ?_⟩
      rcases List.mem_cons.mp hw with hfirst | hlater
      · have hvw : w = v := Arg.pointer.inj (hfirst.trans harg)
        rw [hvw] at hds
        rw [hds.unique hcs]
        omega
      · exact hbound limit (by omega) w ds hlater hds
    · refine ⟨bound, fun limit hlimit w ds hw hds => ?_⟩
      rcases List.mem_cons.mp hw with hfirst | hlater
      · exact absurd ⟨w, ds, hfirst.symm, hds⟩ hstring
      · exact hbound limit hlimit w ds hlater hds

/-- What a directive does with the arguments that it asks for. -/
structure Converts (m : Memory) (p : Piece) (as rest : List Arg) (s t : State) : Prop where
  args_eq : t.args = rest
  writes : ∃ o, t.out = s.out ++ o ∧ Writes m p as o

theorem accepts_word {arg : Arg} (h : Kind.word.Accepts m arg) : ∃ v, arg = .word v := by
  cases arg with
  | word v => exact ⟨v, rfl⟩
  | long v => exact h.elim
  | pointer v => exact h.elim

theorem accepts_long {arg : Arg} (h : Kind.long.Accepts m arg) : ∃ v, arg = .long v := by
  cases arg with
  | word v => exact h.elim
  | long v => exact ⟨v, rfl⟩
  | pointer v => exact h.elim

theorem accepts_pointer {arg : Arg} (h : Kind.pointer.Accepts m arg) : ∃ v, arg = .pointer v := by
  cases arg with
  | word v => exact h.elim
  | long v => exact h.elim
  | pointer v => exact ⟨v, rfl⟩

theorem accepts_string {arg : Arg} (h : Kind.string.Accepts m arg) :
    ∃ v cs, arg = .pointer v ∧ CStr m v.toNat cs := by
  cases arg with
  | word v => exact h.elim
  | long v => exact h.elim
  | pointer v =>
    obtain ⟨cs, hcs⟩ := h
    exact ⟨v, cs, rfl, hcs⟩

theorem vaWord_eq {use : UInt32 → State → Except State State} {v : UInt32}
    (hargs : s.args = .word v :: rest) : s.vaWord use = use v { s with args := rest } := by
  rw [State.vaWord, hargs]

theorem vaLong_eq {use : UInt64 → State → Except State State} {v : UInt64}
    (hargs : s.args = .long v :: rest) : s.vaLong use = use v { s with args := rest } := by
  rw [State.vaLong, hargs]

theorem vaPointer_eq {use : UInt32 → State → Except State State} {v : UInt32}
    (hargs : s.args = .pointer v :: rest) : s.vaPointer use = use v { s with args := rest } := by
  rw [State.vaPointer, hargs]

theorem convert_number {isLong : Bool} {c : UInt8} {arg : Arg} (hc : IsNumber c)
    (harg : (if isLong then Kind.long else Kind.word).Accepts m arg)
    (hargs : s.args = arg :: rest) :
    ∃ t, (∀ limit, convert m limit isLong c s = .ok t) ∧
      Converts m (.directive isLong c) [arg] rest s t := by
  have hout : ∀ limit, convert m limit isLong c s =
      if isLong then s.vaLong fun u64 s => .ok (s.puts (bufChars (hextoasc64 u64 (isUpper c))))
      else s.vaWord fun u32 s => .ok (s.puts (bufChars (hextoasc32 u32 (isUpper c)))) := by
    intro limit
    unfold convert
    rcases hc with hd | hx
    · have hlower : isUpper c = false := by
        rw [hd]
        rfl
      rw [if_pos hd, hlower]
    · have hd : c ≠ 'd'.toUInt8 := by
        rcases hx with hx | hx <;> rw [hx] <;> decide
      rw [if_neg hd, if_pos hx]
      rfl
  simp only [hout]
  cases isLong with
  | true =>
    obtain ⟨v, hv⟩ := accepts_long harg
    subst hv
    rw [if_pos rfl, vaLong_eq hargs, bufChars_hextoasc64]
    exact ⟨_, fun _ => rfl, rfl, _, rfl, .long v hc⟩
  | false =>
    obtain ⟨v, hv⟩ := accepts_word harg
    subst hv
    rw [if_neg Bool.false_ne_true, vaWord_eq hargs, bufChars_hextoasc32]
    exact ⟨_, fun _ => rfl, rfl, _, rfl, .word v hc⟩

theorem convert_pointer (isLong : Bool) {v : UInt32} (hargs : s.args = .pointer v :: rest) :
    ∃ t, (∀ limit, convert m limit isLong 'p'.toUInt8 s = .ok t) ∧
      Converts m (.directive isLong 'p'.toUInt8) [.pointer v] rest s t := by
  have hhigh : v.toUInt64.toNat / 2 ^ 32 = 0 := by
    rw [UInt32.toNat_toUInt64]
    exact Nat.div_eq_of_lt v.toNat_lt
  have hout : ∀ limit, convert m limit isLong 'p'.toUInt8 s =
      .ok ({ s with args := rest }.puts (hex false 8 v.toNat)) := by
    intro limit
    unfold convert
    rw [if_neg (by decide), if_neg (by decide), if_pos rfl, vaPointer_eq hargs]
    simp only [hhigh, if_true, UInt32.toUInt32_toUInt64, bufChars_hextoasc32]
  exact ⟨_, hout, rfl, _, rfl, .pointer isLong v⟩

theorem convert_char (isLong : Bool) {v : UInt32} (hargs : s.args = .word v :: rest) :
    ∃ t, (∀ limit, convert m limit isLong 'c'.toUInt8 s = .ok t) ∧
      Converts m (.directive isLong 'c'.toUInt8) [.word v] rest s t := by
  have hout : ∀ limit, convert m limit isLong 'c'.toUInt8 s =
      .ok ((if v.toNat = 10 then { s with args := rest }.putc '\r'.toUInt8
        else { s with args := rest }).putc v.toUInt8) := by
    intro limit
    unfold convert
    rw [if_neg (by decide), if_neg (by decide), if_neg (by decide), if_pos rfl, vaWord_eq hargs]
  simp only [hout]
  by_cases hnewline : v.toNat = 10
  · simp only [if_pos hnewline]
    have hchar : v.toUInt8 = '\n'.toUInt8 := by
      apply UInt8.toNat_inj.mp
      rw [UInt32.toNat_toUInt8, hnewline]
      rfl
    refine ⟨_, fun _ => rfl, rfl, _, ?_, .newlineChar isLong hnewline⟩
    rw [State.putc, State.putc, hchar, List.append_assoc]
    rfl
  · simp only [if_neg hnewline]
    exact ⟨_, fun _ => rfl, rfl, _, rfl, .char isLong hnewline⟩

theorem convert_string (isLong : Bool) {v : UInt32} {cs : List UInt8}
    (hcs : CStr m v.toNat cs) (hargs : s.args = .pointer v :: rest) :
    ∃ t, (∀ limit, Enough m limit [.pointer v] → convert m limit isLong 's'.toUInt8 s = .ok t) ∧
      Converts m (.directive isLong 's'.toUInt8) [.pointer v] rest s t := by
  have hout : ∀ limit, Enough m limit [.pointer v] →
      convert m limit isLong 's'.toUInt8 s = .ok ({ s with args := rest }.puts cs) := by
    intro limit hlimit
    have hputs := kdebugPuts_eq hcs (hlimit v cs List.mem_cons_self hcs)
    unfold convert
    rw [if_neg (by decide), if_neg (by decide), if_neg (by decide), if_neg (by decide), if_pos rfl,
      vaPointer_eq hargs]
    simp only [hputs]
  exact ⟨_, hout, rfl, _, rfl, .string isLong hcs⟩

theorem convert_writes {isLong : Bool} {c : UInt8}
    (haccepts : List.Forall₂ (Kind.Accepts m) (Piece.directive isLong c).kinds as)
    (hargs : s.args = as ++ rest) :
    ∃ t, (∀ limit, Enough m limit as → convert m limit isLong c s = .ok t) ∧
      Converts m (.directive isLong c) as rest s t := by
  by_cases hnumber : IsNumber c
  · rw [Piece.kinds, if_pos hnumber] at haccepts
    obtain ⟨arg, _, harg, hnil, rfl⟩ := List.forall₂_cons_left_iff.mp haccepts
    rw [List.forall₂_nil_left_iff.mp hnil] at hargs ⊢
    obtain ⟨t, ht, hconverts⟩ := convert_number hnumber harg hargs
    exact ⟨t, fun limit _ => ht limit, hconverts⟩
  · by_cases hp : c = 'p'.toUInt8
    · subst hp
      rw [Piece.kinds, if_neg hnumber, if_pos rfl] at haccepts
      obtain ⟨arg, _, harg, hnil, rfl⟩ := List.forall₂_cons_left_iff.mp haccepts
      rw [List.forall₂_nil_left_iff.mp hnil] at hargs ⊢
      obtain ⟨v, hv⟩ := accepts_pointer harg
      subst hv
      obtain ⟨t, ht, hconverts⟩ := convert_pointer (m := m) isLong hargs
      exact ⟨t, fun limit _ => ht limit, hconverts⟩
    · by_cases hchar : c = 'c'.toUInt8
      · subst hchar
        rw [Piece.kinds, if_neg hnumber, if_neg hp, if_pos rfl] at haccepts
        obtain ⟨arg, _, harg, hnil, rfl⟩ := List.forall₂_cons_left_iff.mp haccepts
        rw [List.forall₂_nil_left_iff.mp hnil] at hargs ⊢
        obtain ⟨v, hv⟩ := accepts_word harg
        subst hv
        obtain ⟨t, ht, hconverts⟩ := convert_char (m := m) isLong hargs
        exact ⟨t, fun limit _ => ht limit, hconverts⟩
      · by_cases hs : c = 's'.toUInt8
        · subst hs
          rw [Piece.kinds, if_neg hnumber, if_neg hp, if_neg hchar, if_pos rfl] at haccepts
          obtain ⟨arg, _, harg, hnil, rfl⟩ := List.forall₂_cons_left_iff.mp haccepts
          rw [List.forall₂_nil_left_iff.mp hnil] at hargs ⊢
          obtain ⟨v, cs, hv, hcs⟩ := accepts_string harg
          subst hv
          exact convert_string isLong hcs hargs
        · have hkinds : (Piece.directive isLong c).kinds = [] := by
            rw [Piece.kinds, if_neg hnumber, if_neg hp, if_neg hchar, if_neg hs]
          rw [hkinds, List.forall₂_nil_left_iff] at haccepts
          subst haccepts
          have hd : c ≠ 'd'.toUInt8 := fun h => hnumber (Or.inl h)
          have hx : ¬(c = 'x'.toUInt8 ∨ c = 'X'.toUInt8) := fun h => hnumber (Or.inr h)
          have hout : ∀ limit, convert m limit isLong c s =
              .ok (if c = '%'.toUInt8 then s.putc c else (s.putc '%'.toUInt8).putc c) := by
            intro limit
            unfold convert
            rw [if_neg hd, if_neg hx, if_neg hp, if_neg hchar, if_neg hs]
            split_ifs <;> rfl
          simp only [hout]
          by_cases hpercent : c = '%'.toUInt8
          · subst hpercent
            rw [if_pos rfl]
            exact ⟨_, fun _ _ => rfl, hargs, _, rfl, .percent isLong⟩
          · rw [if_neg hpercent]
            refine ⟨_, fun _ _ => rfl, hargs, _, ?_, .unknown isLong hkinds hpercent⟩
            rw [State.putc, State.putc, List.append_assoc]
            rfl

end Writes

/-! The loop over all the pieces. -/

section Loop
variable {m : Memory} {limit : Nat} {s : State}

theorem turn_writes {p : Piece} {cs : List UInt8} {as rest : List Arg} (hp : p.WellFormed)
    (hstored : CStr m s.p (p.chars ++ cs)) (haccepts : List.Forall₂ (Kind.Accepts m) p.kinds as)
    (hargs : s.args = as ++ rest) :
    ∃ t, (∀ limit, Enough m limit as → turn m limit s = .ok t) ∧ Converts m p as rest s t := by
  cases p with
  | literal c =>
    obtain ⟨hc, _, _⟩ := CStr.cons_iff.mp hstored
    rw [List.forall₂_nil_left_iff.mp haccepts] at hargs ⊢
    simp only [turn_literal (hc ▸ hp : m s.p ≠ '%'.toUInt8), hc]
    by_cases hnewline : c = '\n'.toUInt8
    · rw [if_pos hnewline, hnewline]
      refine ⟨_, fun _ _ => rfl, hargs, _, ?_, .newline⟩
      rw [State.putc, State.putc, List.append_assoc]
      rfl
    · rw [if_neg hnewline]
      exact ⟨_, fun _ _ => rfl, hargs, _, rfl, .literal hnewline⟩
  | directive isLong c =>
    cases isLong with
    | false =>
      obtain ⟨hpercent, _, htail⟩ := CStr.cons_iff.mp hstored
      obtain ⟨hc, _, _⟩ := CStr.cons_iff.mp htail
      simp only [turn_short hpercent (hc ▸ hp), hc]
      obtain ⟨t, ht, hconverts⟩ := convert_writes (s := s.advance) haccepts hargs
      exact ⟨t, ht, hconverts.args_eq, hconverts.writes⟩
    | true =>
      obtain ⟨hpercent, _, htail⟩ := CStr.cons_iff.mp hstored
      obtain ⟨hl, _, htail⟩ := CStr.cons_iff.mp htail
      obtain ⟨hc, _, _⟩ := CStr.cons_iff.mp htail
      have hplace : m (s.p + 2) = c := hc
      simp only [turn_long hpercent hl, hplace]
      obtain ⟨t, ht, hconverts⟩ := convert_writes (s := s.advance.advance) haccepts hargs
      exact ⟨t, ht, hconverts.args_eq, hconverts.writes⟩

theorem forall₂_append_left {R : Kind → Arg → Prop} {ks ls : List Kind} {args : List Arg}
    (h : List.Forall₂ R (ks ++ ls) args) :
    ∃ as rest, args = as ++ rest ∧ List.Forall₂ R ks as ∧ List.Forall₂ R ls rest := by
  refine ⟨args.take ks.length, args.drop ks.length, (List.take_append_drop _ _).symm, ?_, ?_⟩
  · exact (List.forall₂_take_append _ _ _ h.flip).flip
  · exact (List.forall₂_drop_append _ _ _ h.flip).flip

theorem scan_succ {t : State} {fuel : Nat} (hne : m s.p ≠ 0) (hturn : turn m limit s.look = .ok t) :
    scan m limit (fuel + 1) s = scan m limit fuel { t with p := t.p + 1 } := by
  have hhere : m s.look.p ≠ 0 := hne
  rw [scan, if_neg hhere, hturn]

/-- The scanner goes through the pieces at the start of a format, one a turn. -/
theorem scan_pieces {ps : List Piece} {cs : List UInt8} (hps : ∀ p ∈ ps, p.WellFormed)
    (hstored : CStr m s.p (ps.flatMap Piece.chars ++ cs))
    (haccepts : List.Forall₂ (Kind.Accepts m) (ps.flatMap Piece.kinds) s.args) :
    ∃ t out, (∀ limit fuel, Enough m limit s.args →
        scan m limit (ps.length + fuel) s = scan m limit fuel t) ∧
      t.p = s.p + (ps.flatMap Piece.chars).length ∧ t.args = [] ∧ t.out = s.out ++ out ∧
      Renders m ps s.args out := by
  induction ps generalizing s with
  | nil =>
    have hnone := List.forall₂_nil_left_iff.mp haccepts
    refine ⟨s, [], fun limit fuel _ => ?_, rfl, hnone, (List.append_nil _).symm, ?_⟩
    · rw [List.length_nil, Nat.zero_add]
    · rw [hnone]
      exact .nil
  | cons p ps ih =>
    rw [List.flatMap_cons, List.append_assoc] at hstored
    rw [List.flatMap_cons] at haccepts
    have hp := hps p List.mem_cons_self
    obtain ⟨as, rest, hargs, has, hrest⟩ := forall₂_append_left haccepts
    obtain ⟨t, hturn, hconverts⟩ := turn_writes (s := s.look) hp hstored has hargs
    obtain ⟨o, ho, hwrites⟩ := hconverts.writes
    have hplace : t.p + 1 = s.p + p.chars.length := by
      obtain ⟨bound, hbound⟩ := exists_enough m as
      have hreads := (@turn_reads m bound s.look p _ hp hstored).1
      rwa [hturn bound (hbound bound (Nat.le_refl bound))] at hreads
    obtain ⟨u, out, hscan, hup, huargs, huout, hrenders⟩ := ih (s := { t with p := t.p + 1 })
      (fun q hq => hps q (List.mem_cons_of_mem _ hq)) (cstr_after hstored hplace)
      (hconverts.args_eq ▸ hrest)
    refine ⟨u, o ++ out, fun limit fuel hlimit => ?_, ?_, huargs, ?_, ?_⟩
    · have hhead : Enough m limit as := fun v ds hv =>
        hlimit v ds (hargs ▸ List.mem_append_left _ hv)
      have htail : Enough m limit t.args := fun v ds hv =>
        hlimit v ds (hargs ▸ List.mem_append_right _ (hconverts.args_eq ▸ hv))
      rw [List.length_cons, Nat.add_right_comm,
        scan_succ (first_ne_zero hstored) (hturn limit hhead), hscan limit fuel htail]
    · have hnext : u.p = t.p + 1 + (ps.flatMap Piece.chars).length := hup
      rw [hnext, List.flatMap_cons, List.length_append]
      omega
    · rw [huout, ho, List.append_assoc]
      rfl
    · have hsame : t.args = rest := hconverts.args_eq
      rw [hsame] at hrenders
      rw [hargs]
      exact .cons hwrites hrenders

theorem scan_nul {fuel : Nat} (hnul : m s.p = 0) : scan m limit (fuel + 1) s = (s.look, true) := by
  have hhere : m s.look.p = 0 := hnul
  rw [scan, if_pos hhere]

/-- A scanner that is behind a directive with a NUL in it reads on from there. -/
theorem convert_nul (isLong : Bool) :
    convert m limit isLong 0 s = .ok ((s.putc '%'.toUInt8).putc 0) := by
  unfold convert
  rw [if_neg (by decide), if_neg (by decide), if_neg (by decide), if_neg (by decide),
    if_neg (by decide), if_neg (by decide)]

theorem turn_keeps {a : Nat} (ha : a ∈ s.reads) : a ∈ (stateOf (turn m limit s)).reads := by
  have hadvance : a ∈ s.advance.reads := List.mem_append_left _ ha
  by_cases hpercent : m s.p = '%'.toUInt8
  · by_cases hl : m (s.p + 1) = 'l'.toUInt8
    · rw [turn_long hpercent hl, (convert_stays true _).reads_eq]
      exact List.mem_append_left _ hadvance
    · rw [turn_short hpercent hl, (convert_stays false _).reads_eq]
      exact hadvance
  · rw [turn_literal hpercent, stateOf]
    split_ifs
    · exact ha
    · exact ha

theorem scan_keeps {fuel a : Nat} (ha : a ∈ s.reads) : a ∈ (scan m limit fuel s).1.reads := by
  induction fuel generalizing s with
  | zero => exact ha
  | succ fuel ih =>
    have hlook : a ∈ s.look.reads := List.mem_append_left _ ha
    rw [scan]
    split_ifs
    · exact hlook
    · have hturn := @turn_keeps m limit s.look _ hlook
      cases hresult : turn m limit s.look with
      | error t =>
        rw [hresult] at hturn
        exact hturn
      | ok t =>
        rw [hresult] at hturn
        exact ih (s := { t with p := t.p + 1 }) hturn

theorem scan_looks {fuel : Nat} : s.p ∈ (scan m limit (fuel + 1) s).1.reads := by
  have hlook : s.p ∈ s.look.reads := List.mem_append_right _ (List.mem_singleton_self _)
  rw [scan]
  split_ifs
  · exact hlook
  · have hturn := @turn_keeps m limit s.look _ hlook
    cases hresult : turn m limit s.look with
    | error t =>
      rw [hresult] at hturn
      exact hturn
    | ok t =>
      rw [hresult] at hturn
      exact scan_keeps (s := { t with p := t.p + 1 }) hturn

end Loop

/-! The split of a format. -/

section Split
variable {m : Memory} {fmt : Nat} {cs : List UInt8} {args : List Arg}

theorem split_wellFormed (cs : List UInt8) : ∀ p ∈ (split cs).1, p.WellFormed := by
  fun_induction split cs with
  | case1 => simp
  | case2 c cs hc ih =>
    rw [List.forall_mem_cons]
    exact ⟨hc, ih⟩
  | case3 => simp
  | case4 c hc d ds hd ih =>
    rw [List.forall_mem_cons]
    exact ⟨hd, ih⟩
  | case5 => simp
  | case6 c hc d hd e es ih =>
    rw [List.forall_mem_cons]
    exact ⟨trivial, ih⟩

theorem split_chars (cs : List UInt8) : (split cs).1.flatMap Piece.chars ++ (split cs).2 = cs := by
  fun_induction split cs with
  | case1 => rfl
  | case2 c cs hc ih =>
    rw [List.flatMap_cons, List.append_assoc, ih]
    rfl
  | case3 => rfl
  | case4 c hc d ds hd ih =>
    rw [List.flatMap_cons, List.append_assoc, ih, not_not.mp hc]
    rfl
  | case5 => rfl
  | case6 c hc d hd e es ih =>
    rw [List.flatMap_cons, List.append_assoc, ih, not_not.mp hc, not_not.mp hd]
    rfl

theorem split_rest (cs : List UInt8) :
    (split cs).2 = [] ∨ (split cs).2 = ['%'.toUInt8] ∨
    (split cs).2 = ['%'.toUInt8, 'l'.toUInt8] := by
  fun_induction split cs with
  | case1 => exact Or.inl rfl
  | case2 c cs hc ih => exact ih
  | case3 c hc =>
    rw [not_not.mp hc]
    exact Or.inr (Or.inl rfl)
  | case4 c hc d ds hd ih => exact ih
  | case5 c hc d hd =>
    rw [not_not.mp hc, not_not.mp hd]
    exact Or.inr (Or.inr rfl)
  | case6 c hc d hd e es ih => exact ih

/-- The place behind the NUL is read when the format ends inside a directive. -/
theorem scan_past {limit fuel : Nat} {s : State} (hstored : CStr m s.p cs)
    (hrest : cs = ['%'.toUInt8] ∨ cs = ['%'.toUInt8, 'l'.toUInt8]) :
    s.p + cs.length + 1 ∈ (scan m limit (fuel + 2) s).1.reads := by
  rcases hrest with hshort | hlong
  · subst hshort
    obtain ⟨hpercent, hne, htail⟩ := CStr.cons_iff.mp hstored
    have hnul : m (s.p + 1) = 0 := CStr.nil_iff.mp htail
    have hl : m (s.look.p + 1) ≠ 'l'.toUInt8 := by
      have hzero : m (s.look.p + 1) = 0 := hnul
      rw [hzero]
      decide
    have hturn : turn m limit s.look = convert m limit false (m (s.p + 1)) s.look.advance :=
      turn_short hpercent hl
    rw [hnul, convert_nul] at hturn
    rw [scan_succ (hpercent ▸ hne) hturn]
    exact scan_looks (s := { s.look.advance with p := s.p + 2, out := _ })
  · subst hlong
    obtain ⟨hpercent, hne, htail⟩ := CStr.cons_iff.mp hstored
    obtain ⟨hl, _, htail⟩ := CStr.cons_iff.mp htail
    have hnul : m (s.p + 2) = 0 := CStr.nil_iff.mp htail
    have hturn : turn m limit s.look = convert m limit true (m (s.p + 2)) s.look.advance.advance :=
      turn_long hpercent hl
    rw [hnul, convert_nul] at hturn
    rw [scan_succ (hpercent ▸ hne) hturn]
    exact scan_looks (s := { s.look.advance.advance with p := s.p + 3, out := _ })

/-- The scanner stays inside its format when the format does not end inside a directive, and
only then. -/
theorem kdebug_inside_iff (hfmt : CStr m fmt cs)
    (hargs : List.Forall₂ (Kind.Accepts m) ((split cs).1.flatMap Piece.kinds) args) :
    ScansInside m fmt cs args ↔ (split cs).2 = [] := by
  have hchars := split_chars cs
  have hformat := hfmt
  rw [← hchars] at hformat
  let start : State := { p := fmt, args := args, reads := [], out := [] }
  obtain ⟨t, out, hscan, htp, _, htout, hrenders⟩ :=
    scan_pieces (s := start) (split_wellFormed cs) hformat hargs
  obtain ⟨bound, hbound⟩ := exists_enough m args
  have hplace : t.p = fmt + ((split cs).1.flatMap Piece.chars).length := htp
  constructor
  · intro h
    rcases split_rest cs with hnone | hrest
    · exact hnone
    · exfalso
      let fuel := (split cs).1.length + (bound + 2)
      have hpast := @scan_past m _ fuel bound t (htp ▸ hformat.drop) hrest
      rw [← hscan fuel _ (hbound fuel (by omega))] at hpast
      have hin := (h.inside fuel _ hpast).2
      have hlength := congrArg List.length hchars
      rw [List.length_append] at hlength
      omega
  · intro hnone
    rw [hnone, List.append_nil] at hformat hchars
    rw [hchars] at hplace
    constructor
    · intro fuel a ha
      have hreads := scan_reads (split_wellFormed cs) hformat a ha
      rw [hchars] at hreads
      rcases hreads with hold | hin
      · exact absurd hold List.not_mem_nil
      · exact hin
    · have hnul : m t.p = 0 := by
        have hend : CStr m (fmt + cs.length) [] := CStr.drop (by rwa [List.append_nil])
        rw [hplace]
        exact CStr.nil_iff.mp hend
      refine ⟨t.look, (split cs).1.length + bound + 1, fun fuel hfuel => ?_, hplace,
        (split cs).1, ⟨split_wellFormed cs, hchars⟩, ?_⟩
      · have hsplit : fuel = (split cs).1.length + (fuel - (split cs).1.length - 1 + 1) := by omega
        have hend := hscan fuel (fuel - (split cs).1.length - 1 + 1) (hbound fuel (by omega))
        rw [← hsplit, scan_nul hnul] at hend
        exact hend
      · have hwritten : t.look.out = out := htout
        rw [hwritten]
        exact hrenders

end Split

/-- `"%d"` with a number. -/
theorem kdebug_inside_number :
    let m : Memory := fun x => ['%'.toUInt8, 'd'.toUInt8].getD x 0
    ScansInside m 0 ['%'.toUInt8, 'd'.toUInt8] [.word 5] ↔
      (split ['%'.toUInt8, 'd'.toUInt8]).2 = [] := by
  apply kdebug_inside_iff
  · apply CStr.cons_iff.mpr
    refine ⟨rfl, by decide, ?_⟩
    apply CStr.cons_iff.mpr
    exact ⟨rfl, by decide, CStr.nil_iff.mpr rfl⟩
  · exact .cons trivial .nil

/-- `"%"`: the scanner reads the place behind the NUL. -/
theorem kdebug_reads_past :
    let m : Memory := fun x => ['%'.toUInt8].getD x 0
    CStr m 0 ['%'.toUInt8] ∧
    List.Forall₂ (Kind.Accepts m) ((split ['%'.toUInt8]).1.flatMap Piece.kinds) [] ∧
    2 ∈ (kdebug m 2 0 []).1.reads ∧ ¬ScansInside m 0 ['%'.toUInt8] [] := by
  intro m
  have hread : 2 ∈ (kdebug m 2 0 []).1.reads := by decide
  refine ⟨CStr.cons_iff.mpr ⟨rfl, by decide, CStr.nil_iff.mpr rfl⟩, .nil, hread, fun h => ?_⟩
  have hin := (h.inside 2 2 hread).2
  rw [List.length_singleton] at hin
  omega

end OsdevCourse.Kdebug
