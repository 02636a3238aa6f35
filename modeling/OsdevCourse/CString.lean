import Mathlib.Data.List.TakeWhile
import OsdevCourse.ByteMemory

/-!
# Strings that end with a NUL

`CStr m a cs`: the characters `cs`, none of them NUL, are in memory from the address `a` on,
and a NUL comes after them. Memory determines the string at an address.
-/

namespace OsdevCourse.Memory

set_option autoImplicit false

def CStr (m : Memory) (a : Nat) (cs : List UInt8) : Prop := Stored m a (cs ++ [0]) ∧ ∀ c ∈ cs, c ≠ 0

namespace CStr
variable {m m' : Memory} {a : Nat} {c : UInt8} {cs ds : List UInt8}

theorem nil_iff : CStr m a [] ↔ m a = 0 := by
  simp [CStr, Stored]

theorem cons_iff : CStr m a (c :: cs) ↔ m a = c ∧ c ≠ 0 ∧ CStr m (a + 1) cs := by
  simp only [CStr, List.cons_append, Stored, List.forall_mem_cons]
  constructor
  · rintro ⟨⟨hc, hstored⟩, hne, hcs⟩
    exact ⟨hc, hne, hstored, hcs⟩
  · rintro ⟨hc, hne, hstored, hcs⟩
    exact ⟨⟨hc, hstored⟩, hne, hcs⟩

theorem unique (hc : CStr m a cs) (hd : CStr m a ds) : cs = ds := by
  induction cs generalizing a ds with
  | nil =>
    cases ds with
    | nil => rfl
    | cons d ds =>
      obtain ⟨heq, hne, _⟩ := cons_iff.mp hd
      exact absurd (heq.symm.trans (nil_iff.mp hc)) hne
  | cons c cs ih =>
    obtain ⟨heq, hne, htail⟩ := cons_iff.mp hc
    cases ds with
    | nil => exact absurd (heq.symm.trans (nil_iff.mp hd)) hne
    | cons d ds =>
      obtain ⟨heq', _, htail'⟩ := cons_iff.mp hd
      rw [heq.symm.trans heq', ih htail htail']

theorem drop (h : CStr m a (cs ++ ds)) : CStr m (a + cs.length) ds := by
  induction cs generalizing a with
  | nil => exact h
  | cons c cs ih =>
    obtain ⟨_, _, htail⟩ := cons_iff.mp h
    rw [List.length_cons, Nat.add_comm cs.length 1, ← Nat.add_assoc]
    exact ih htail

theorem append (hstored : Stored m a ds) (hne : ∀ d ∈ ds, d ≠ 0) (h : CStr m (a + ds.length) cs) :
    CStr m a (ds ++ cs) := by
  refine ⟨?_, fun c hc => ?_⟩
  · rw [List.append_assoc]
    exact stored_append.mpr ⟨hstored, h.1⟩
  · rcases List.mem_append.mp hc with hc | hc
    · exact hne c hc
    · exact h.2 c hc

theorem isPrefix {n : Nat} (h : CStr m a cs) (hn : ∀ b ∈ readBytes m a n, b ≠ 0) :
    readBytes m a n <+: cs := by
  induction n generalizing a cs with
  | zero => exact List.nil_prefix
  | succ n ih =>
    rw [readBytes_succ] at hn ⊢
    have hfirst := hn (m a) List.mem_cons_self
    cases cs with
    | nil => exact absurd (nil_iff.mp h) hfirst
    | cons c cs =>
      obtain ⟨heq, _, htail⟩ := cons_iff.mp h
      rw [List.cons_prefix_cons]
      exact ⟨heq, ih htail fun b hb => hn b (List.mem_cons_of_mem _ hb)⟩

end CStr

/-- The characters in front of the first NUL. -/
def chars (bs : List UInt8) : List UInt8 := bs.takeWhile (· ≠ 0)

section Field
variable {m : Memory} {a n : Nat}

theorem chars_eq_self {bs : List UInt8} (h : ∀ b ∈ bs, b ≠ 0) : chars bs = bs := by
  apply List.takeWhile_eq_self_iff.mpr
  intro b hb
  exact decide_eq_true (h b hb)

theorem cstr_chars (h : 0 ∈ readBytes m a n) : CStr m a (chars (readBytes m a n)) := by
  induction n generalizing a with
  | zero => simp [readBytes] at h
  | succ n ih =>
    rw [readBytes_succ] at h ⊢
    by_cases hfirst : m a = 0
    · have hnone : chars (m a :: readBytes m (a + 1) n) = [] := by simp [chars, hfirst]
      rw [hnone]
      exact CStr.nil_iff.mpr hfirst
    · have hrest : 0 ∈ readBytes m (a + 1) n := by
        rcases List.mem_cons.mp h with hzero | hrest
        · exact absurd hzero.symm hfirst
        · exact hrest
      have hkeep : chars (m a :: readBytes m (a + 1) n) = m a :: chars (readBytes m (a + 1) n) := by
        simp [chars, hfirst]
      rw [hkeep]
      exact CStr.cons_iff.mpr ⟨rfl, hfirst, ih hrest⟩

end Field

end OsdevCourse.Memory
