import OsdevCourse.BootPaging
import OsdevCourse.Libgloss

/-!
# Constructors and destructors: `crt0.s` and `boot.s`

Both call the functions of a table in order, then `main` or `kmain`, and then those of a second
table from its end back. The word 0 and the word -1 of a table are no functions. The loops go by
`esi`, which a function of C gives back.
-/

namespace OsdevCourse.RuntimeTables

set_option autoImplicit false

open I686
open Traps (addImm subImm cmpImm)
open Boot (below below_cmpImm)

/-- Where the linker has put the tables, the function between them, and where the stack ends. -/
structure Tables where
  ctorStart : UInt32
  ctorEnd : UInt32
  dtorStart : UInt32
  dtorEnd : UInt32
  main : UInt32
  stackEnd : Nat

def InTables (t : Tables) (n : Nat) : Prop :=
  t.ctorStart.toNat ≤ n ∧ n < t.ctorEnd.toNat ∨ t.dtorStart.toNat ≤ n ∧ n < t.dtorEnd.toNat

/-- A function of C that was called with so many arguments has returned. The arguments are its
own. -/
structure Returned (t : Tables) (args : Nat) (σ τ : Cpu) : Prop where
  saved : ∀ r ∈ [Reg.ebx, .ebp, .esp, .esi, .edi], τ.reg r = σ.reg r
  stack : ∀ n, (σ.reg .esp).toNat + 4 * args ≤ n → n < t.stackEnd → τ.mem n = σ.mem n
  tables : ∀ n, InTables t n → τ.mem n = σ.mem n

/-- The word at `esi` in `eax`, and whether `jz` or `je` skips it. -/
def testEntry (σ : Cpu) : Cpu × Bool :=
  let σ := σ.movLoad .eax (σ.reg .esi)
  let σ := σ.orSelf .eax
  if σ.zero then (σ, true)
  else
    let σ := cmpImm σ .eax (-1)
    (σ, σ.zero)

/-- How `main` is called between the loops: what is pushed for it, the number of its arguments, and
what is done when it has returned. -/
structure Caller where
  enter : Cpu → Cpu
  args : Nat
  leave : Cpu → Cpu

/-- `crt0.s`: the two arguments of `main`, and its result as the argument of `_exit`. -/
def crt0Caller (env : UInt32) : Caller where
  enter σ := (σ.push env).push 0
  args := 2
  leave ρ := ρ.push (ρ.reg .eax)

/-- `boot.s`: the argument of `kmain` has been left by the call of `mmu_init`. -/
def bootCaller : Caller where
  enter σ := σ
  args := 1
  leave ρ := addImm ρ .esp (UInt32.ofNat 4)

/-- In the first loop, in `main`, in the second loop, and behind it. -/
inductive Label
  | ctors
  | main
  | dtors
  | done

structure State where
  label : Label
  cpu : Cpu

def ctorHead (t : Tables) (σ : Cpu) : Cpu := cmpImm σ .esi t.ctorEnd

def dtorHead (t : Tables) (σ : Cpu) : Cpu :=
  cmpImm (subImm σ .esi (UInt32.ofNat 4)) .esi t.dtorStart

/-- A turn of a loop, with the function that is called, the call of `main`, and its return. -/
inductive Step (t : Tables) (c : Caller) : State → Option UInt32 → State → Prop where
  | skip {σ : Cpu} : below (ctorHead t σ) = true → (testEntry (ctorHead t σ)).2 = true →
    Step t c ⟨.ctors, σ⟩ none
      ⟨.ctors, addImm (testEntry (ctorHead t σ)).1 .esi (UInt32.ofNat 4)⟩
  | construct {σ τ : Cpu} : below (ctorHead t σ) = true → (testEntry (ctorHead t σ)).2 = false →
    Returned t 0 (testEntry (ctorHead t σ)).1 τ →
    Step t c ⟨.ctors, σ⟩ (some ((testEntry (ctorHead t σ)).1.reg .eax))
      ⟨.ctors, addImm τ .esi (UInt32.ofNat 4)⟩
  | main {σ : Cpu} : below (ctorHead t σ) = false →
    Step t c ⟨.ctors, σ⟩ (some t.main) ⟨.main, c.enter (ctorHead t σ)⟩
  | leave {σ ρ : Cpu} : Returned t c.args σ ρ →
    Step t c ⟨.main, σ⟩ none ⟨.dtors, (c.leave ρ).set .esi t.dtorEnd⟩
  | pass {σ : Cpu} : below (dtorHead t σ) = false → (testEntry (dtorHead t σ)).2 = true →
    Step t c ⟨.dtors, σ⟩ none ⟨.dtors, (testEntry (dtorHead t σ)).1⟩
  | destruct {σ τ : Cpu} : below (dtorHead t σ) = false → (testEntry (dtorHead t σ)).2 = false →
    Returned t 0 (testEntry (dtorHead t σ)).1 τ →
    Step t c ⟨.dtors, σ⟩ (some ((testEntry (dtorHead t σ)).1.reg .eax)) ⟨.dtors, τ⟩
  | finish {σ : Cpu} : below (dtorHead t σ) = true →
    Step t c ⟨.dtors, σ⟩ none ⟨.done, dtorHead t σ⟩

/-- A run in which `main` was called with the processor `σ` and has returned with `ρ`. -/
structure Through (t : Tables) (c : Caller) (s₀ : State) (as₁ : List (Option UInt32)) (σ ρ : Cpu)
    (as₂ : List (Option UInt32)) (s : State) : Prop where
  before : Run (Step t c) s₀ as₁ ⟨.main, σ⟩
  returned : Returned t c.args σ ρ
  after : Run (Step t c) ⟨.dtors, (c.leave ρ).set .esi t.dtorEnd⟩ as₂ s

def IsFunction (w : UInt32) : Bool := w ≠ 0 ∧ w ≠ -1

def plan (t : Tables) (cs ds : List UInt32) : List UInt32 :=
  cs.filter IsFunction ++ t.main :: (ds.filter IsFunction).reverse

def called (as : List (Option UInt32)) : List UInt32 := as.filterMap id

/-! ### One word of a table -/

section Entry
variable {σ : Cpu} {r : Reg}

theorem zero_cmpImm (σ : Cpu) (r : Reg) (v : UInt32) :
    (cmpImm σ r v).zero = decide (σ.reg r = v) := by
  have hdifference :
      (Traps.differenceStatus (σ.reg r) v ||| Cpu.resultStatus (σ.reg r - v)) &&& 0x40 =
        if σ.reg r - v = 0 then 0x40 else 0 := by
    unfold Traps.differenceStatus Cpu.resultStatus
    split_ifs <;> decide
  unfold Cpu.zero cmpImm
  rw [Cpu.setStatus_zero, hdifference]
  by_cases heq : σ.reg r = v
  · rw [heq, UInt32.sub_self, if_pos rfl, decide_eq_true rfl]
    decide
  · have hne : σ.reg r - v ≠ 0 := by
      intro hzero
      apply heq
      rw [← UInt32.sub_add_cancel (σ.reg r) v, hzero, UInt32.zero_add]
    rw [if_neg hne, decide_eq_false heq]
    decide

structure Tested (σ τ : Cpu) : Prop where
  eax : τ.reg .eax = load σ.mem (σ.reg .esi)
  reg : ∀ r, r ≠ .eax → τ.reg r = σ.reg r
  mem : τ.mem = σ.mem

theorem testEntry_spec (σ : Cpu) : Tested σ (testEntry σ).1 ∧
    (testEntry σ).2 = !IsFunction (load σ.mem (σ.reg .esi)) := by
  have heax : ((σ.movLoad .eax (σ.reg .esi)).orSelf .eax).reg .eax = load σ.mem (σ.reg .esi) := by
    simp [Cpu.orSelf, Cpu.movLoad, Cpu.set]
  have hzero := Cpu.zero_orSelf (σ.movLoad .eax (σ.reg .esi)) .eax
  have hvalue : (σ.movLoad .eax (σ.reg .esi)).reg .eax = load σ.mem (σ.reg .esi) := by
    simp [Cpu.movLoad, Cpu.set]
  rw [hvalue] at hzero
  unfold testEntry IsFunction
  simp only [hzero, zero_cmpImm, heax]
  by_cases hnull : load σ.mem (σ.reg .esi) = 0
  · rw [if_pos (decide_eq_true hnull)]
    refine ⟨⟨heax, fun r hr => ?_, rfl⟩, ?_⟩
    · simp [Cpu.orSelf, Cpu.movLoad, Cpu.set, hr]
    · simp [hnull]
  · rw [if_neg (by simp [hnull])]
    refine ⟨⟨heax, fun r hr => ?_, rfl⟩, ?_⟩
    · simp [cmpImm, Cpu.orSelf, Cpu.movLoad, Cpu.set, hr]
    · simp [hnull]

end Entry

/-! ### The loops -/

structure Laid (t : Tables) (m : Memory) (cs ds : List UInt32) : Prop where
  ctors : Words m t.ctorStart.toNat cs
  ctorEnd : t.ctorEnd.toNat = t.ctorStart.toNat + 4 * cs.length
  dtors : Words m t.dtorStart.toNat ds
  dtorEnd : t.dtorEnd.toNat = t.dtorStart.toNat + 4 * ds.length
  room : 4 ≤ t.dtorStart.toNat

def Kept (t : Tables) (m : Memory) (σ : Cpu) : Prop := ∀ n, InTables t n → σ.mem n = m n

/-- The stack is the one of the start, with what was on it then. -/
def Same (t : Tables) (top : UInt32) (m : Memory) (σ : Cpu) : Prop :=
  σ.reg .esp = top ∧ ∀ n, top.toNat ≤ n → n < t.stackEnd → σ.mem n = m n

/-- Neither the call of `main` nor what is done behind it writes to the tables. -/
structure Caller.Quiet (t : Tables) (c : Caller) (top : UInt32) : Prop where
  enter : ∀ σ : Cpu, σ.reg .esp = top → ∀ n, InTables t n → (c.enter σ).mem n = σ.mem n
  leave : ∀ σ ρ : Cpu, σ.reg .esp = top → Returned t c.args (c.enter σ) ρ →
    ∀ n, InTables t n → (c.leave ρ).mem n = ρ.mem n

/-- Where the loops are after the steps so far: each has been for one word, or for `main`. -/
inductive At (t : Tables) (c : Caller) (top : UInt32) (m : Memory) (cs ds : List UInt32) :
    List (Option UInt32) → State → Prop where
  | ctors {as : List (Option UInt32)} {σ : Cpu} : as.length ≤ cs.length →
    (σ.reg .esi).toNat = t.ctorStart.toNat + 4 * as.length → Same t top m σ → Kept t m σ →
    called as = (cs.take as.length).filter IsFunction → At t c top m cs ds as ⟨.ctors, σ⟩
  | main {as : List (Option UInt32)} {σ : Cpu} : as.length = cs.length + 1 → Same t top m σ →
    Kept t m (c.enter σ) → called as = cs.filter IsFunction ++ [t.main] →
    At t c top m cs ds as ⟨.main, c.enter σ⟩
  | dtors {as : List (Option UInt32)} {σ : Cpu} {j : Nat} : j ≤ ds.length →
    as.length + j = cs.length + 2 + ds.length → (σ.reg .esi).toNat = t.dtorStart.toNat + 4 * j →
    Kept t m σ →
    called as = cs.filter IsFunction ++ t.main :: ((ds.drop j).filter IsFunction).reverse →
    At t c top m cs ds as ⟨.dtors, σ⟩
  | done {as : List (Option UInt32)} {σ : Cpu} : as.length = cs.length + ds.length + 3 →
    called as = plan t cs ds → At t c top m cs ds as ⟨.done, σ⟩

section Loops
variable {t : Tables} {c : Caller} {top : UInt32} {m : Memory} {cs ds : List UInt32}
  {as : List (Option UInt32)} {σ τ : Cpu} {i j : Nat} {s s' : State}

theorem called_snoc (as : List (Option UInt32)) (a : Option UInt32) :
    called (as ++ [a]) = called as ++ a.toList := by
  unfold called
  rw [List.filterMap_append]
  cases a <;> rfl

theorem Laid.ctor (h : Laid t m cs ds) (hkept : Kept t m σ) (hi : i < cs.length)
    (hesi : (σ.reg .esi).toNat = t.ctorStart.toNat + 4 * i) : load σ.mem (σ.reg .esi) = cs[i] := by
  have hwords : Words σ.mem t.ctorStart.toNat cs := by
    apply h.ctors.congr
    intro n hlow hhigh
    exact hkept n (.inl ⟨hlow, by rw [h.ctorEnd]; exact hhigh⟩)
  exact hwords.load_at (List.getElem?_eq_getElem hi) hesi

theorem Laid.dtor (h : Laid t m cs ds) (hkept : Kept t m σ) (hj : j < ds.length)
    (hesi : (σ.reg .esi).toNat = t.dtorStart.toNat + 4 * j) : load σ.mem (σ.reg .esi) = ds[j] := by
  have hwords : Words σ.mem t.dtorStart.toNat ds := by
    apply h.dtors.congr
    intro n hlow hhigh
    exact hkept n (.inr ⟨hlow, by rw [h.dtorEnd]; exact hhigh⟩)
  exact hwords.load_at (List.getElem?_eq_getElem hj) hesi

theorem Laid.below_ctor (h : Laid t m cs ds)
    (hesi : (σ.reg .esi).toNat = t.ctorStart.toNat + 4 * i) :
    below (ctorHead t σ) = decide (i < cs.length) := by
  have hend := h.ctorEnd
  rw [ctorHead, below_cmpImm]
  apply decide_eq_decide.mpr
  rw [UInt32.lt_iff_toNat_lt, hesi, hend]
  omega

theorem Laid.sub_dtor (h : Laid t m cs ds)
    (hesi : (σ.reg .esi).toNat = t.dtorStart.toNat + 4 * j) :
    ((subImm σ .esi (UInt32.ofNat 4)).reg .esi).toNat = t.dtorStart.toNat + 4 * j - 4 := by
  have hroom := h.room
  have hvalue : (subImm σ .esi (UInt32.ofNat 4)).reg .esi = σ.reg .esi - UInt32.ofNat 4 := by
    simp [subImm, Cpu.set]
  rw [hvalue, toNat_sub_offset (by omega), hesi]

theorem Laid.below_dtor (h : Laid t m cs ds)
    (hesi : (σ.reg .esi).toNat = t.dtorStart.toNat + 4 * j) :
    below (dtorHead t σ) = decide (j = 0) := by
  have hroom := h.room
  rw [dtorHead, below_cmpImm]
  apply decide_eq_decide.mpr
  rw [UInt32.lt_iff_toNat_lt, h.sub_dtor hesi]
  omega

theorem filter_take_succ (hi : i < cs.length) : (cs.take (i + 1)).filter IsFunction =
    (cs.take i).filter IsFunction ++ if IsFunction cs[i] then [cs[i]] else [] := by
  rw [List.take_succ_eq_append_getElem hi, List.filter_append]
  congr 1
  by_cases hf : IsFunction cs[i] = true
  · rw [if_pos hf, List.filter_cons_of_pos hf]
    rfl
  · rw [if_neg hf, List.filter_cons_of_neg hf]
    rfl

theorem reverse_drop (hj : j < ds.length) : ((ds.drop j).filter IsFunction).reverse =
    ((ds.drop (j + 1)).filter IsFunction).reverse ++ if IsFunction ds[j] then [ds[j]] else [] := by
  rw [List.drop_eq_getElem_cons hj]
  by_cases hf : IsFunction ds[j] = true
  · rw [if_pos hf, List.filter_cons_of_pos hf, List.reverse_cons]
  · rw [if_neg hf, List.filter_cons_of_neg hf, List.append_nil]

theorem Same.trans (h : Same t (σ.reg .esp) σ.mem τ) (hσ : Same t top m σ) : Same t top m τ := by
  obtain ⟨hesp, hstack⟩ := hσ
  obtain ⟨hesp', hstack'⟩ := h
  rw [hesp] at hesp' hstack'
  exact ⟨hesp', fun n hlow hhigh => (hstack' n hlow hhigh).trans (hstack n hlow hhigh)⟩

theorem Tested.same (h : Tested σ τ) : Same t (σ.reg .esp) σ.mem τ :=
  ⟨h.reg .esp (by decide), fun n _ _ => by rw [h.mem]⟩

theorem Returned.same (h : Returned t 0 σ τ) : Same t (σ.reg .esp) σ.mem τ :=
  ⟨h.saved .esp (by simp), fun n hlow hhigh => h.stack n hlow hhigh⟩

theorem Tested.kept (h : Tested σ τ) (hkept : Kept t m σ) : Kept t m τ := by
  intro n hn
  rw [h.mem]
  exact hkept n hn

theorem Returned.kept {args : Nat} (h : Returned t args σ τ) (hkept : Kept t m σ) :
    Kept t m τ := by
  intro n hn
  rw [h.tables n hn]
  exact hkept n hn

theorem dtorHead_same : Same t (σ.reg .esp) σ.mem (dtorHead t σ) :=
  ⟨by simp [dtorHead, cmpImm, subImm, Cpu.set], fun _ _ _ => rfl⟩

theorem Laid.test_ctor (h : Laid t m cs ds) (hkept : Kept t m σ) (hi : i < cs.length)
    (hesi : (σ.reg .esi).toNat = t.ctorStart.toNat + 4 * i) :
    Tested (ctorHead t σ) (testEntry (ctorHead t σ)).1 ∧
    (testEntry (ctorHead t σ)).1.reg .eax = cs[i] ∧
    (testEntry (ctorHead t σ)).2 = !IsFunction cs[i] := by
  obtain ⟨htested, htest⟩ := testEntry_spec (ctorHead t σ)
  have hword : load (ctorHead t σ).mem ((ctorHead t σ).reg .esi) = cs[i] :=
    h.ctor hkept hi hesi
  have heax := htested.eax
  rw [hword] at heax htest
  exact ⟨htested, heax, htest⟩

theorem At.next_ctor (h : Laid t m cs ds) (hi : as.length < cs.length)
    (hesi : (σ.reg .esi).toNat = t.ctorStart.toNat + 4 * as.length) (hsame : Same t top m σ)
    (hkept : Kept t m σ) {a : Option UInt32}
    (hcalled : called as = (cs.take as.length).filter IsFunction)
    (ha : a.toList = if IsFunction cs[as.length] then [cs[as.length]] else []) :
    At t c top m cs ds (as ++ [a]) ⟨.ctors, addImm σ .esi (UInt32.ofNat 4)⟩ := by
  have hend := h.ctorEnd
  have hlt := t.ctorEnd.toNat_lt
  have hlength : (as ++ [a]).length = as.length + 1 := List.length_append
  have hvalue : (addImm σ .esi (UInt32.ofNat 4)).reg .esi = σ.reg .esi + UInt32.ofNat 4 := by
    simp [addImm, Cpu.set]
  refine .ctors (by omega) ?_ ⟨?_, hsame.2⟩ hkept ?_
  · rw [hvalue, toNat_add_offset (by omega), hesi, hlength]
    omega
  · rw [← hsame.1]
    simp [addImm, Cpu.set]
  · rw [called_snoc, hcalled, hlength, filter_take_succ hi, ha]

theorem At.next_dtor (hj : j < ds.length)
    (hlength : as.length + (j + 1) = cs.length + 2 + ds.length)
    (hesi : (σ.reg .esi).toNat = t.dtorStart.toNat + 4 * j) (hkept : Kept t m σ)
    {a : Option UInt32}
    (hcalled : called as =
      cs.filter IsFunction ++ t.main :: ((ds.drop (j + 1)).filter IsFunction).reverse)
    (ha : a.toList = if IsFunction ds[j] then [ds[j]] else []) :
    At t c top m cs ds (as ++ [a]) ⟨.dtors, σ⟩ := by
  refine .dtors (Nat.le_of_lt hj) ?_ hesi hkept ?_
  · have hsnoc : (as ++ [a]).length = as.length + 1 := List.length_append
    omega
  · rw [called_snoc, hcalled, reverse_drop hj, ha, List.append_assoc, List.cons_append]

/-- A turn of the second loop that is not its last, and the test of its word. -/
theorem Laid.test_dtor (h : Laid t m cs ds) (hkept : Kept t m σ) (hle : j ≤ ds.length)
    (hesi : (σ.reg .esi).toNat = t.dtorStart.toNat + 4 * j)
    (hbelow : below (dtorHead t σ) = false) :
    ∃ k, ∃ hk : k < ds.length, j = k + 1 ∧
      ((dtorHead t σ).reg .esi).toNat = t.dtorStart.toNat + 4 * k ∧
      Tested (dtorHead t σ) (testEntry (dtorHead t σ)).1 ∧
      (testEntry (dtorHead t σ)).1.reg .eax = ds[k] ∧
      (testEntry (dtorHead t σ)).2 = !IsFunction ds[k] := by
  rw [h.below_dtor hesi, decide_eq_false_iff_not] at hbelow
  obtain ⟨k, rfl⟩ := Nat.exists_eq_succ_of_ne_zero hbelow
  have hplace := h.sub_dtor hesi
  have hprevious : ((subImm σ .esi (UInt32.ofNat 4)).reg .esi).toNat =
      t.dtorStart.toNat + 4 * k := by omega
  obtain ⟨htested, htest⟩ := testEntry_spec (dtorHead t σ)
  have hword : load (dtorHead t σ).mem ((dtorHead t σ).reg .esi) = ds[k] :=
    h.dtor (σ := subImm σ .esi (UInt32.ofNat 4)) hkept hle hprevious
  have heax := htested.eax
  rw [hword] at heax htest
  exact ⟨k, hle, rfl, hprevious, htested, heax, htest⟩

theorem At.step (h : Laid t m cs ds) (hquiet : c.Quiet t top) {a : Option UInt32}
    (hat : At t c top m cs ds as s) (hstep : Step t c s a s') :
    At t c top m cs ds (as ++ [a]) s' := by
  have hsnoc : (as ++ [a]).length = as.length + 1 := List.length_append
  cases hstep with
  | skip hbelow hskip =>
    cases hat with
    | ctors hle hesi hsame hkept hcalled =>
      rename_i σ
      rw [h.below_ctor hesi, decide_eq_true_iff] at hbelow
      obtain ⟨htested, _, htest⟩ := h.test_ctor hkept hbelow hesi
      rw [htest, Bool.not_eq_true'] at hskip
      refine At.next_ctor h hbelow ?_ (htested.same.trans hsame) (htested.kept hkept) hcalled ?_
      · rw [htested.reg .esi (by decide)]
        exact hesi
      · rw [hskip]
        rfl
  | construct hbelow hcall hreturned =>
    cases hat with
    | ctors hle hesi hsame hkept hcalled =>
      rename_i σ τ
      rw [h.below_ctor hesi, decide_eq_true_iff] at hbelow
      obtain ⟨htested, heax, htest⟩ := h.test_ctor hkept hbelow hesi
      rw [htest, Bool.not_eq_false'] at hcall
      refine At.next_ctor h hbelow ?_ (hreturned.same.trans (htested.same.trans hsame))
        (hreturned.kept (htested.kept hkept)) hcalled ?_
      · rw [hreturned.saved .esi (by simp), htested.reg .esi (by decide)]
        exact hesi
      · rw [hcall, if_pos rfl, heax]
        rfl
  | main hbelow =>
    cases hat with
    | ctors hle hesi hsame hkept hcalled =>
      rename_i σ
      rw [h.below_ctor hesi, decide_eq_false_iff_not] at hbelow
      have hall : as.length = cs.length := by omega
      refine .main (by omega) hsame ?_ ?_
      · intro n hn
        exact (hquiet.enter (ctorHead t σ) hsame.1 n hn).trans (hkept n hn)
      · rw [called_snoc, hcalled, hall, List.take_length]
        rfl
  | leave hreturned =>
    cases hat with
    | main hlength hsame hkept hcalled =>
      rename_i ρ σ
      have hvalue : ((c.leave ρ).set .esi t.dtorEnd).reg .esi = t.dtorEnd := by simp [Cpu.set]
      refine .dtors (Nat.le_refl _) (by omega) ?_ ?_ ?_
      · rw [hvalue]
        exact h.dtorEnd
      · intro n hn
        exact (hquiet.leave σ ρ hsame.1 hreturned n hn).trans (hreturned.kept hkept n hn)
      · rw [called_snoc, hcalled, List.drop_length]
        exact List.append_nil _
  | pass hbelow hskip =>
    cases hat with
    | dtors hle hlength hesi hkept hcalled =>
      rename_i σ j
      obtain ⟨k, hk, rfl, hplace, htested, _, htest⟩ := h.test_dtor hkept hle hesi hbelow
      rw [htest, Bool.not_eq_true'] at hskip
      refine At.next_dtor hk hlength ?_ (htested.kept hkept) hcalled ?_
      · rw [htested.reg .esi (by decide)]
        exact hplace
      · rw [hskip]
        rfl
  | destruct hbelow hcall hreturned =>
    cases hat with
    | dtors hle hlength hesi hkept hcalled =>
      rename_i σ τ j
      obtain ⟨k, hk, rfl, hplace, htested, heax, htest⟩ := h.test_dtor hkept hle hesi hbelow
      rw [htest, Bool.not_eq_false'] at hcall
      refine At.next_dtor hk hlength ?_ (hreturned.kept (htested.kept hkept)) hcalled ?_
      · rw [hreturned.saved .esi (by simp), htested.reg .esi (by decide)]
        exact hplace
      · rw [hcall, if_pos rfl, heax]
        rfl
  | finish hbelow =>
    cases hat with
    | dtors hle hlength hesi hkept hcalled =>
      rename_i σ j
      rw [h.below_dtor hesi, decide_eq_true_iff] at hbelow
      subst hbelow
      refine .done (by omega) ?_
      rw [called_snoc, hcalled, List.drop_zero]
      exact List.append_nil _

theorem At.length_le (hat : At t c top m cs ds as s) :
    as.length ≤ cs.length + ds.length + 3 := by
  cases hat with
  | ctors hle => omega
  | main hlength => omega
  | dtors hle hlength => omega
  | done hlength => omega

theorem At.called_prefix (hat : At t c top m cs ds as s) : called as <+: plan t cs ds := by
  cases hat with
  | ctors hle hesi hsame hkept hcalled =>
    rw [hcalled]
    exact ((List.take_prefix _ cs).filter IsFunction).trans (List.prefix_append _ _)
  | main hlength hsame hkept hcalled =>
    rw [hcalled]
    exact (List.prefix_append_right_inj _).mpr ⟨_, rfl⟩
  | dtors hle hlength hesi hkept hcalled =>
    rename_i σ j
    have hsuffix : (ds.drop j).filter IsFunction <:+ ds.filter IsFunction :=
      (List.drop_suffix j ds).filter IsFunction
    rw [hcalled]
    refine (List.prefix_append_right_inj _).mpr ((List.prefix_cons_inj _).mpr ?_)
    exact List.reverse_prefix.mpr hsuffix
  | done hlength hcalled =>
    rw [hcalled]

theorem returned_self (args : Nat) : Returned t args σ σ :=
  ⟨fun _ _ => rfl, fun _ _ _ => rfl, fun _ _ => rfl⟩

theorem Step.progress (hdone : s.label ≠ .done) : ∃ a s', Step t c s a s' := by
  obtain ⟨label, σ⟩ := s
  cases label with
  | ctors =>
    cases hbelow : below (ctorHead t σ) with
    | true =>
      cases hskip : (testEntry (ctorHead t σ)).2 with
      | true => exact ⟨_, _, .skip hbelow hskip⟩
      | false => exact ⟨_, _, .construct hbelow hskip (returned_self 0)⟩
    | false => exact ⟨_, _, .main hbelow⟩
  | main => exact ⟨_, _, .leave (returned_self c.args)⟩
  | dtors =>
    cases hbelow : below (dtorHead t σ) with
    | true => exact ⟨_, _, .finish hbelow⟩
    | false =>
      cases hskip : (testEntry (dtorHead t σ)).2 with
      | true => exact ⟨_, _, .pass hbelow hskip⟩
      | false => exact ⟨_, _, .destruct hbelow hskip (returned_self 0)⟩
  | done => exact absurd rfl hdone

/-- The loops come to their end, by induction on the steps that are left. -/
theorem At.completes (h : Laid t m cs ds) (hquiet : c.Quiet t top)
    (hat : At t c top m cs ds as s) :
    ∃ bs s', Run (Step t c) s bs s' ∧ s'.label = .done := by
  generalize hleft : cs.length + ds.length + 3 - as.length = left
  induction left generalizing as s with
  | zero =>
    by_cases hlabel : s.label = .done
    · exact ⟨[], s, .nil s, hlabel⟩
    · obtain ⟨a, s', hstep⟩ := Step.progress (t := t) (c := c) hlabel
      have hbound := (hat.step h hquiet hstep).length_le
      rw [List.length_append, List.length_singleton] at hbound
      omega
  | succ left ih =>
    by_cases hlabel : s.label = .done
    · exact ⟨[], s, .nil s, hlabel⟩
    · obtain ⟨a, s', hstep⟩ := Step.progress (t := t) (c := c) hlabel
      have hlength : (as ++ [a]).length = as.length + 1 := List.length_append
      obtain ⟨bs, s'', hrun, hdone⟩ := ih (hat.step h hquiet hstep) (by omega)
      exact ⟨_, s'', .cons hstep hrun, hdone⟩

theorem At.main_called (hat : At t c top m cs ds as s) (hmain : s.label = .main) :
    ∃ σ, Same t top m σ ∧ s.cpu = c.enter σ := by
  cases hat with
  | ctors | dtors | done => cases hmain
  | main _ hsame => exact ⟨_, hsame, rfl⟩

theorem At.plan_done (hat : At t c top m cs ds as s) (hdone : s.label = .done) :
    called as = plan t cs ds := by
  cases hat with
  | ctors | main | dtors => cases hdone
  | done _ hcalled => exact hcalled

/-! ### The stack behind `main` -/

def State.Behind (s : State) : Prop := s.label = .dtors ∨ s.label = .done

/-- The second loop leaves the stack as it is, whatever the tables hold. -/
theorem Step.behind {a : Option UInt32} (hstep : Step t c s a s') (hs : s.Behind) :
    Same t (s.cpu.reg .esp) s.cpu.mem s'.cpu ∧ s'.Behind := by
  cases hstep with
  | skip | construct | main | leave => rcases hs with hs | hs <;> cases hs
  | pass =>
    exact ⟨.trans (testEntry_spec _).1.same dtorHead_same, .inl rfl⟩
  | destruct _ _ hreturned =>
    exact ⟨.trans hreturned.same (.trans (testEntry_spec _).1.same dtorHead_same), .inl rfl⟩
  | finish => exact ⟨dtorHead_same, .inr rfl⟩

theorem run_behind (hrun : Run (Step t c) s as s') (hs : s.Behind) :
    Same t (s.cpu.reg .esp) s.cpu.mem s'.cpu := by
  induction hrun with
  | nil => exact ⟨rfl, fun _ _ _ => rfl⟩
  | cons hstep _ ih =>
    obtain ⟨hsame, hbehind⟩ := hstep.behind hs
    exact (ih hbehind).trans hsame

theorem run_through (hrun : Run (Step t c) s as s') (hs : ¬ s.Behind) (hs' : s'.Behind) :
    ∃ as₁ σ ρ as₂, as = as₁ ++ none :: as₂ ∧ Through t c s as₁ σ ρ as₂ s' := by
  induction hrun with
  | nil => exact absurd hs' hs
  | cons hstep hrest ih =>
    have hgo : ¬ State.Behind _ → _ := fun hnext => ih hnext hs'
    cases hstep with
    | skip hbelow hskip =>
      obtain ⟨as₁, σ, ρ, as₂, rfl, hthrough⟩ := hgo (by rintro (h | h) <;> cases h)
      exact ⟨_ :: as₁, σ, ρ, as₂, rfl, .cons (.skip hbelow hskip) hthrough.before,
        hthrough.returned, hthrough.after⟩
    | construct hbelow hcall hreturned =>
      obtain ⟨as₁, σ, ρ, as₂, rfl, hthrough⟩ := hgo (by rintro (h | h) <;> cases h)
      exact ⟨_ :: as₁, σ, ρ, as₂, rfl, .cons (.construct hbelow hcall hreturned) hthrough.before,
        hthrough.returned, hthrough.after⟩
    | main hbelow =>
      obtain ⟨as₁, σ, ρ, as₂, rfl, hthrough⟩ := hgo (by rintro (h | h) <;> cases h)
      exact ⟨_ :: as₁, σ, ρ, as₂, rfl, .cons (.main hbelow) hthrough.before,
        hthrough.returned, hthrough.after⟩
    | leave hreturned => exact ⟨[], _, _, _, rfl, .nil _, hreturned, hrest⟩
    | pass | destruct | finish => exact absurd (.inl rfl) hs

end Loops

/-! ### The start of a program -/

def xorSelf (σ : Cpu) (r : Reg) : Cpu :=
  { σ.set r 0 with eflags := σ.eflags.setStatus (Cpu.resultStatus 0) }

def crt0Start (t : Tables) (σ : Cpu) : Cpu :=
  ([.esi, .edi, .ebx, .ecx, .edx, .ebp].foldl xorSelf σ).set .esi t.ctorStart

section Crt0
variable {t : Tables} {env exit back top : UInt32} {cs ds : List UInt32} {σ τ ρ : Cpu}

theorem crt0Start_esp : (crt0Start t σ).reg .esp = σ.reg .esp := by
  simp [crt0Start, xorSelf, Cpu.set]

/-- The arguments of `main` are still on the stack when it has returned. -/
theorem crt0_returned_esp (hroom : 16 ≤ (σ.reg .esp).toNat)
    (hreturned : Returned t 2 ((crt0Caller env).enter σ) ρ) :
    (ρ.reg .esp).toNat = (σ.reg .esp).toNat - 8 := by
  have hfirst := Cpu.push_esp_toNat (σ := σ) (v := env) (by omega)
  have hsecond := Cpu.push_esp_toNat (σ := σ.push env) (v := 0) (by omega)
  have hesp : ρ.reg .esp = ((σ.push env).push 0).reg .esp := hreturned.saved .esp (by simp)
  rw [hesp, hsecond, hfirst]
  omega

theorem crt0_quiet (hroom : 16 ≤ top.toNat)
    (hapart : ∀ n, InTables t n → n < top.toNat - 16 ∨ top.toNat ≤ n) :
    (crt0Caller env).Quiet t top := by
  constructor
  · rintro σ rfl n hn
    have hout := hapart n hn
    have hfirst := Cpu.push_esp_toNat (σ := σ) (v := env) (by omega)
    show ((σ.push env).push 0).mem n = σ.mem n
    rw [Cpu.push_out (by omega) (by omega), Cpu.push_out (by omega) (by omega)]
  · rintro σ ρ rfl hreturned n hn
    have hout := hapart n hn
    have hesp := crt0_returned_esp hroom hreturned
    exact Cpu.push_out (by omega) (by omega)

theorem exit_code (hroom : 20 ≤ (σ.reg .esp).toNat) (hstack : (σ.reg .esp).toNat ≤ t.stackEnd)
    (hreturned : Returned t 2 ((crt0Caller env).enter σ) ρ)
    (hsame : Same t ((ρ.push (ρ.reg .eax)).reg .esp) (ρ.push (ρ.reg .eax)).mem τ) :
    (Libgloss.exitCall (τ.call exit back)).reg .eax = 1 ∧
      (Libgloss.exitCall (τ.call exit back)).reg .ebx = ρ.reg .eax := by
  obtain ⟨hesp, hkept⟩ := hsame
  have hplace := crt0_returned_esp (by omega) hreturned
  have hpushed := Cpu.push_esp_toNat (σ := ρ) (v := ρ.reg .eax) (by omega)
  have hcode : load τ.mem (τ.reg .esp) = ρ.reg .eax := by
    rw [hesp, Cpu.push_esp, load_congr (m := (ρ.push (ρ.reg .eax)).mem)]
    · exact load_store_self
    · intro n hlow hhigh
      rw [← Cpu.push_esp (v := ρ.reg .eax), hpushed] at hlow hhigh
      exact hkept n (by omega) (by omega)
  have hsp : (τ.reg .esp).toNat = (σ.reg .esp).toNat - 12 := by
    rw [hesp, hpushed, hplace]
    omega
  have hcall : (τ.push back).reg .esp = τ.reg .esp - UInt32.ofNat 4 := Cpu.push_esp
  have hcallNat := Cpu.push_esp_toNat (σ := τ) (v := back) (by omega)
  refine ⟨?_, ?_⟩
  · simp [Libgloss.exitCall, Cpu.movLoad, Cpu.set]
  · rw [← hcode]
    have hback : (τ.push back).reg .esp - UInt32.ofNat 4 + UInt32.ofNat 8 = τ.reg .esp := by
      apply UInt32.toNat_inj.mp
      have hlt := (τ.reg .esp).toNat_lt
      rw [toNat_add_offset, toNat_sub_offset (by omega)]
      · omega
      · rw [toNat_sub_offset (by omega)]
        omega
    have hload : (Libgloss.exitCall (τ.call exit back)).reg .ebx =
        load ((τ.push back).push ((τ.push back).reg .ebx)).mem (τ.reg .esp) := by
      rw [← hback]
      simp [Libgloss.exitCall, Cpu.movLoad, Cpu.set, Cpu.call, Cpu.push, Cpu.movStore]
    rw [hload]
    apply load_congr
    intro n hlow hhigh
    rw [Cpu.push_out (by omega) (by omega), Cpu.push_out (by omega) (by omega)]

theorem crt0_start (c : Caller) :
    At t c (σ.reg .esp) σ.mem cs ds [] ⟨.ctors, crt0Start t σ⟩ := by
  refine .ctors (Nat.zero_le _) ?_ ⟨crt0Start_esp, fun _ _ _ => rfl⟩ (fun _ _ => rfl) rfl
  simp [crt0Start, Cpu.set]

end Crt0

/-- The functions of the tables are called once each, those of the second from its end back, with
`main` between them, which gets its arguments on the stack of the start. Where the last has returned
and `main` had returned with the processor `ρ`, `_exit` asks for the system call 1 with the result
of `main`. -/
theorem program_calls_its_tables {t : Tables} {env : UInt32} {cs ds : List UInt32} {σ : Cpu}
    (hlaid : Laid t σ.mem cs ds) (hroom : 20 ≤ (σ.reg .esp).toNat)
    (hstack : (σ.reg .esp).toNat ≤ t.stackEnd)
    (hapart : ∀ n, InTables t n → n < (σ.reg .esp).toNat - 16 ∨ (σ.reg .esp).toNat ≤ n)
    {as : List (Option UInt32)} {s : State}
    (hrun : Run (Step t (crt0Caller env)) ⟨.ctors, crt0Start t σ⟩ as s) :
    called as <+: plan t cs ds ∧ as.length ≤ cs.length + ds.length + 3 ∧
    (∃ bs s', Run (Step t (crt0Caller env)) s bs s' ∧ s'.label = .done) ∧
    (s.label = .main → ∃ σ₀, Same t (σ.reg .esp) σ.mem σ₀ ∧ s.cpu = (σ₀.push env).push 0) ∧
    (s.label = .done → called as = plan t cs ds ∧
      (∃ as₁ σ₁ ρ as₂, as = as₁ ++ none :: as₂ ∧
        Through t (crt0Caller env) ⟨.ctors, crt0Start t σ⟩ as₁ σ₁ ρ as₂ s) ∧
      ∀ as₁ σ₁ ρ as₂, Through t (crt0Caller env) ⟨.ctors, crt0Start t σ⟩ as₁ σ₁ ρ as₂ s →
        ∀ exit back, (Libgloss.exitCall (s.cpu.call exit back)).reg .eax = 1 ∧
          (Libgloss.exitCall (s.cpu.call exit back)).reg .ebx = ρ.reg .eax) := by
  have hquiet : (crt0Caller env).Quiet t (σ.reg .esp) := crt0_quiet (by omega) hapart
  have hall : ∀ bs u, Run (Step t (crt0Caller env)) ⟨.ctors, crt0Start t σ⟩ bs u →
      At t (crt0Caller env) (σ.reg .esp) σ.mem cs ds bs u := fun bs u hbs =>
    hbs.trace_invariant (At t (crt0Caller env) (σ.reg .esp) σ.mem cs ds)
      (fun _ _ _ _ hat hstep => hat.step hlaid hquiet hstep) (crt0_start _)
  have hat := hall as s hrun
  refine ⟨hat.called_prefix, hat.length_le, hat.completes hlaid hquiet, hat.main_called, ?_⟩
  intro hdone
  refine ⟨hat.plan_done hdone, ?_, ?_⟩
  · exact run_through hrun (by rintro (h | h) <;> cases h) (.inr hdone)
  · intro as₁ σ₁ ρ as₂ hthrough exit back
    obtain ⟨σ₀, ⟨hesp, _⟩, rfl⟩ := (hall as₁ _ hthrough.before).main_called rfl
    have hsame := run_behind hthrough.after (.inl rfl)
    rw [← hesp] at hroom hstack
    refine exit_code hroom hstack hthrough.returned ?_
    simpa [crt0Caller, Cpu.set] using hsame

/-- A table of constructors that begins with -1 and ends with 0, and one destructor. -/
def smallTables : Tables := ⟨0x1000, 0x100C, 0x100C, 0x1010, 0x400, 0x9000⟩

def smallCpu : Cpu where
  reg r := if r = .esp then 0x9000 else 0
  eflags := .ofImage 0x202
  eip := 0x200
  cr3 := 0
  mem := Memory.writeBytes (fun _ => 0) 0x1000
    ([0xFFFFFFFF, 0x500, 0, 0x600].flatMap fun w => Memory.wordBytes w)

theorem smallLaid : Laid smallTables smallCpu.mem [0xFFFFFFFF, 0x500, 0] [0x600] :=
  ⟨⟨by decide, by decide, by decide, trivial⟩, by decide, ⟨by decide, trivial⟩, by decide,
    by decide⟩

theorem program_calls_its_tables_small : ∃ as s ρ,
    Run (Step smallTables (crt0Caller 0x2000)) ⟨.ctors, crt0Start smallTables smallCpu⟩ as s ∧
    s.label = .done ∧ called as = [0x500, 0x400, 0x600] ∧
    (∃ as₁ σ as₂, Through smallTables (crt0Caller 0x2000)
      ⟨.ctors, crt0Start smallTables smallCpu⟩ as₁ σ ρ as₂ s) ∧
    (Libgloss.exitCall (s.cpu.call 0x700 0x300)).reg .ebx = ρ.reg .eax := by
  have hapart : ∀ n, InTables smallTables n →
      n < (smallCpu.reg .esp).toNat - 16 ∨ (smallCpu.reg .esp).toNat ≤ n := by
    intro n hn
    have hesp : (smallCpu.reg .esp).toNat = 0x9000 := rfl
    have hctorEnd : smallTables.ctorEnd.toNat = 0x100C := rfl
    have hdtorEnd : smallTables.dtorEnd.toNat = 0x1010 := rfl
    unfold InTables at hn
    omega
  have hnone : Run (Step smallTables (crt0Caller 0x2000)) _ [] _ :=
    .nil ⟨.ctors, crt0Start smallTables smallCpu⟩
  obtain ⟨_, _, ⟨as, s, hrun, hdone⟩, _⟩ :=
    program_calls_its_tables smallLaid (by decide) (by decide) hapart hnone
  obtain ⟨_, _, _, _, hend⟩ :=
    program_calls_its_tables smallLaid (by decide) (by decide) hapart hrun
  obtain ⟨hcalled, ⟨as₁, σ, ρ, as₂, _, hthrough⟩, hexit⟩ := hend hdone
  exact ⟨as, s, ρ, hrun, hdone, hcalled, ⟨as₁, σ, as₂, hthrough⟩,
    (hexit as₁ σ ρ as₂ hthrough 0x700 0x300).2⟩

/-! ### The start of the kernel -/

def bootStart (t : Tables) (σ : Cpu) : Cpu := σ.set .esi t.ctorStart

theorem boot_quiet (t : Tables) (top : UInt32) : bootCaller.Quiet t top :=
  ⟨fun _ _ _ _ => rfl, fun _ _ _ _ _ _ => rfl⟩

/-- The kernel does the same around `kmain`, which finds on the stack what was there before the
constructors. -/
theorem kernel_calls_its_tables {t : Tables} {cs ds : List UInt32} {σ : Cpu}
    (hlaid : Laid t σ.mem cs ds) {as : List (Option UInt32)} {s : State}
    (hrun : Run (Step t bootCaller) ⟨.ctors, bootStart t σ⟩ as s) :
    called as <+: plan t cs ds ∧ as.length ≤ cs.length + ds.length + 3 ∧
    (∃ bs s', Run (Step t bootCaller) s bs s' ∧ s'.label = .done) ∧
    (s.label = .main → Same t (σ.reg .esp) σ.mem s.cpu) ∧
    (s.label = .done → called as = plan t cs ds) := by
  have hquiet := boot_quiet t (σ.reg .esp)
  have hstart : At t bootCaller (σ.reg .esp) σ.mem cs ds [] ⟨.ctors, bootStart t σ⟩ := by
    refine .ctors (Nat.zero_le _) ?_ ⟨?_, fun _ _ _ => rfl⟩ (fun _ _ => rfl) rfl
    · simp [bootStart, Cpu.set]
    · simp [bootStart, Cpu.set]
  have hat := hrun.trace_invariant (At t bootCaller (σ.reg .esp) σ.mem cs ds)
    (fun _ _ _ _ hat hstep => hat.step hlaid hquiet hstep) hstart
  refine ⟨hat.called_prefix, hat.length_le, hat.completes hlaid hquiet, ?_, hat.plan_done⟩
  intro hmain
  obtain ⟨σ₀, hsame, hcpu⟩ := hat.main_called hmain
  rw [hcpu]
  exact hsame

theorem kernel_calls_its_tables_small : ∃ as s as₁ σ,
    Run (Step smallTables bootCaller) ⟨.ctors, bootStart smallTables smallCpu⟩ as s ∧
    s.label = .done ∧ called as = [0x500, 0x400, 0x600] ∧
    Run (Step smallTables bootCaller) ⟨.ctors, bootStart smallTables smallCpu⟩ as₁ ⟨.main, σ⟩ ∧
    Same smallTables 0x9000 smallCpu.mem σ := by
  have hnone : Run (Step smallTables bootCaller) _ [] _ :=
    .nil ⟨.ctors, bootStart smallTables smallCpu⟩
  obtain ⟨_, _, ⟨as, s, hrun, hdone⟩, _⟩ := kernel_calls_its_tables smallLaid hnone
  obtain ⟨_, _, _, _, hend⟩ := kernel_calls_its_tables smallLaid hrun
  obtain ⟨as₁, σ, _, _, _, hthrough⟩ :=
    run_through hrun (by rintro (h | h) <;> cases h) (.inr hdone)
  obtain ⟨_, _, _, hmain, _⟩ := kernel_calls_its_tables smallLaid hthrough.before
  exact ⟨as, s, as₁, σ, hrun, hdone, hend hdone, hthrough.before, hmain rfl⟩

end OsdevCourse.RuntimeTables
