import OsdevCourse.TrapStubs
import Mathlib.Data.List.Nodup
import Mathlib.Tactic.IntervalCases

/-!
# The tables of the processor

`bootstrap` puts the TSS into the GDT, and `idt_set` writes the gates, one call for each vector,
from `idt_init` and from `pic_init`. The processor reads a gate back from its two words. A vector
that nobody sets has the zeros of the bss, a gate that is not present.
-/

namespace OsdevCourse.Boot

set_option autoImplicit false

open I686 Traps

/-- The addresses of the tables, of the stubs, and of what follows each call of `idt_set`. -/
structure Tables where
  idt : UInt32
  gdt : UInt32
  tss : UInt32
  idtSet : UInt32
  idtSetBack : UInt32 → UInt32
  int : UInt32 → UInt32
  irq : UInt32 → UInt32
  syscall : UInt32

/-! Instructions with their flags. -/

def andImm (σ : Cpu) (r : Reg) (v : UInt32) : Cpu :=
  { σ.set r (σ.reg r &&& v) with eflags := σ.eflags.setStatus (Cpu.resultStatus (σ.reg r &&& v)) }

def orImm (σ : Cpu) (r : Reg) (v : UInt32) : Cpu :=
  { σ.set r (σ.reg r ||| v) with eflags := σ.eflags.setStatus (Cpu.resultStatus (σ.reg r ||| v)) }

/-- CF is the last bit shifted out; OF and AF, which the manual leaves undefined, are cleared. -/
def shlImm (σ : Cpu) (r : Reg) (k : UInt32) : Cpu :=
  { σ.set r (σ.reg r <<< k) with
    eflags := σ.eflags.setStatus ((if (σ.reg r).toNat.testBit (32 - k.toNat) then 0x1 else 0) |||
      Cpu.resultStatus (σ.reg r <<< k)) }

def shrImm (σ : Cpu) (r : Reg) (k : UInt32) : Cpu :=
  { σ.set r (σ.reg r >>> k) with
    eflags := σ.eflags.setStatus ((if (σ.reg r).toNat.testBit (k.toNat - 1) then 0x1 else 0) |||
      Cpu.resultStatus (σ.reg r >>> k)) }

/-! The gates. -/

/-- The arguments of `idt_set`. -/
structure Entry where
  num : UInt32
  function : UInt32
  access : UInt32

/-- `idt_set` between its pushes and its pops. -/
def storeGate (idt : UInt32) (σ : Cpu) : Cpu :=
  let σ := σ.movLoad .eax (σ.reg .esp + UInt32.ofNat 20)
  let σ := σ.movLoad .ecx (σ.reg .esp + UInt32.ofNat 24)
  let σ := σ.set .edx (σ.reg .eax)
  let σ := andImm σ .eax 0x0000FFFF
  let σ := andImm σ .edx 0xFFFF0000
  let σ := orImm σ .eax (SEG_CODE32_0 <<< (16 : UInt32))
  let σ := orImm σ .edx (σ.reg .ecx)
  let σ := σ.movLoad .ecx (σ.reg .esp + UInt32.ofNat 16)
  let σ := σ.movStore (idt + σ.reg .ecx * 8) (σ.reg .eax)
  σ.movStore (idt + σ.reg .ecx * 8 + UInt32.ofNat 4) (σ.reg .edx)

/-- `idt_set(num, function, access)` -/
def idtSet (idt : UInt32) (σ : Cpu) : Cpu :=
  let σ := σ.push (σ.reg .eax)
  let σ := σ.push (σ.reg .ecx)
  let σ := σ.push (σ.reg .edx)
  let σ := storeGate idt σ
  let σ := σ.pop .edx
  let σ := σ.pop .ecx
  let σ := σ.pop .eax
  σ.ret

/-- The macro `call` with the three arguments of `idt_set`. -/
def callIdtSet (b : Tables) (σ : Cpu) (e : Entry) : Cpu :=
  let σ := σ.push e.access
  let σ := σ.push e.function
  let σ := σ.push e.num
  let σ := σ.call b.idtSet (b.idtSetBack e.num)
  let σ := idtSet b.idt σ
  addImm σ .esp (UInt32.ofNat 12)

/-- The exceptions that have a stub. -/
def exceptions : List UInt32 :=
  [0x00, 0x01, 0x02, 0x03, 0x04, 0x05, 0x06, 0x07, 0x08, 0x0A, 0x0B, 0x0C, 0x0D, 0x0E, 0x10,
    0x11, 0x12, 0x13]

def idtEntries (b : Tables) : List Entry :=
  exceptions.map (fun n => ⟨n, b.int n, 0x8E00⟩) ++ [⟨0x80, b.syscall, 0xEE00⟩]

/-- `idt_init` -/
def idtInit (b : Tables) (σ : Cpu) : Cpu := (idtEntries b).foldl (callIdtSet b) σ

def IRQ_BASE_INTNUM : UInt32 := 0x20

/-- The requests of the two controllers. -/
def requests : List UInt32 := [0, 1, 2, 3, 4, 5, 6, 7, 8, 9, 10, 11, 12, 13, 14, 15]

def picEntries (b : Tables) : List Entry := requests.map fun n =>
    ⟨IRQ_BASE_INTNUM + n, b.irq n, 0x8E00⟩

/-- `pic_init` up to its first `out`. -/
def picInitGates (b : Tables) (σ : Cpu) : Cpu := (picEntries b).foldl (callIdtSet b) σ

/-- The two words that `idt_set` writes. -/
def Entry.words (e : Entry) : UInt32 × UInt32 :=
  (e.function &&& 0x0000FFFF ||| SEG_CODE32_0 <<< (16 : UInt32),
    e.function &&& 0xFFFF0000 ||| e.access)

/-- A gate as the processor reads it: present and of the type of an interrupt gate. -/
def gateOf (w : UInt32 × UInt32) : Option (Gate × Nat) :=
  if w.2 &&& 0x8000 ≠ 0 ∧ w.2 &&& 0x1F00 = 0x0E00 then
    some (⟨w.1 &&& 0xFFFF ||| w.2 &&& 0xFFFF0000, (w.1 >>> (16 : UInt32)).toUInt16⟩,
      (w.2 &&& 0x6000).toNat / 2 ^ 13)
  else none

/-- The words of a vector. -/
def wordsAt (m : Memory) (idt num : UInt32) : UInt32 × UInt32 :=
  (load m (idt + num * 8), load m (idt + num * 8 + UInt32.ofNat 4))

section Gate
variable {σ : Cpu} {b : Tables} {e : Entry} {num : UInt32} {n : Nat}

theorem idt_fits {idt : UInt32} (hidt : idt.toNat + 2048 ≤ 2 ^ 32) (hnum : num < 256) :
    idt.toNat + 8 * num.toNat + 8 ≤ 2 ^ 32 := by
  have hlt : num.toNat < 256 := UInt32.lt_iff_toNat_lt.mp hnum
  omega

theorem slot_toNat {t : UInt32} (hfits : t.toNat + 8 * num.toNat + 8 ≤ 2 ^ 32) :
    (t + num * 8).toNat = t.toNat + 8 * num.toNat ∧
    (t + num * 8 + UInt32.ofNat 4).toNat = t.toNat + 8 * num.toNat + 4 := by
  have hmul : (num * 8).toNat = 8 * num.toNat := by
    have height : (8 : UInt32).toNat = 8 := rfl
    rw [UInt32.toNat_mul, height]
    omega
  have hfirst : (t + num * 8).toNat = t.toNat + 8 * num.toNat := by
    rw [UInt32.toNat_add, hmul]
    omega
  refine ⟨hfirst, ?_⟩
  rw [toNat_add_offset (by omega), hfirst]

/-- The stack and the table are apart, and the stack has room for a call of `idt_set`. -/
structure Apart (b : Tables) (σ : Cpu) : Prop where
  table : b.idt.toNat + 2048 ≤ 2 ^ 32
  room : 28 ≤ (σ.reg .esp).toNat
  apart : b.idt.toNat + 2048 ≤ (σ.reg .esp).toNat - 28 ∨ (σ.reg .esp).toNat ≤ b.idt.toNat

/-- One call of `idt_set`. -/
structure SetsGate (b : Tables) (σ τ : Cpu) (e : Entry) : Prop where
  reg : τ.reg = σ.reg
  gate : wordsAt τ.mem b.idt e.num = e.words
  other : ∀ num, num < 256 → num ≠ e.num → wordsAt τ.mem b.idt num = wordsAt σ.mem b.idt num
  out : ∀ n, n < (σ.reg .esp).toNat - 28 ∨ (σ.reg .esp).toNat ≤ n →
    n < b.idt.toNat ∨ b.idt.toNat + 2048 ≤ n → τ.mem n = σ.mem n

theorem storeGate_spec {t : UInt32} (hnum : load σ.mem (σ.reg .esp + UInt32.ofNat 16) = e.num)
    (hfunction : load σ.mem (σ.reg .esp + UInt32.ofNat 20) = e.function)
    (haccess : load σ.mem (σ.reg .esp + UInt32.ofNat 24) = e.access) :
    (storeGate t σ).mem =
      store (store σ.mem (t + e.num * 8) e.words.1) (t + e.num * 8 + UInt32.ofNat 4) e.words.2 ∧
    ∀ r, r ≠ .eax → r ≠ .ecx → r ≠ .edx → (storeGate t σ).reg r = σ.reg r := by
  constructor
  · simp only [storeGate, Cpu.movLoad, Cpu.movStore, Cpu.set, andImm, orImm, reduceCtorEq, if_true,
      if_false, hnum,
      hfunction, haccess, Entry.words]
  · intro r heax hecx hedx
    simp [storeGate, Cpu.movLoad, Cpu.movStore, Cpu.set, andImm, orImm, heax, hecx, hedx]

theorem store_pair_out {m : Memory} {a v w : UInt32} (hbound : a.toNat + 8 ≤ 2 ^ 32)
    (hn : n < a.toNat ∨ a.toNat + 8 ≤ n) : store (store m a v) (a + UInt32.ofNat 4) w n = m n := by
  have hat : (a + UInt32.ofNat 4).toNat = a.toNat + 4 := toNat_add_offset (by omega)
  rw [store_out (by omega), store_out (by omega)]

theorem idtSet_spec {ret : UInt32} (hnum : e.num < 256) (hapart : b.idt.toNat + 2048 ≤ 2 ^ 32)
    (hwords : Words σ.mem (σ.reg .esp).toNat [ret, e.num, e.function, e.access])
    (hroom : 12 ≤ (σ.reg .esp).toNat) (hbound : (σ.reg .esp).toNat + 16 < 2 ^ 32)
    (htable : b.idt.toNat + 2048 ≤ (σ.reg .esp).toNat - 12 ∨
    (σ.reg .esp).toNat + 16 ≤ b.idt.toNat) :
    (∀ r, r ≠ .esp → (idtSet b.idt σ).reg r = σ.reg r) ∧
    (idtSet b.idt σ).reg .esp = σ.reg .esp + UInt32.ofNat 4 ∧
    wordsAt (idtSet b.idt σ).mem b.idt e.num = e.words ∧
    ∀ n, n < (σ.reg .esp).toNat - 12 ∨ (σ.reg .esp).toNat ≤ n →
      n < b.idt.toNat + 8 * e.num.toNat ∨ b.idt.toNat + 8 * e.num.toNat + 8 ≤ n →
      (idtSet b.idt σ).mem n = σ.mem n := by
  have hlt : e.num.toNat < 256 := UInt32.lt_iff_toNat_lt.mp hnum
  obtain ⟨hlow, hhigh⟩ := slot_toNat (idt_fits hapart hnum)
  have hpushed := (((Pushed.start hwords).push (v := σ.reg .eax) (by omega)).push (v := σ.reg .ecx)
    (by omega)).push
    (v := σ.reg .edx) (by omega)
  have hbody : idtSet b.idt σ =
      ((storeGate b.idt (((σ.push (σ.reg .eax)).push (σ.reg .ecx)).push (σ.reg .edx))).pops
          [.edx, .ecx, .eax]).ret := by
    have hecx : (σ.push (σ.reg .eax)).reg .ecx = σ.reg .ecx := Cpu.push_reg (by simp)
    have hedx : ((σ.push (σ.reg .eax)).push (σ.reg .ecx)).reg .edx = σ.reg .edx := by
      rw [Cpu.push_reg (by simp), Cpu.push_reg (by simp)]
    simp only [idtSet, hecx, hedx, Cpu.pops, List.foldl_cons, List.foldl_nil]
  have hother : ∀ r, r ≠ .esp → (((σ.push (σ.reg .eax)).push (σ.reg .ecx)).push (σ.reg .edx)).reg
      r = σ.reg r := by
    intro r hr
    rw [Cpu.push_reg hr, Cpu.push_reg hr, Cpu.push_reg hr]
  generalize ((σ.push (σ.reg .eax)).push (σ.reg .ecx)).push (σ.reg .edx) = τ at hpushed hbody hother
  have hsp := hpushed.esp
  obtain ⟨hmem, hkept⟩ := storeGate_spec (t := b.idt) (e := e)
    (hpushed.load_at (j := 4) rfl (by omega))
    (hpushed.load_at (j := 5) rfl (by omega)) (hpushed.load_at (j := 6) rfl (by omega))
  generalize storeGate b.idt τ = ρ at hbody hmem hkept
  have hout : ∀ n, n < b.idt.toNat + 8 * e.num.toNat ∨ b.idt.toNat + 8 * e.num.toNat + 8 ≤ n →
      ρ.mem n = τ.mem n := by
    intro n hn
    rw [hmem]
    exact store_pair_out (by omega) (by omega)
  have htop : ρ.reg .esp = τ.reg .esp := hkept .esp (by simp) (by simp) (by simp)
  have hall : Words ρ.mem (ρ.reg .esp).toNat ([σ.reg .edx, σ.reg .ecx, σ.reg .eax] ++ [ret]) := by
    have hold : Words τ.mem (τ.reg .esp).toNat ([σ.reg .edx, σ.reg .ecx, σ.reg .eax, ret] ++
      [e.num, e.function, e.access]) := hpushed.words
    rw [htop]
    apply (words_append.mp hold).1.congr
    intro n hlo hhi
    simp only [List.length_cons, List.length_nil] at hhi
    exact hout n (by omega)
  obtain ⟨hsaved, hback⟩ := words_append.mp hall
  have hpopped := @Cpu.pops_spec ρ [.edx, .ecx, .eax] _ (by simp) (by simp) rfl hsaved
    (by rw [htop, hsp]; simp only [List.length_cons, List.length_nil]; omega)
  generalize ρ.pops [.edx, .ecx, .eax] = π at hbody hpopped
  have hend := hpopped.esp
  rw [htop, hsp] at hend
  simp only [List.length_cons, List.length_nil] at hend
  have hsame : π.reg .esp = σ.reg .esp := by
    apply UInt32.toNat_inj.mp
    omega
  have hmemory : (idtSet b.idt σ).mem = ρ.mem := by
    rw [hbody]
    exact hpopped.mem
  refine ⟨fun r hr => ?_, ?_, ?_, fun n hn hslot => ?_⟩
  · have hret : (idtSet b.idt σ).reg r = π.reg r := by
      rw [hbody]
      simp [Cpu.ret, Cpu.set, hr]
    have hregs := hpopped.reg
    simp only [List.map_cons, List.map_nil, List.cons.injEq, and_true] at hregs
    rw [hret]
    cases r with
    | esp => exact absurd rfl hr
    | eax => exact hregs.2.2
    | ecx => exact hregs.2.1
    | edx => exact hregs.1
    | ebx | ebp | esi | edi =>
      rw [hpopped.other _ (by simp) (by simp), hkept _ (by simp) (by simp) (by simp)]
      exact hother _ (by simp)
  · rw [hbody, ← hsame]
    simp [Cpu.ret, Cpu.set]
  · unfold wordsAt
    rw [hmemory, hmem, load_store_of_disjoint (by omega), load_store_self, load_store_self]
  · rw [hmemory, hout n hslot]
    exact hpushed.out n (by omega)

theorem wordsAt_congr {m m' : Memory} {t : UInt32} (hfits : t.toNat + 8 * num.toNat + 8 ≤ 2 ^ 32)
    (h : ∀ n, t.toNat + 8 * num.toNat ≤ n → n < t.toNat + 8 * num.toNat + 8 → m' n = m n) :
    wordsAt m' t num = wordsAt m t num := by
  obtain ⟨hlow, hhigh⟩ := slot_toNat hfits
  have hfirst : load m' (t + num * 8) = load m (t + num * 8) :=
    load_congr fun n hlo hhi => h n (by omega) (by omega)
  have hsecond : load m' (t + num * 8 + UInt32.ofNat 4) = load m (t + num * 8 + UInt32.ofNat 4) :=
    load_congr fun n hlo hhi => h n (by omega) (by omega)
  unfold wordsAt
  rw [hfirst, hsecond]

theorem callIdtSet_spec (h : Apart b σ) (hnum : e.num < 256) :
    SetsGate b σ (callIdtSet b σ e) e := by
  have htable := h.table
  have hroom := h.room
  have hapart := h.apart
  have hlt : e.num.toNat < 256 := UInt32.lt_iff_toNat_lt.mp hnum
  have hesp := (σ.reg .esp).toNat_lt
  have hnone : Words σ.mem (σ.reg .esp).toNat [] := trivial
  have hpushed :=
    ((((Pushed.start hnone).push (v := e.access) (by omega)).push (v := e.function) (by omega)).push
    (v := e.num) (by omega)).call (x := b.idtSet) (v := b.idtSetBack e.num) (by omega)
  have hother : ∀ r, r ≠ .esp → ((((σ.push e.access).push e.function).push e.num).call b.idtSet
      (b.idtSetBack e.num)).reg r = σ.reg r := by
    intro r hr
    have hcall : ∀ τ : Cpu, (τ.call b.idtSet (b.idtSetBack e.num)).reg r = τ.reg r := fun τ =>
      Cpu.push_reg (σ := τ) (v := b.idtSetBack e.num) hr
    rw [hcall, Cpu.push_reg hr, Cpu.push_reg hr, Cpu.push_reg hr]
  have hbody : callIdtSet b σ e = addImm
    (idtSet b.idt ((((σ.push e.access).push e.function).push e.num).call b.idtSet
      (b.idtSetBack e.num))) .esp (UInt32.ofNat 12) := rfl
  generalize (((σ.push e.access).push e.function).push e.num).call b.idtSet (b.idtSetBack e.num) =
    τ at hpushed hother hbody
  have hsp := hpushed.esp
  obtain ⟨hreg, hend, hgate, hout⟩ := idtSet_spec (b := b) hnum htable hpushed.words (by omega)
    (by omega) (by omega)
  have hmem : (callIdtSet b σ e).mem = (idtSet b.idt τ).mem := by
    have hadd : ∀ ρ : Cpu, (addImm ρ .esp (UInt32.ofNat 12)).mem = ρ.mem := fun _ => rfl
    rw [hbody, hadd]
  have hmemory : ∀ n, n < (σ.reg .esp).toNat - 28 ∨ (σ.reg .esp).toNat ≤ n →
      n < b.idt.toNat + 8 * e.num.toNat ∨ b.idt.toNat + 8 * e.num.toNat + 8 ≤ n →
      (callIdtSet b σ e).mem n = σ.mem n := by
    intro n hn hslot
    rw [hmem, hout n (by omega) hslot]
    exact hpushed.out n (by omega)
  refine ⟨?_, ?_, fun num hnum' hne => ?_, fun n hn hrange => hmemory n hn (by omega)⟩
  · funext r
    rw [hbody]
    by_cases hr : r = .esp
    · subst hr
      have hadd : ∀ ρ : Cpu, (addImm ρ .esp (UInt32.ofNat 12)).reg .esp =
          ρ.reg .esp + UInt32.ofNat 12 := by
        intro ρ
        simp [addImm, Cpu.set]
      rw [hadd, hend]
      apply UInt32.toNat_inj.mp
      rw [toNat_add_offset, toNat_add_offset (by omega)]
      · omega
      · rw [toNat_add_offset (by omega)]
        omega
    · have hadd : ∀ ρ : Cpu, (addImm ρ .esp (UInt32.ofNat 12)).reg r = ρ.reg r := by
        intro ρ
        simp [addImm, Cpu.set, hr]
      rw [hadd, hreg r hr, hother r hr]
  · unfold wordsAt at hgate ⊢
    rw [hmem]
    exact hgate
  · have hlt' : num.toNat < 256 := UInt32.lt_iff_toNat_lt.mp hnum'
    have hnat : num.toNat ≠ e.num.toNat := fun heq => hne (UInt32.toNat_inj.mp heq)
    exact wordsAt_congr (idt_fits htable hnum') fun n hlo hhi => hmemory n (by omega) (by omega)

/-- The calls of `idt_set` for a list of gates. -/
structure SetsGates (b : Tables) (σ τ : Cpu) (es : List Entry) : Prop where
  reg : τ.reg = σ.reg
  gate : ∀ e ∈ es, wordsAt τ.mem b.idt e.num = e.words
  other : ∀ num, num < 256 → num ∉ es.map Entry.num →
    wordsAt τ.mem b.idt num = wordsAt σ.mem b.idt num
  out : ∀ n, n < (σ.reg .esp).toNat - 28 ∨ (σ.reg .esp).toNat ≤ n →
    n < b.idt.toNat ∨ b.idt.toNat + 2048 ≤ n → τ.mem n = σ.mem n

theorem setsGates {es : List Entry} (h : Apart b σ) (hnums : ∀ e ∈ es, e.num < 256)
    (hnodup : (es.map Entry.num).Nodup) : SetsGates b σ (es.foldl (callIdtSet b) σ) es := by
  induction es generalizing σ with
  | nil => exact ⟨rfl, nofun, fun _ _ _ => rfl, fun _ _ _ => rfl⟩
  | cons e es ih =>
    rw [List.map_cons, List.nodup_cons] at hnodup
    have hfirst := callIdtSet_spec h (hnums e List.mem_cons_self)
    have happart : Apart b (callIdtSet b σ e) := by
      refine ⟨h.table, ?_, ?_⟩
      · rw [hfirst.reg]
        exact h.room
      · rw [hfirst.reg]
        exact h.apart
    have hrest := ih happart (fun e' he => hnums e' (List.mem_cons_of_mem e he)) hnodup.2
    rw [List.foldl_cons]
    refine ⟨hrest.reg.trans hfirst.reg, fun e' he => ?_, fun num hnum hnot => ?_,
      fun n hn hrange => ?_⟩
    · rcases List.mem_cons.mp he with rfl | hmem
      · exact (hrest.other e'.num (hnums e' List.mem_cons_self) hnodup.1).trans hfirst.gate
      · exact hrest.gate e' hmem
    · rw [List.map_cons] at hnot
      rw [hrest.other num hnum (List.not_mem_of_not_mem_cons hnot)]
      exact hfirst.other num hnum (List.ne_of_not_mem_cons hnot)
    · rw [hrest.out n (by rw [hfirst.reg]; exact hn) hrange]
      exact hfirst.out n hn hrange

end Gate

/-! What the processor reads back. -/

section Decode
variable {e : Entry} {v : UInt32}

theorem or_and_distrib (a b c : UInt32) : (a ||| b) &&& c = a &&& c ||| b &&& c := by
  rw [UInt32.and_comm, and_or_distrib, UInt32.and_comm c a, UInt32.and_comm c b]

theorem masked (f : UInt32) {mask other : UInt32} (h : mask &&& other = 0) :
    f &&& mask &&& other = 0 := by
  rw [UInt32.and_assoc, h, UInt32.and_zero]

theorem halves (f : UInt32) : f &&& 0x0000FFFF ||| f &&& 0xFFFF0000 = f := by
  have hall : (0x0000FFFF : UInt32) ||| 0xFFFF0000 = -1 := by decide
  rw [← and_or_distrib, hall]
  simp

theorem selector_words (f : UInt32) :
    ((f &&& 0x0000FFFF ||| SEG_CODE32_0 <<< (16 : UInt32)) >>> (16 : UInt32)).toUInt16 =
    SEG_CODE32_0.toUInt16 := by
  have hmask : (f &&& 0x0000FFFF).toNat = f.toNat % 2 ^ 16 := by
    have hff : (0x0000FFFF : UInt32).toNat = 2 ^ 16 - 1 := rfl
    rw [UInt32.toNat_and, hff, Nat.and_two_pow_sub_one_eq_mod]
  have hcode : (SEG_CODE32_0 <<< (16 : UInt32)).toNat = 2 ^ 16 * 8 := by decide
  have hshift : ∀ a : UInt32, (a >>> (16 : UInt32)).toNat = a.toNat / 2 ^ 16 := by
    intro a
    rw [UInt32.toNat_shiftRight]
    exact Nat.shiftRight_eq_div_pow _ _
  have hlt : f.toNat % 2 ^ 16 < 2 ^ 16 := Nat.mod_lt _ (by decide)
  have heq : (f &&& 0x0000FFFF ||| SEG_CODE32_0 <<< (16 : UInt32)) >>> (16 : UInt32) =
      SEG_CODE32_0 := by
    apply UInt32.toNat_inj.mp
    rw [hshift, UInt32.toNat_or, hmask, hcode, Nat.or_comm, ← Nat.two_pow_add_eq_or_of_lt hlt]
    have height : SEG_CODE32_0.toNat = 8 := rfl
    omega
  rw [heq]

theorem gateOf_words (hlow : e.access &&& 0xFFFF0000 = 0) (hpresent : e.access &&& 0x8000 ≠ 0)
    (htype : e.access &&& 0x1F00 = 0x0E00) :
    gateOf e.words = some (⟨e.function, SEG_CODE32_0.toUInt16⟩,
      (e.access &&& 0x6000).toNat / 2 ^ 13) := by
  have hmask : ∀ mask : UInt32, 0xFFFF0000 &&& mask = 0 →
      e.words.2 &&& mask = e.access &&& mask := by
    intro mask hmask
    unfold Entry.words
    rw [or_and_distrib, masked _ hmask, UInt32.zero_or]
  have hoffset : e.words.1 &&& 0xFFFF ||| e.words.2 &&& 0xFFFF0000 = e.function := by
    have hcode : SEG_CODE32_0 <<< (16 : UInt32) &&& 0xFFFF = 0 := by decide
    have hff : (0xFFFF : UInt32) &&& 0xFFFF = 0xFFFF := by decide
    have hhigh : (0xFFFF0000 : UInt32) &&& 0xFFFF0000 = 0xFFFF0000 := by decide
    unfold Entry.words
    rw [or_and_distrib, or_and_distrib, hcode, hlow, UInt32.or_zero, UInt32.or_zero,
      UInt32.and_assoc,
      UInt32.and_assoc, hff, hhigh]
    exact halves _
  unfold gateOf
  rw [hmask 0x8000 (by decide), hmask 0x1F00 (by decide), hmask 0x6000 (by decide),
    if_pos ⟨hpresent, htype⟩, hoffset]
  have hselector := selector_words e.function
  unfold Entry.words
  rw [hselector]

end Decode

/-! After `idt_init` and `pic_init`. -/

/-- The gate that the processor finds for a vector, and the ring that may call it. -/
def gateAt (m : Memory) (idt num : UInt32) : Option (Gate × Nat) := gateOf (wordsAt m idt num)

/-- What is installed for each vector. -/
def installed (b : Tables) (num : UInt32) : Option (Gate × Nat) :=
  if num ∈ exceptions then some (⟨b.int num, SEG_CODE32_0.toUInt16⟩, 0)
  else if num ∈ requests.map (IRQ_BASE_INTNUM + ·) then
    some (⟨b.irq (num - IRQ_BASE_INTNUM), SEG_CODE32_0.toUInt16⟩, 0)
  else if num = 0x80 then some (⟨b.syscall, SEG_CODE32_0.toUInt16⟩, 3)
  else none

section Installed
variable {b : Tables} {σ σ' : Cpu} {num : UInt32} {e : Entry}

theorem idtEntries_nums (b : Tables) : (idtEntries b).map Entry.num = exceptions ++ [0x80] := by
  simp only [idtEntries, List.map_append, List.map_map, List.map_cons, List.map_nil]
  congr 1

theorem picEntries_nums (b : Tables) : (picEntries b).map Entry.num = requests.map
    (IRQ_BASE_INTNUM + ·) := by
  simp only [picEntries, List.map_map]
  congr 1

theorem idtInit_spec (h : Apart b σ) : SetsGates b σ (idtInit b σ) (idtEntries b) := by
  have hall : ∀ n ∈ exceptions ++ [0x80], n < 256 := by simp [exceptions]
  have hnodup : (exceptions ++ [0x80]).Nodup := by decide
  rw [← idtEntries_nums b] at hall hnodup
  exact setsGates h (fun e he => hall _ (List.mem_map_of_mem he)) hnodup

theorem picInitGates_spec (h : Apart b σ) : SetsGates b σ (picInitGates b σ) (picEntries b) := by
  have hall : ∀ n ∈ requests.map (IRQ_BASE_INTNUM + ·),
    n < 256 := by simp [requests, IRQ_BASE_INTNUM]
  have hnodup : (requests.map (IRQ_BASE_INTNUM + ·)).Nodup := by decide
  rw [← picEntries_nums b] at hall hnodup
  exact setsGates h (fun e he => hall _ (List.mem_map_of_mem he)) hnodup

theorem gateOf_interrupt (num function : UInt32) :
    gateOf (⟨num, function, 0x8E00⟩ : Entry).words = some
      (⟨function, SEG_CODE32_0.toUInt16⟩, 0) := by
  have hlow : (0x8E00 : UInt32) &&& 0xFFFF0000 = 0 := by decide
  have hpresent : (0x8E00 : UInt32) &&& 0x8000 ≠ 0 := by decide
  have htype : (0x8E00 : UInt32) &&& 0x1F00 = 0x0E00 := by decide
  have hring : ((0x8E00 : UInt32) &&& 0x6000).toNat / 2 ^ 13 = 0 := by decide
  have hgate := gateOf_words (e := ⟨num, function, 0x8E00⟩) hlow hpresent htype
  simp only [hring] at hgate
  exact hgate

theorem gateOf_syscall (num function : UInt32) :
    gateOf (⟨num, function, 0xEE00⟩ : Entry).words = some
      (⟨function, SEG_CODE32_0.toUInt16⟩, 3) := by
  have hlow : (0xEE00 : UInt32) &&& 0xFFFF0000 = 0 := by decide
  have hpresent : (0xEE00 : UInt32) &&& 0x8000 ≠ 0 := by decide
  have htype : (0xEE00 : UInt32) &&& 0x1F00 = 0x0E00 := by decide
  have hring : ((0xEE00 : UInt32) &&& 0x6000).toNat / 2 ^ 13 = 3 := by decide
  have hgate := gateOf_words (e := ⟨num, function, 0xEE00⟩) hlow hpresent htype
  simp only [hring] at hgate
  exact hgate

end Installed

def smallTables : Tables where
  idt := 0x10000
  gdt := 0x20000
  tss := 0x30000
  idtSet := 0x40000
  idtSetBack _ := 0x41000
  int num := 0x50000 + num * 16
  irq num := 0x60000 + num * 16
  syscall := 0x70000

def smallCpu : Cpu := ⟨fun r => if r = .esp then 0x8000 else 0, .ofImage 2, 0, 0, fun _ => 0⟩

theorem smallCpu_apart {σ : Cpu} (h : σ.reg = smallCpu.reg) : Apart smallTables σ := by
  have hesp : (σ.reg .esp).toNat = 0x8000 := by
    rw [h]
    rfl
  exact ⟨by decide, by omega, Or.inr (by rw [hesp]; decide)⟩

/-- The block after `.reload_cs` that puts the TSS into the GDT, up to `ltr`. -/
def setupTss (b : Tables) (σ : Cpu) : Cpu :=
  let σ := σ.movStore (b.tss + 8) SEG_DATA32_0
  let σ := σ.movStore (b.tss + 4) (σ.reg .esp)
  let σ := σ.set .eax b.tss
  let σ := shlImm σ .eax 16
  let σ := orImm σ .eax 0x67
  let σ := σ.movStore (b.gdt + SEG_TSS) (σ.reg .eax)
  let σ := σ.set .eax b.tss
  let σ := σ.set .edx b.tss
  let σ := shrImm σ .edx 16
  let σ := andImm σ .eax 0xFF000000
  let σ := andImm σ .edx 0x000000FF
  let σ := orImm σ .eax (σ.reg .edx)
  let σ := orImm σ .eax 0x00008900
  let σ := σ.movStore (b.gdt + SEG_TSS + 4) (σ.reg .eax)
  σ.set .eax SEG_TSS

/-- The base address that a descriptor gives. -/
def segmentBase (d : UInt32 × UInt32) : UInt32 :=
  d.1 >>> (16 : UInt32) ||| (d.2 &&& 0x000000FF) <<< (16 : UInt32) ||| d.2 &&& 0xFF000000

theorem segmentBase_tss (tss : UInt32) : segmentBase (tssDescriptor tss) = tss := by
  apply UInt32.toBitVec_inj.mp
  apply BitVec.eq_of_getLsbD_eq
  intro i hi
  simp only [segmentBase, tssDescriptor]
  interval_cases i <;> simp

theorem tss_words {b : Tables} {σ : Cpu} (hgdt : b.gdt.toNat + 48 ≤ 2 ^ 32)
    (htss : b.tss.toNat + 104 ≤ 2 ^ 32)
    (hapart : b.gdt.toNat + 48 ≤ b.tss.toNat ∨ b.tss.toNat + 104 ≤ b.gdt.toNat) :
    load (setupTss b σ).mem (b.tss + 8) = SEG_DATA32_0 ∧
    load (setupTss b σ).mem (b.tss + 4) = σ.reg .esp ∧
    wordsAt (setupTss b σ).mem b.gdt 5 = tssDescriptor b.tss ∧
    ∀ n, b.gdt.toNat ≤ n → n < b.gdt.toNat + 40 → (setupTss b σ).mem n = σ.mem n := by
  have hmem : (setupTss b σ).mem =
      store (store (store (store σ.mem (b.tss + 8) SEG_DATA32_0) (b.tss + 4) (σ.reg .esp))
        (b.gdt + SEG_TSS) (tssDescriptor b.tss).1) (b.gdt + SEG_TSS + 4)
            (tssDescriptor b.tss).2 := by
    simp only [setupTss, Cpu.movStore, Cpu.set, shlImm, shrImm, orImm, andImm, reduceCtorEq,
      if_true, if_false, tssDescriptor]
  have hfour : (b.tss + 4).toNat = b.tss.toNat + 4 := toNat_add_offset (k := 4) (by omega)
  have height : (b.tss + 8).toNat = b.tss.toNat + 8 := toNat_add_offset (k := 8) (by omega)
  have hlow : (b.gdt + SEG_TSS).toNat = b.gdt.toNat + 40 := toNat_add_offset (k := 40) (by omega)
  have hhigh : (b.gdt + SEG_TSS + 4).toNat = b.gdt.toNat + 44 := by
    have hnext : (b.gdt + SEG_TSS + 4).toNat = (b.gdt + SEG_TSS).toNat + 4 :=
      toNat_add_offset (k := 4) (by omega)
    omega
  refine ⟨?_, ?_, ?_, fun n hlo hhi => ?_⟩
  · rw [hmem, load_store_of_disjoint (by omega), load_store_of_disjoint (by omega),
      load_store_of_disjoint (by omega)]
    exact load_store_self
  · rw [hmem, load_store_of_disjoint (by omega), load_store_of_disjoint (by omega)]
    exact load_store_self
  · have hfifth : b.gdt + 5 * 8 = b.gdt + SEG_TSS := rfl
    unfold wordsAt
    rw [hfifth]
    change (load _ (b.gdt + SEG_TSS), load _ (b.gdt + SEG_TSS + 4)) = _
    rw [hmem, load_store_self, load_store_of_disjoint (by omega), load_store_self]
  · rw [hmem, store_out (by omega), store_out (by omega), store_out (by omega),
      store_out (by omega)]

/-- The image has the first five descriptors, and `bootstrap` makes the sixth: the table in memory
is the one that `iretd` consults, and an interrupt from ring 3 finds the kernel's stack in the
TSS. -/
theorem gdt_after_boot {b : Tables} {σ : Cpu} (hgdt : b.gdt.toNat + 48 ≤ 2 ^ 32)
    (htss : b.tss.toNat + 104 ≤ 2 ^ 32)
    (hapart : b.gdt.toNat + 48 ≤ b.tss.toNat ∨ b.tss.toNat + 104 ≤ b.gdt.toNat)
    (himage : ∀ num < 5, wordsAt σ.mem b.gdt (UInt32.ofNat num) = (gdt b.tss).getD num (0, 0)) :
    (∀ num < 6, wordsAt (setupTss b σ).mem b.gdt (UInt32.ofNat num) = (gdt b.tss).getD num (0, 0)) ∧
    segmentBase (wordsAt (setupTss b σ).mem b.gdt 5) = b.tss ∧
    load (setupTss b σ).mem (b.tss + 8) = SEG_DATA32_0 ∧
    load (setupTss b σ).mem (b.tss + 4) = σ.reg .esp := by
  obtain ⟨hss0, hesp0, hdescriptor, hother⟩ := tss_words (σ := σ) hgdt htss hapart
  refine ⟨fun num hnum => ?_, ?_, hss0, hesp0⟩
  · by_cases hfive : num = 5
    · rw [hfive]
      exact hdescriptor
    · have hbefore : num < 5 := by omega
      have hnat : (UInt32.ofNat num).toNat = num := by
        rw [UInt32.toNat_ofNat']
        omega
      rw [← himage num hbefore]
      exact wordsAt_congr (by omega) fun n hlo hhi => hother n (by omega) (by omega)
  · rw [hdescriptor]
    exact segmentBase_tss b.tss

end OsdevCourse.Boot
