import Mathlib.Data.List.GetD
import OsdevCourse.ContextSwitch
import OsdevCourse.ProcessFailure

/-!
# One `tcb_init`

The switch stores the words of a thread one by one, the creation of a process has them in a list,
and the scheduler has a record. These are the same words, and the record is what they leave.
-/

namespace OsdevCourse.TcbInit

set_option autoImplicit false

open Memory I686
open ContextSwitch (TcbArgs Fresh firstEsp slot_toNat storeFields tcbFields tcbInit_eq)
open ProcessFailure (tcbWords storeAll)

/-- Two words that have no byte in common. -/
def Apart (v w : Nat × Nat) : Prop := v.1 + 4 ≤ w.1 ∨ w.1 + 4 ≤ v.1

def storeWords : List (Nat × Nat) → Memory → Memory
  | [], m => m
  | (addr, w) :: words, m => storeWords words (m.write32 addr w)

section Words
variable {ws : List (Nat × Nat)} {m : Memory} {a : Nat}

theorem read32_storeWords_apart (h : ∀ w ∈ ws, w.1 + 4 ≤ a ∨ a + 4 ≤ w.1) :
    read32 (storeWords ws m) a = read32 m a := by
  induction ws generalizing m with
  | nil => rfl
  | cons w ws ih =>
    have hfirst : w.1 + 4 ≤ a ∨ a + 4 ≤ w.1 := h w List.mem_cons_self
    rw [storeWords, ih fun v hv => h v (List.mem_cons_of_mem _ hv)]
    exact read32_write32_of_disjoint (by omega)

theorem read32_storeWords {w : Nat} (hapart : ws.Pairwise Apart) (hmem : (a, w) ∈ ws)
    (hw : w < 2 ^ 32) :
    read32 (storeWords ws m) a = w := by
  induction ws generalizing m with
  | nil => cases hmem
  | cons v ws ih =>
    obtain ⟨hhead, htail⟩ := List.pairwise_cons.mp hapart
    rw [storeWords]
    rcases List.mem_cons.mp hmem with hv | hmem
    · subst hv
      rw [read32_storeWords_apart fun u hu => (hhead u hu).symm]
      exact read32_write32 hw
    · exact ih htail hmem

end Words

theorem storeAll_mem {fault : Mmu.Fault} {ws : List (Nat × Nat)} {σ σ' : ProcessFailure.System}
    (hr : storeAll fault ws σ = some σ') : σ'.heap.mem = storeWords ws σ.heap.mem := by
  induction ws generalizing σ with
  | nil =>
    cases hr
    rfl
  | cons w ws ih =>
    obtain ⟨addr, v⟩ := w
    simp only [storeAll, ProcessFailure.store, Option.bind_eq_bind, Option.bind_eq_some_iff,
      Option.some.injEq] at hr
    obtain ⟨τ, ⟨mmu, _, rfl⟩, hrest⟩ := hr
    exact ih hrest

/-- The words of a thread for the arguments of `tcb_init`. -/
def words (tcb : UInt32) (args : TcbArgs) (kstack : UInt32) : List (Nat × Nat) :=
  tcbWords tcb.toNat args.process.toNat args.pagedir.toNat args.priority.toNat args.quantum.toNat
    args.kstackSize.toNat args.startfunc.toNat args.exitfunc.toNat args.ud.toNat kstack.toNat

section Init
variable {m : Memory} {tcb kstack : UInt32} {args : TcbArgs}

/-- The stores of the switch are those of a process that is created, in their order. -/
theorem contextSwitch_tcbInit_eq (h : Fresh tcb kstack args) :
    ContextSwitch.tcbInit m tcb args (some kstack) =
      (true,
        storeWords (words tcb args kstack) (m.writeBytes tcb.toNat (List.replicate 84 0))) := by
  have hsize := h.size
  obtain ⟨hfour, height, htwelve, hesp⟩ := h.words
  have hesp0 : (firstEsp kstack args - UInt32.ofNat 32).toNat =
      kstack.toNat + args.kstackSize.toNat - 16 - 32 := by
    rw [toNat_sub_offset (by omega), hesp]
  have hslot := slot_toNat h.context
  rw [tcbInit_eq h]
  simp only [ContextSwitch.storeWords, storeFields, tcbFields, List.foldl_cons, List.foldl_nil]
  simp only [store, words, tcbWords, storeWords, hfour, height, htwelve, hesp, hesp0, hslot]
  rw [h.field (k := 72) (by decide), h.field (k := 44) (by decide), h.field (k := 60) (by decide),
    h.field (k := 56) (by decide), h.field (k := 48) (by decide), h.field (k := 76) (by decide),
    h.field (k := 80) (by decide)]
  rfl

end Init

/-- The words of a TCB are those of the scheduler's record. The links are addresses there, and
pointers to threads here. -/
structure Record (m : Memory) (tcb : Nat) (t : Scheduler.Tcb) : Prop where
  kstack : m.read32 (tcb + 44) = t.kstack
  elapsed : m.read32 (tcb + 48) = t.elapsed
  sleepTick : m.read32 (tcb + 52) = t.sleepTick
  quantum : m.read32 (tcb + 56) = t.quantum
  priority : m.read32 (tcb + 60) = t.priority
  threadId : m.read32 (tcb + 64) = t.threadId
  flags : m.read32 (tcb + 68) = 0 ↔ t.flags = .clear
  next : m.read32 (tcb + 76) = 0 ↔ t.next = none
  prev : m.read32 (tcb + 80) = 0 ↔ t.prev = none

section Record
variable {m : Memory} {tcb process pagedir priority quantum kstackSize : Nat}
  {startfunc exitfunc ud kstack : Nat}

/-- The stack is apart from the TCB. -/
structure Fits (tcb kstack kstackSize : Nat) : Prop where
  room : 16 ≤ kstack + kstackSize
  apart : tcb + 84 ≤ kstack + kstackSize - 16 ∨ kstack + kstackSize ≤ tcb

theorem tcbWords_apart (h : Fits tcb kstack kstackSize) :
    (tcbWords tcb process pagedir priority quantum kstackSize startfunc exitfunc ud kstack).Pairwise
      Apart := by
  obtain ⟨hroom, hapart⟩ := h
  simp only [tcbWords, List.pairwise_cons, List.mem_cons, List.not_mem_nil, or_false,
    forall_eq_or_imp,
    forall_eq, IsEmpty.forall_iff, implies_true, List.Pairwise.nil, and_true, Apart]
  generalize kstack + kstackSize = top at hroom hapart
  and_intros <;> omega

/-- As `memset` leaves a TCB. -/
def Zeroed (m : Memory) (tcb : Nat) : Prop := ∀ n, tcb ≤ n → n < tcb + 84 → m n = 0

theorem zeroed_writeBytes : Zeroed (m.writeBytes tcb (List.replicate 84 0)) tcb := by
  intro n hlo hhi
  have hin : n - tcb < (List.replicate 84 (0 : UInt8)).length := by
    rw [List.length_replicate]
    omega
  have hat : n = tcb + (n - tcb) := by omega
  rw [hat, writeBytes_in hin]
  exact List.getD_replicate 0 (by omega)

theorem Zeroed.read32 {k : Nat} (h : Zeroed m tcb) (hk : k + 4 ≤ 84) : m.read32 (tcb + k) = 0 := by
  unfold Memory.read32
  rw [h (tcb + k) (by omega) (by omega), h (tcb + k + 1) (by omega) (by omega),
    h (tcb + k + 2) (by omega) (by omega), h (tcb + k + 3) (by omega) (by omega)]
  rfl

theorem Zeroed.read32_kept {k : Nat} (hzero : Zeroed m tcb) (h : Fits tcb kstack kstackSize)
    (hk : k = 52 ∨ k = 64 ∨ k = 68) :
    (storeWords (tcbWords tcb process pagedir priority quantum kstackSize startfunc exitfunc ud
      kstack) m).read32 (tcb + k) = 0 := by
  obtain ⟨hroom, hapart⟩ := h
  rw [read32_storeWords_apart]
  · exact hzero.read32 (by omega)
  · simp only [tcbWords, List.mem_cons, List.not_mem_nil, or_false, forall_eq_or_imp, forall_eq]
    omega

theorem record_storeWords (hzero : Zeroed m tcb) (h : Fits tcb kstack kstackSize)
    (hpriority : priority < 2 ^ 32) (hquantum : quantum < 2 ^ 32) (hkstack : kstack < 2 ^ 32) :
    Record (storeWords (tcbWords tcb process pagedir priority quantum kstackSize startfunc
      exitfunc ud kstack) m) tcb (Scheduler.tcbInit priority quantum kstack) := by
  have hstored : ∀ a w, (a, w) ∈ tcbWords tcb process pagedir priority quantum kstackSize startfunc
      exitfunc ud kstack → w < 2 ^ 32 → (storeWords (tcbWords tcb process pagedir priority quantum
        kstackSize startfunc exitfunc ud kstack) m).read32 a = w :=
    fun _ _ hmem hw => read32_storeWords (tcbWords_apart h) hmem hw
  have hkept : ∀ k, k = 52 ∨ k = 64 ∨ k = 68 → (storeWords (tcbWords tcb process pagedir priority
      quantum kstackSize startfunc exitfunc ud kstack) m).read32 (tcb + k) = 0 :=
    fun _ hk => hzero.read32_kept h hk
  constructor
  · exact hstored _ kstack (by simp [tcbWords]) hkstack
  · exact hstored _ 0 (by simp [tcbWords]) (by decide)
  · exact hkept 52 (by decide)
  · exact hstored _ quantum (by simp [tcbWords]) hquantum
  · exact hstored _ priority (by simp [tcbWords]) hpriority
  · exact hkept 64 (by decide)
  · exact iff_of_true (hkept 68 (by decide)) rfl
  · exact iff_of_true (hstored _ 0 (by simp [tcbWords]) (by decide)) rfl
  · exact iff_of_true (hstored _ 0 (by simp [tcbWords]) (by decide)) rfl

end Record

theorem contextSwitch_record {m : Memory} {tcb kstack : UInt32} {args : TcbArgs}
    (h : Fresh tcb kstack args) :
    Record (ContextSwitch.tcbInit m tcb args (some kstack)).2 tcb.toNat
      (Scheduler.tcbInit args.priority.toNat args.quantum.toNat kstack.toNat) := by
  have hsize := h.size
  have hapart := h.apart
  simp only [ContextSwitch.tcbSize] at hapart
  have hfits : Fits tcb.toNat kstack.toNat args.kstackSize.toNat := ⟨by omega, by omega⟩
  rw [contextSwitch_tcbInit_eq h]
  exact record_storeWords zeroed_writeBytes hfits args.priority.toNat_lt args.quantum.toNat_lt
    kstack.toNat_lt

theorem processFailure_record {fault : Mmu.Fault} {σ σ' : ProcessFailure.System}
    {tcb process pagedir priority quantum kstackSize startfunc exitfunc ud kstack : Nat}
    (hr : storeAll fault (tcbWords tcb process pagedir priority quantum kstackSize startfunc
      exitfunc ud kstack) σ = some σ')
    (hzero : Zeroed σ.heap.mem tcb) (h : Fits tcb kstack kstackSize)
    (hpriority : priority < 2 ^ 32) (hquantum : quantum < 2 ^ 32) (hkstack : kstack < 2 ^ 32) :
    Record σ'.heap.mem tcb (Scheduler.tcbInit priority quantum kstack) := by
  rw [storeAll_mem hr]
  exact record_storeWords hzero h hpriority hquantum hkstack

end OsdevCourse.TcbInit
