import OsdevCourse.Interrupts

/-!
# The stubs of the timer, of page faults and of system calls

Between the interrupt and the handler in C: `PIC_IRQ_00`, `_INT_0E` and `_syscall`, each taken
apart at its call. What a stub needs later it keeps on the stack, the frame of the interrupt
on top; the arguments of the handler are below and belong to the handler. An `out` to the PIC
changes nothing here.
-/

namespace OsdevCourse.Traps

set_option autoImplicit false

open I686

/-- The addresses that the stubs name. -/
structure Image where
  gScheduler : UInt32
  tss : UInt32
  schedulerPick : UInt32
  pickBack : UInt32
  irq00 : UInt32
  schedulerTick : UInt32
  tickBack : UInt32
  int0EStub : UInt32
  int0E : UInt32
  int0EBack : UInt32
  syscall : UInt32
  syscallTable : UInt32
  syscallBack : UInt32

def SEG_CODE32_0 : UInt32 := 0x08
def SEG_DATA32_0 : UInt32 := 0x10
def SEG_CODE32_3 : UInt32 := 0x18
def SEG_DATA32_3 : UInt32 := 0x20
def SEG_TSS : UInt32 := 0x28

/-- The descriptor of the TSS, as `bootstrap` puts it together. -/
def tssDescriptor (tss : UInt32) : UInt32 × UInt32 :=
  (tss <<< (16 : UInt32) ||| 0x67, tss &&& 0xFF000000 ||| tss >>> (16 : UInt32) &&&
    0x000000FF ||| 0x00008900)

def gdt (tss : UInt32) : DescriptorTable :=
  [(0, 0), (0x0000FFFF, 0x00CF9A00), (0x0000FFFF, 0x00CF9200), (0x0000FFFF, 0x00CFFA00),
    (0x0000FFFF, 0x00CFF200), tssDescriptor tss]

/-! Instructions with their flags. -/

/-- CF, AF and OF of a sum. -/
def sumStatus (a b : UInt32) : UInt32 :=
  (if 2 ^ 32 ≤ a.toNat + b.toNat then 0x1 else 0) |||
  (if 16 ≤ a.toNat % 16 + b.toNat % 16 then 0x10 else 0) |||
  if a.toNat.testBit 31 = b.toNat.testBit 31 ∧
      (a + b).toNat.testBit 31 ≠ a.toNat.testBit 31 then 0x800 else 0

/-- CF, AF and OF of a difference. -/
def differenceStatus (a b : UInt32) : UInt32 :=
  (if a < b then 0x1 else 0) |||
  (if a.toNat % 16 < b.toNat % 16 then 0x10 else 0) |||
  if a.toNat.testBit 31 ≠ b.toNat.testBit 31 ∧
      (a - b).toNat.testBit 31 ≠ a.toNat.testBit 31 then 0x800 else 0

def addImm (σ : Cpu) (r : Reg) (v : UInt32) : Cpu :=
  { σ.set r (σ.reg r + v) with
    eflags := σ.eflags.setStatus (sumStatus (σ.reg r) v ||| Cpu.resultStatus (σ.reg r + v)) }

def subImm (σ : Cpu) (r : Reg) (v : UInt32) : Cpu :=
  { σ.set r (σ.reg r - v) with
    eflags := σ.eflags.setStatus (differenceStatus (σ.reg r) v ||| Cpu.resultStatus (σ.reg r - v)) }

def cmpImm (σ : Cpu) (r : Reg) (v : UInt32) : Cpu :=
  { σ with
    eflags := σ.eflags.setStatus
      (differenceStatus (σ.reg r) v ||| Cpu.resultStatus (σ.reg r - v)) }

/-- `ja`: neither CF nor ZF. -/
def above (σ : Cpu) : Bool := σ.eflags.image &&& 0x41 = 0

def movAl (σ : Cpu) (v : UInt32) : Cpu := σ.set .eax (σ.reg .eax &&& 0xFFFFFF00 ||| v)

/-! The stubs. -/

/-- `PIC_IRQ_00` up to its call of `scheduler_tick`. -/
def irq00Call (i : Image) (c : Core) : Cpu :=
  let σ := c.cpu.pusha
  let σ := movAl σ 0x20
  σ.call i.schedulerTick i.tickBack

def irq00Return (i : Image) (c : Core) : Core :=
  let σ := c.cpu.addZero .esp
  let σ := σ.popa
  { c with cpu := σ }.iretd (gdt i.tss)

/-- `_INT_0E` up to its call of `INT_0E`. -/
def int0ECall (i : Image) (c : Core) : Cpu :=
  let σ := c.cpu.pusha
  let σ := σ.set .eax c.cr2
  let σ := σ.push (load σ.mem (σ.reg .esp + UInt32.ofNat 36))
  let σ := σ.push (σ.reg .eax)
  let σ := σ.push (load σ.mem (σ.reg .esp + UInt32.ofNat 40))
  σ.call i.int0E i.int0EBack

def int0EReturn (i : Image) (c : Core) : Core :=
  let σ := c.cpu.addZero .esp
  let σ := addImm σ .esp (UInt32.ofNat 12)
  let σ := σ.popa
  let σ := addImm σ .esp (UInt32.ofNat 4)
  { c with cpu := σ }.iretd (gdt i.tss)

/-- `_syscall` up to the call of the handler, for a number that has one. -/
def syscallCall (i : Image) (c : Core) : Cpu :=
  let σ := cmpImm c.cpu .eax 12
  let σ := subImm σ .esp (UInt32.ofNat 40)
  let σ := σ.movStore (σ.reg .esp + UInt32.ofNat 20) (σ.reg .ebx)
  let σ := σ.movStore (σ.reg .esp + UInt32.ofNat 24) (σ.reg .ecx)
  let σ := σ.movStore (σ.reg .esp + UInt32.ofNat 28) (σ.reg .edx)
  let σ := σ.movStore (σ.reg .esp + UInt32.ofNat 32) (σ.reg .esi)
  let σ := σ.movStore (σ.reg .esp + UInt32.ofNat 36) (σ.reg .edi)
  let σ := σ.movStore (σ.reg .esp + UInt32.ofNat 0) (σ.reg .ebx)
  let σ := σ.movStore (σ.reg .esp + UInt32.ofNat 4) (σ.reg .ecx)
  let σ := σ.movStore (σ.reg .esp + UInt32.ofNat 8) (σ.reg .edx)
  let σ := σ.movStore (σ.reg .esp + UInt32.ofNat 12) (σ.reg .esi)
  let σ := σ.movStore (σ.reg .esp + UInt32.ofNat 16) (σ.reg .edi)
  σ.call (load σ.mem (i.syscallTable + σ.reg .eax * 4)) i.syscallBack

/-- `ja .fault` -/
def syscallFaults (c : Core) : Bool := above (cmpImm c.cpu .eax 12)

def syscallFault (i : Image) (c : Core) : Core :=
  let σ := cmpImm c.cpu .eax 12
  let σ := σ.set .eax (-1)
  { c with cpu := σ }.iretd (gdt i.tss)

/-- `_syscall` from the return of the handler up to `iretd`. -/
def syscallRestore (σ : Cpu) : Cpu :=
  let σ := σ.addZero .esp
  let σ := σ.movLoad .ebx (σ.reg .esp + UInt32.ofNat 20)
  let σ := σ.movLoad .ecx (σ.reg .esp + UInt32.ofNat 24)
  let σ := σ.movLoad .edx (σ.reg .esp + UInt32.ofNat 28)
  let σ := σ.movLoad .esi (σ.reg .esp + UInt32.ofNat 32)
  let σ := σ.movLoad .edi (σ.reg .esp + UInt32.ofNat 36)
  addImm σ .esp (UInt32.ofNat 40)

def syscallReturn (i : Image) (c : Core) : Core :=
  { c with cpu := syscallRestore c.cpu }.iretd (gdt i.tss)

/-- `mov ds, cx` and the like for `es`, `fs` and `gs`. -/
def dataSegments (cx : UInt16) (seg : Segment → UInt16) (r : Segment) : UInt16 :=
  if r = .cs ∨ r = .ss then seg r else cx

/-- `enter_ring3(ring3_eip, ring3_esp)` -/
def enterRing3 (i : Image) (c : Core) : Core :=
  let σ := c.cpu.set .ecx (SEG_DATA32_3 + 3)
  let seg := dataSegments (σ.reg .ecx).toUInt16 c.seg
  let σ := σ.movLoad .eax (σ.reg .esp + UInt32.ofNat 8)
  let σ := σ.movLoad .ebx (σ.reg .esp + UInt32.ofNat 4)
  let σ := σ.push (σ.reg .ecx)
  let σ := σ.push (σ.reg .eax)
  let σ := σ.push 0x0202
  let σ := σ.push (SEG_CODE32_3 + 3)
  let σ := σ.push (σ.reg .ebx)
  { c with cpu := σ, seg := seg }.iretd (gdt i.tss)

/-! What the handlers find, and what is kept. -/

section Spec
variable {i : Image} {c : Core} {ws : List UInt32} {n : Nat}

/-- The eight words that `pusha` leaves, from the top of the stack on. -/
def general (sp : UInt32) (r : Reg → UInt32) : List UInt32 :=
  [r .edi, r .esi, r .ebp, sp, r .ebx, r .edx, r .ecx, r .eax]

/-- From the state `σ` on, `size` bytes have been pushed, and the words `ws` are on the stack. -/
structure Pushed (σ τ : Cpu) (size : Nat) (ws : List UInt32) : Prop where
  esp : (τ.reg .esp).toNat = (σ.reg .esp).toNat - size
  words : Words τ.mem (τ.reg .esp).toNat ws
  out : ∀ n, n < (σ.reg .esp).toNat - size ∨ (σ.reg .esp).toNat ≤ n → τ.mem n = σ.mem n
  ebp : τ.reg .ebp = σ.reg .ebp
  cr3 : τ.cr3 = σ.cr3

namespace Pushed
variable {σ τ : Cpu} {size : Nat} {v : UInt32}

theorem start (h : Words σ.mem (σ.reg .esp).toNat ws) : Pushed σ σ 0 ws :=
  ⟨rfl, h, fun _ _ => rfl, rfl, rfl⟩

theorem push (h : Pushed σ τ size ws) (hroom : size + 4 ≤ (σ.reg .esp).toNat) :
    Pushed σ (τ.push v) (size + 4) (v :: ws) := by
  have hesp := h.esp
  have hfour : 4 ≤ (τ.reg .esp).toNat := by omega
  refine ⟨?_, Cpu.words_push h.words hfour, fun n hn => ?_, ?_, h.cr3⟩
  · have htop := Cpu.push_esp_toNat (v := v) hfour
    omega
  · rw [← h.out n (by omega)]
    exact Cpu.push_out hfour (by omega)
  · rw [← h.ebp]
    exact Cpu.push_reg (by simp)

theorem pushes (h : Pushed σ τ size ws) {vs : List UInt32}
    (hroom : size + 4 * vs.length ≤ (σ.reg .esp).toNat) :
    Pushed σ (τ.pushes vs) (size + 4 * vs.length) (vs.reverse ++ ws) := by
  induction vs generalizing τ size ws with
  | nil => exact h
  | cons v vs ih =>
    simp only [List.length_cons] at hroom
    have hrest := ih (h.push (v := v) (by omega)) (by omega)
    rw [show size + 4 + 4 * vs.length = size + 4 * (v :: vs).length by
      simp only [List.length_cons]
      omega] at hrest
    rw [List.reverse_cons, List.append_assoc]
    exact hrest

theorem pusha (h : Pushed σ τ size ws) (hroom : size + 32 ≤ (σ.reg .esp).toNat) :
    Pushed σ τ.pusha (size + 32) (general (τ.reg .esp) τ.reg ++ ws) := h.pushes hroom

theorem set (h : Pushed σ τ size ws) {r : Reg} (hesp : r ≠ .esp) (hebp : r ≠ .ebp) :
    Pushed σ (τ.set r v) size ws := by
  have hkept : (τ.set r v).reg .esp = τ.reg .esp := by simp [Cpu.set, hesp.symm]
  refine ⟨?_, ?_, h.out, ?_, h.cr3⟩
  · rw [hkept]
    exact h.esp
  · rw [hkept]
    exact h.words
  · rw [← h.ebp]
    simp [Cpu.set, hebp.symm]

theorem call (h : Pushed σ τ size ws) {x : UInt32} (hroom : size + 4 ≤ (σ.reg .esp).toNat) :
    Pushed σ (τ.call x v) (size + 4) (v :: ws) := by
  have hpush := h.push (v := v) hroom
  exact ⟨hpush.esp, hpush.words, hpush.out, hpush.ebp, hpush.cr3⟩

theorem load_at (h : Pushed σ τ size ws) {j : Nat} (hj : ws[j]? = some v)
    (hbound : (τ.reg .esp).toNat + 4 * j < 2 ^ 32) :
    load τ.mem (τ.reg .esp + UInt32.ofNat (4 * j)) = v :=
  h.words.load_at hj (toNat_add_offset hbound)

end Pushed

theorem irq00Call_spec (h : 36 ≤ (c.cpu.reg .esp).toNat)
    (hwords : Words c.cpu.mem (c.cpu.reg .esp).toNat ws) :
    Pushed c.cpu (irq00Call i c) 36 (i.tickBack :: (general (c.cpu.reg .esp) c.cpu.reg ++ ws)) := by
  have hpusha := (Pushed.start hwords).pusha (by omega)
  have hmov := hpusha.set (r := .eax) (v := c.cpu.pusha.reg .eax &&& 0xFFFFFF00 ||| 0x20)
    (by simp) (by simp)
  exact hmov.call (by omega)

theorem int0ECall_spec {code eip cs : UInt32} (h : 48 ≤ (c.cpu.reg .esp).toNat)
    (hwords : Words c.cpu.mem (c.cpu.reg .esp).toNat (code :: eip :: cs :: ws))
    (hbound : (c.cpu.reg .esp).toNat + 12 < 2 ^ 32) :
    Pushed c.cpu (int0ECall i c) 48
      (i.int0EBack :: code :: c.cr2 :: eip ::
          (general (c.cpu.reg .esp) c.cpu.reg ++ code :: eip :: cs :: ws)) := by
  have hpusha := (Pushed.start hwords).pusha (by omega)
  have hmov := hpusha.set (r := .eax) (v := c.cr2) (by simp) (by simp)
  have hesp := hmov.esp
  have heip : load (c.cpu.pusha.set .eax c.cr2).mem
      ((c.cpu.pusha.set .eax c.cr2).reg .esp + UInt32.ofNat 36) = eip :=
    hmov.load_at (j := 9) rfl (by omega)
  have hfirst := hmov.push (v := eip) (by omega)
  have hsecond := hfirst.push (v := c.cr2) (by omega)
  have hesp₂ := hsecond.esp
  have hcode : load (((c.cpu.pusha.set .eax c.cr2).push eip).push c.cr2).mem
      ((((c.cpu.pusha.set .eax c.cr2).push eip).push c.cr2).reg .esp + UInt32.ofNat 40) = code :=
    hsecond.load_at (j := 10) rfl (by omega)
  have hthird := hsecond.push (v := code) (by omega)
  have heax : ((c.cpu.pusha.set .eax c.cr2).push eip).reg .eax = c.cr2 := by
    rw [Cpu.push_reg (by simp)]
    simp [Cpu.set]
  have heq : int0ECall i c =
      ((((c.cpu.pusha.set .eax c.cr2).push eip).push c.cr2).push code).call i.int0E
      i.int0EBack := by
    simp only [int0ECall, heip, heax, hcode]
  rw [heq]
  exact hthird.call (by omega)

/-- Words stored upwards from an address. -/
def storeRow (m : Memory) (a : UInt32) : Nat → List UInt32 → Memory
  | _, [] => m
  | o, w :: ws => storeRow (store m (a + UInt32.ofNat o) w) a (o + 4) ws

theorem storeRow_out {m : Memory} {a : UInt32} {o : Nat} (ha : a.toNat + o + 4 * ws.length ≤ 2 ^ 32)
    (hn : n < a.toNat + o ∨ a.toNat + o + 4 * ws.length ≤ n) : storeRow m a o ws n = m n := by
  induction ws generalizing m o with
  | nil => rfl
  | cons w ws ih =>
    simp only [List.length_cons] at ha hn
    have hat : (a + UInt32.ofNat o).toNat = a.toNat + o := toNat_add_offset (by omega)
    have hrest := ih (m := store m (a + UInt32.ofNat o) w) (o := o + 4) (by omega) (by omega)
    exact hrest.trans (store_out (by omega))

theorem storeRow_words {m : Memory} {a : UInt32} {o : Nat}
    (ha : a.toNat + o + 4 * ws.length ≤ 2 ^ 32) :
    Words (storeRow m a o ws) (a.toNat + o) ws := by
  induction ws generalizing m o with
  | nil => trivial
  | cons w ws ih =>
    simp only [List.length_cons] at ha
    have hat : (a + UInt32.ofNat o).toNat = a.toNat + o := toNat_add_offset (by omega)
    refine ⟨?_, ih (by omega)⟩
    have hfirst := (words_store (m := m) (v := w) hat).1
    rw [← hfirst]
    apply Memory.read32_congr
    intro n hlo hhi
    have hkept : storeRow (store m (a + UInt32.ofNat o) w) a (o + 4) ws n = store m
        (a + UInt32.ofNat o) w n :=
      storeRow_out (by omega) (Or.inl (by omega))
    exact hkept

/-- The registers in which a system call takes its arguments. -/
def arguments (r : Reg → UInt32) : List UInt32 := [r .ebx, r .ecx, r .edx, r .esi, r .edi]

theorem syscallCall_eq : syscallCall i c =
    let σ := subImm (cmpImm c.cpu .eax 12) .esp (UInt32.ofNat 40)
    let m := storeRow (storeRow c.cpu.mem (σ.reg .esp) 20 (arguments c.cpu.reg)) (σ.reg .esp) 0
      (arguments c.cpu.reg)
    ({ σ with mem := m }).call (load m (i.syscallTable + c.cpu.reg .eax * 4)) i.syscallBack := rfl

theorem syscallCall_spec (h : 44 ≤ (c.cpu.reg .esp).toNat)
    (hwords : Words c.cpu.mem (c.cpu.reg .esp).toNat ws)
    (htable : (i.syscallTable + c.cpu.reg .eax * 4).toNat + 4 ≤ (c.cpu.reg .esp).toNat - 44 ∨
      (c.cpu.reg .esp).toNat ≤ (i.syscallTable + c.cpu.reg .eax * 4).toNat) :
    Pushed c.cpu (syscallCall i c) 44
      (i.syscallBack :: (arguments c.cpu.reg ++ (arguments c.cpu.reg ++ ws))) ∧
    (syscallCall i c).eip = load c.cpu.mem (i.syscallTable + c.cpu.reg .eax * 4) := by
  have hlt := (c.cpu.reg .esp).toNat_lt
  have hlen : (arguments c.cpu.reg).length = 5 := rfl
  rw [syscallCall_eq]
  dsimp only
  generalize hσ : subImm (cmpImm c.cpu .eax 12) .esp (UInt32.ofNat 40) = σ
  have hsub : σ.reg .esp = c.cpu.reg .esp - UInt32.ofNat 40 := by
    rw [← hσ]
    simp [subImm, cmpImm, Cpu.set]
  have hesp : (σ.reg .esp).toNat = (c.cpu.reg .esp).toNat - 40 := by
    rw [hsub]
    exact toNat_sub_offset (by omega)
  generalize hm : storeRow (storeRow c.cpu.mem (σ.reg .esp) 20 (arguments c.cpu.reg)) (σ.reg .esp) 0
    (arguments c.cpu.reg) = m
  have hout : ∀ n, n < (c.cpu.reg .esp).toNat - 40 ∨ (c.cpu.reg .esp).toNat ≤ n →
      m n = c.cpu.mem n := by
    intro n hn
    rw [← hm]
    exact (storeRow_out (by omega) (by omega)).trans (storeRow_out (by omega) (by omega))
  have hkept : Pushed c.cpu { σ with mem := m } 40
      (arguments c.cpu.reg ++ (arguments c.cpu.reg ++ ws)) := by
    refine ⟨hesp, ?_, hout, ?_, ?_⟩
    · have hsecond : (σ.reg .esp).toNat + 0 + 4 * (arguments c.cpu.reg).length =
          (σ.reg .esp).toNat + 20 := by
        omega
      have hthird : (σ.reg .esp).toNat + 20 + 4 * (arguments c.cpu.reg).length =
          (c.cpu.reg .esp).toNat := by
        omega
      rw [← Nat.add_zero (σ.reg .esp).toNat, words_append, hsecond, words_append, hthird]
      refine ⟨?_, ?_, hwords.congr fun n hlo _ => hout n (Or.inr hlo)⟩
      · rw [← hm]
        exact storeRow_words (by omega)
      · rw [← hm]
        refine (storeRow_words (m := c.cpu.mem) (by omega)).congr fun n hlo _ => ?_
        exact storeRow_out (by omega) (Or.inr (by omega))
    · rw [← hσ]
      simp [subImm, cmpImm, Cpu.set]
    · rw [← hσ]
      rfl
  refine ⟨hkept.call (by omega), ?_⟩
  apply load_congr
  intro n hlo hhi
  exact hout n (by omega)

end Spec

/-! The three ways into the kernel and back. -/

/-- What a program sees of the processor. -/
structure User where
  reg : Reg → UInt32
  eflags : Eflags
  eip : UInt32
  seg : Segment → UInt16

def userOf (c : Core) : User := ⟨c.cpu.reg, c.cpu.eflags, c.cpu.eip, c.seg⟩

/-- The processor with the registers of a program. -/
def restore (u : User) (c : Core) : Core :=
  { c with cpu := { c.cpu with reg := u.reg, eflags := u.eflags, eip := u.eip }, seg := u.seg }

/-- The selectors of ring 3. -/
def userSeg (r : Segment) : UInt16 :=
  if r = .cs then (SEG_CODE32_3 + 3).toUInt16 else (SEG_DATA32_3 + 3).toUInt16

/-- The frame that `iretd` needs. -/
def userFrame (u : User) : List UInt32 :=
  [u.eip, (u.seg .cs).toUInt32, u.eflags.image, u.reg .esp, (u.seg .ss).toUInt32]

inductive Trap where
  | timer
  | pageFault (code addr : UInt32)
  | syscall
  deriving DecidableEq, Repr

namespace Trap

def gate (i : Image) : Trap → Gate
  | timer => ⟨i.irq00, SEG_CODE32_0.toUInt16⟩
  | pageFault _ _ => ⟨i.int0EStub, SEG_CODE32_0.toUInt16⟩
  | syscall => ⟨i.syscall, SEG_CODE32_0.toUInt16⟩

def code : Trap → Option UInt32
  | pageFault code _ => some code
  | timer | syscall => none

/-- CR2, which a page fault sets. -/
def cr2 (old : UInt32) : Trap → UInt32
  | pageFault _ addr => addr
  | timer | syscall => old

/-- From the interrupt to the first instruction of the handler. -/
def enter (i : Image) (t : Trap) (c : Core) : Core :=
  let c := { c.interrupt i.tss (t.gate i) t.code with cr2 := t.cr2 c.cr2 }
  match t with
  | timer => { c with cpu := irq00Call i c }
  | pageFault _ _ => { c with cpu := int0ECall i c }
  | syscall => { c with cpu := syscallCall i c }

/-- From the return of the handler on. -/
def leave (i : Image) (t : Trap) (c : Core) : Core :=
  match t with
  | timer => irq00Return i c
  | pageFault _ _ => int0EReturn i c
  | syscall => syscallReturn i c

def back (i : Image) : Trap → UInt32
  | timer => i.tickBack
  | pageFault _ _ => i.int0EBack
  | syscall => i.syscallBack

/-- The function in C that the stub calls. -/
def handler (i : Image) (c : Core) : Trap → UInt32
  | timer => i.schedulerTick
  | pageFault _ _ => i.int0E
  | syscall => load c.cpu.mem (i.syscallTable + c.cpu.reg .eax * 4)

/-- What the stub keeps for the program. -/
def saved (sp : UInt32) (u : User) : Trap → List UInt32
  | timer => general sp u.reg ++ userFrame u
  | pageFault code _ => general sp u.reg ++ code :: userFrame u
  | syscall => arguments u.reg ++ userFrame u

/-- The arguments of the handler. -/
def given (u : User) : Trap → List UInt32
  | timer => []
  | pageFault code addr => [code, addr, u.eip]
  | syscall => arguments u.reg

/-- The bytes of the kernel stack in use when the handler is entered. -/
def size : Trap → Nat
  | timer => 56
  | pageFault _ _ => 72
  | syscall => 64

/-- The bytes that are kept. -/
def kept : Trap → Nat
  | timer => 52
  | pageFault _ _ => 56
  | syscall => 40

/-- The interrupt has begun on the kernel stack whose top is `top`. -/
structure Begun (i : Image) (c τ : Core) (top : Nat) (code : List UInt32) : Prop where
  esp : (τ.cpu.reg .esp).toNat = top - 4 * (code.length + 5)
  words : Words τ.cpu.mem (τ.cpu.reg .esp).toNat (code ++ userFrame (userOf c))
  out : ∀ n, n < top - 4 * (code.length + 5) ∨ top ≤ n → τ.cpu.mem n = c.cpu.mem n
  reg : ∀ r, r ≠ .esp → τ.cpu.reg r = c.cpu.reg r
  eflags : τ.cpu.eflags.interrupts = false
  cr3 : τ.cpu.cr3 = c.cpu.cr3
  cs : τ.seg .cs = SEG_CODE32_0.toUInt16
  ss : τ.seg .ss = (load c.cpu.mem (i.tss + 8)).toUInt16
  data : ∀ r, r ≠ .cs → r ≠ .ss → τ.seg r = c.seg r

/-- The handler is entered, with interrupts off, on the kernel stack whose top is `top`. -/
structure Entered (i : Image) (t : Trap) (c τ : Core) (top : Nat) (sp : UInt32) : Prop where
  eip : τ.cpu.eip = t.handler i c
  interrupts : τ.cpu.eflags.interrupts = false
  esp : (τ.cpu.reg .esp).toNat = top - t.size
  words : Words τ.cpu.mem (τ.cpu.reg .esp).toNat
    (t.back i :: (t.given (userOf c) ++ t.saved sp (userOf c)))
  out : ∀ n, n < top - t.size ∨ top ≤ n → τ.cpu.mem n = c.cpu.mem n
  ebp : τ.cpu.reg .ebp = c.cpu.reg .ebp
  cr3 : τ.cpu.cr3 = c.cpu.cr3
  cs : τ.seg .cs = SEG_CODE32_0.toUInt16
  ss : τ.seg .ss = (load c.cpu.mem (i.tss + 8)).toUInt16
  data : ∀ r, r ≠ .cs → r ≠ .ss → τ.seg r = c.seg r

/-- The number of a system call has a handler, and its slot of the table is not on the stack. -/
structure Served (i : Image) (c : Core) (top : Nat) : Prop where
  number : syscallFaults c = false
  apart : (i.syscallTable + c.cpu.reg .eax * 4).toNat + 4 ≤ top - 64 ∨
    top ≤ (i.syscallTable + c.cpu.reg .eax * 4).toNat

section Enter
variable {i : Image} {t : Trap} {c τ : Core} {top size : Nat} {ws code : List UInt32}
    {σ : Cpu} {sp : UInt32}

theorem begun (houter : c.cpl ≠ 0) (hroom : 72 ≤ (load c.cpu.mem (i.tss + 4)).toNat) :
    Begun i c { c.interrupt i.tss (t.gate i) t.code with cr2 := t.cr2 c.cr2 }
      (load c.cpu.mem (i.tss + 4)).toNat t.code.toList := by
  have hcode : t.code.toList.length ≤ 1 := by
    cases t <;> simp [Trap.code]
  have hfit : 4 * (t.code.toList.length + 5) ≤ (load c.cpu.mem (i.tss + 4)).toNat := by omega
  have hesp := Core.interrupt_outer_esp (g := t.gate i) houter hfit
  refine ⟨hesp, ?_, fun n hn => Core.interrupt_outer_out houter hfit hn,
    fun r hr => Core.interrupt_reg hr,
    ?_, Core.interrupt_cr3, ?_, ?_, fun r hcs hss => ?_⟩
  · have hwords := Core.interrupt_outer_words (g := t.gate i) houter hfit
    rw [← hesp] at hwords
    exact hwords
  · exact (congrArg Eflags.interrupts Core.interrupt_eflags).trans (Eflags.gated_interrupts _)
  · rw [Core.interrupt_cs]
    cases t <;> rfl
  · simp only [Core.interrupt, if_neg houter, reduceCtorEq, if_true, if_false]
  · simp only [Core.interrupt, if_neg houter, if_neg hcs, if_neg hss]

theorem general_congr {r r' : Reg → UInt32} (h : ∀ q, q ≠ .esp → r' q = r q) :
    general sp r' = general sp r := by
  simp [general, h]

theorem arguments_congr {r r' : Reg → UInt32} (h : ∀ q, q ≠ .esp → r' q = r q) :
    arguments r' = arguments r := by
  simp [arguments, h]

theorem Begun.entered (h : Begun i c τ top code) (hpushed : Pushed τ.cpu σ size ws)
    (hsize : 4 * (code.length + 5) + size = t.size) (hfit : t.size ≤ top)
    (hws : ws = t.back i :: (t.given (userOf c) ++ t.saved sp (userOf c)))
    (heip : σ.eip = t.handler i c)
    (hflags : σ.eflags.interrupts = τ.cpu.eflags.interrupts) :
    Entered i t c { τ with cpu := σ } top sp := by
  have hesp := h.esp
  have hesp₂ := hpushed.esp
  refine ⟨heip, hflags.trans h.eflags, ?_, hws ▸ hpushed.words, fun n hn => ?_, ?_,
    hpushed.cr3.trans h.cr3, h.cs,
    h.ss, h.data⟩
  · simp only
    omega
  · rw [← h.out n (by omega)]
    exact hpushed.out n (by omega)
  · exact hpushed.ebp.trans (h.reg .ebp (by simp))

theorem setStatus_interrupts (f : Eflags) (status : UInt32) :
    (f.setStatus status).interrupts = f.interrupts := by
  have hkept : ~~~(0x8D5 : UInt32) &&& (loadable &&& 0x200) = 0x200 := by decide
  have hstatus : (0x8D5 : UInt32) &&& (loadable &&& 0x200) = 0 := by decide
  have hfixed : (0x200 : UInt32) &&& 2 = 0 := by decide
  have himage : (f.setStatus status).image &&& 0x200 = f.image &&& 0x200 := by
    simp only [Eflags.setStatus, Eflags.ofImage]
    rw [UInt32.and_comm, and_or_distrib, hfixed, UInt32.or_zero, UInt32.and_comm, UInt32.and_assoc,
      UInt32.and_comm, and_or_distrib, UInt32.and_comm _ (f.image &&& _), UInt32.and_assoc, hkept,
      UInt32.and_comm _ (status &&& _), UInt32.and_assoc, hstatus, UInt32.and_zero, UInt32.or_zero]
  unfold Eflags.interrupts
  rw [himage]

theorem syscallCall_interrupts : (syscallCall i c).eflags.interrupts = c.cpu.eflags.interrupts := by
  have hflags : ∃ a b, (syscallCall i c).eflags = (c.cpu.eflags.setStatus a).setStatus b :=
    ⟨_, _, rfl⟩
  obtain ⟨a, b, heq⟩ := hflags
  rw [heq, setStatus_interrupts, setStatus_interrupts]

theorem enter_spec (houter : c.cpl ≠ 0) (hroom : 72 ≤ (load c.cpu.mem (i.tss + 4)).toNat)
    (hserved : t = .syscall → Served i c (load c.cpu.mem (i.tss + 4)).toNat) :
    ∃ sp, Entered i t c (t.enter i c) (load c.cpu.mem (i.tss + 4)).toNat sp := by
  have hbegun := begun (t := t) houter hroom
  have hlt := (load c.cpu.mem (i.tss + 4)).toNat_lt
  generalize hτ :
    ({ c.interrupt i.tss (t.gate i) t.code with cr2 := t.cr2 c.cr2 } : Core) = τ at hbegun
  have hesp := hbegun.esp
  cases t with
  | timer =>
    simp only [code, Option.toList, List.length_nil] at hesp
    have hcall := irq00Call_spec (i := i) (by omega) hbegun.words
    rw [general_congr hbegun.reg] at hcall
    refine ⟨τ.cpu.reg .esp, ?_⟩
    have henter : Trap.timer.enter i c = { τ with cpu := irq00Call i τ } := by
      rw [← hτ]
      rfl
    rw [henter]
    exact hbegun.entered hcall rfl (by simp only [size]; omega) rfl rfl rfl
  | pageFault code addr =>
    simp only [Trap.code, Option.toList, List.length_cons, List.length_nil] at hesp
    have hcall := int0ECall_spec (i := i) (by omega) hbegun.words (by omega)
    rw [general_congr hbegun.reg] at hcall
    refine ⟨τ.cpu.reg .esp, ?_⟩
    have henter : (Trap.pageFault code addr).enter i c = { τ with cpu := int0ECall i τ } := by
      rw [← hτ]
      rfl
    have hcr2 : τ.cr2 = addr := by
      rw [← hτ]
      rfl
    rw [henter]
    refine hbegun.entered hcall rfl (by simp only [size]; omega) ?_ rfl rfl
    rw [hcr2]
    rfl
  | syscall =>
    simp only [code, Option.toList, List.length_nil] at hesp
    have hserved := hserved rfl
    have heax := hbegun.reg .eax (by simp)
    have hapart := hserved.apart
    obtain ⟨hcall, heip⟩ := syscallCall_spec (i := i) (by omega) hbegun.words (by rw [heax]; omega)
    rw [arguments_congr hbegun.reg] at hcall
    have henter : Trap.syscall.enter i c = { τ with cpu := syscallCall i τ } := by
      rw [← hτ]
      rfl
    refine ⟨0, ?_⟩
    rw [henter]
    refine hbegun.entered hcall rfl (by simp only [size]; omega) rfl ?_ syscallCall_interrupts
    rw [heip, heax]
    apply load_congr
    intro n hlo hhi
    apply hbegun.out
    simp only [code, Option.toList, List.length_nil]
    omega

end Enter

/-! The way back. -/

section Leave
variable {i : Image} {t : Trap} {c : Core} {u : User} {sp : UInt32} {ws : List UInt32}

theorem kept_user (tss : UInt32) : Core.kept (gdt tss) 3 (SEG_DATA32_3 + 3).toUInt16 =
    (SEG_DATA32_3 + 3).toUInt16 := by
  have hselector : (SEG_DATA32_3 + 3).toUInt16 = 0x23 := by decide
  have hdpl : dpl (gdt tss) (SEG_DATA32_3 + 3).toUInt16 = 3 := by
    rw [hselector]
    simp [dpl, gdt]
  unfold Core.kept
  rw [hdpl]
  exact if_neg fun h => Nat.lt_irrefl 3 h.2

/-- The processor is about to return to the program. -/
structure Returning (c : Core) (u : User) : Prop where
  cpl : c.cpl = 0
  user : u.seg = userSeg
  data : ∀ r, r ≠ .cs → r ≠ .ss → c.seg r = (SEG_DATA32_3 + 3).toUInt16

theorem iretd_user (h : Returning c u)
    (hwords : Words c.cpu.mem (c.cpu.reg .esp).toNat (userFrame u))
    (hbound : (c.cpu.reg .esp).toNat + 20 < 2 ^ 32) (hreg : ∀ r, r ≠ .esp → c.cpu.reg r = u.reg r) :
    c.iretd (gdt i.tss) = restore u c := by
  have hcs : (u.seg .cs).toUInt32.toUInt16 = u.seg .cs := UInt16.toUInt16_toUInt32 _
  have hss : (u.seg .ss).toUInt32.toUInt16 = u.seg .ss := UInt16.toUInt16_toUInt32 _
  have hring : rpl (u.seg .cs) = 3 := by
    rw [h.user]
    rfl
  rw [Core.iretd_outer hwords hbound (by rw [hcs, hring, h.cpl]; decide), hcs, hss, hring]
  unfold restore
  congr 1
  · congr 1
    · funext r
      by_cases hr : r = .esp
      · rw [if_pos hr, hr]
      · rw [if_neg hr]
        exact hreg r hr
    · exact Eflags.ofImage_image _
  · funext r
    by_cases hcs : r = .cs
    · rw [if_pos hcs, hcs]
    · rw [if_neg hcs]
      by_cases hss : r = .ss
      · rw [if_pos hss, hss]
      · rw [if_neg hss, h.data r hcs hss, kept_user, h.user, userSeg, if_neg hcs]

/-- The words that a stub keeps hold the program `u`, and the handler has kept `ebp`. -/
structure Holds (i : Image) (t : Trap) (c : Core) (u : User) : Prop extends Returning c u where
  words : ∃ sp, Words c.cpu.mem ((c.cpu.reg .esp).toNat + 4 * (t.given u).length) (t.saved sp u)
  bound : (c.cpu.reg .esp).toNat + 68 < 2 ^ 32
  ebp : t = .syscall → c.cpu.reg .ebp = u.reg .ebp

theorem addZero_esp {σ : Cpu} : (σ.addZero .esp).reg .esp = σ.reg .esp := by
  simp [Cpu.addZero, Cpu.set]

theorem addImm_esp {σ : Cpu} {v : UInt32} : (addImm σ .esp v).reg .esp = σ.reg .esp + v := by
  simp [addImm, Cpu.set]

theorem addImm_reg {σ : Cpu} {v : UInt32} {r : Reg} (hr : r ≠ .esp) :
    (addImm σ .esp v).reg r = σ.reg r := by
  simp [addImm, Cpu.set, hr]

theorem popa_user {σ : Cpu} (hwords : Words σ.mem (σ.reg .esp).toNat (general sp u.reg ++ ws))
    (hbound : (σ.reg .esp).toNat + 32 < 2 ^ 32) :
    (∀ r, r ≠ .esp → σ.popa.reg r = u.reg r) ∧ σ.popa.mem = σ.mem ∧ σ.popa.cr3 = σ.cr3 ∧
    (σ.popa.reg .esp).toNat = (σ.reg .esp).toNat + 32 ∧
    Words σ.popa.mem ((σ.reg .esp).toNat + 32) ws := by
  obtain ⟨hgeneral, hrest⟩ := words_append.mp hwords
  rw [Cpu.popa_eq hgeneral hbound]
  refine ⟨fun r hr => ?_, rfl, rfl, toNat_add_offset hbound, hrest⟩
  cases r with
  | esp => exact absurd rfl hr
  | eax | ebx | ecx | edx | ebp | esi | edi => rfl

theorem restore_congr {σ : Cpu} (hmem : σ.mem = c.cpu.mem) (hcr3 : σ.cr3 = c.cpu.cr3) :
    restore u { c with cpu := σ } = restore u c := by
  simp only [restore, hmem, hcr3]

theorem irq00Return_eq (h : Holds i .timer c u) : irq00Return i c = restore u c := by
  obtain ⟨sp, hwords⟩ := h.words
  have hbound := h.bound
  have hpopa := popa_user (σ := c.cpu.addZero .esp) (by rw [addZero_esp]; exact hwords)
    (by rw [addZero_esp]; omega)
  obtain ⟨hreg, hmem, hcr3, hesp, hframe⟩ := hpopa
  rw [addZero_esp] at hesp hframe
  have hret : Returning { c with cpu := (c.cpu.addZero .esp).popa } u := ⟨h.cpl, h.user, h.data⟩
  have hiretd := iretd_user (i := i) hret (by rw [hesp]; exact hframe) (by rw [hesp]; omega) hreg
  exact hiretd.trans (restore_congr hmem hcr3)

theorem int0EReturn_eq {code addr : UInt32} (h : Holds i (.pageFault code addr) c u) :
    int0EReturn i c = restore u c := by
  obtain ⟨sp, hwords⟩ := h.words
  have hbound := h.bound
  have hskip : ((addImm (c.cpu.addZero .esp) .esp (UInt32.ofNat 12)).reg .esp).toNat =
      (c.cpu.reg .esp).toNat + 12 := by
    rw [addImm_esp, addZero_esp]
    exact toNat_add_offset (by omega)
  have hpopa := popa_user (σ := addImm (c.cpu.addZero .esp) .esp (UInt32.ofNat 12))
    (by rw [hskip]; exact hwords) (by rw [hskip]; omega)
  generalize hσ : (addImm (c.cpu.addZero .esp) .esp (UInt32.ofNat 12)).popa = σ at hpopa
  obtain ⟨hreg, hmem, hcr3, hesp, hframe⟩ := hpopa
  rw [hskip] at hesp hframe
  have hlast : ((addImm σ .esp (UInt32.ofNat 4)).reg .esp).toNat = (c.cpu.reg .esp).toNat + 48 := by
    rw [addImm_esp, toNat_add_offset (by omega), hesp]
  have hret : Returning { c with cpu := addImm σ .esp (UInt32.ofNat 4) } u :=
    ⟨h.cpl, h.user, h.data⟩
  have hiretd := iretd_user (i := i) hret (by rw [hlast]; exact hframe.2) (by rw [hlast]; omega)
    fun r hr => (addImm_reg hr).trans (hreg r hr)
  rw [int0EReturn, hσ]
  exact hiretd.trans (restore_congr hmem hcr3)

/-- The program with the result of a system call. -/
def withResult (u : User) (eax : UInt32) : User :=
  { u with reg := fun r => if r = .eax then eax else u.reg r }

theorem syscallReturn_eq (h : Holds i .syscall c u) :
    syscallReturn i c = restore (withResult u (c.cpu.reg .eax)) c := by
  obtain ⟨sp, hwords⟩ := h.words
  have hbound := h.bound
  have hword : ∀ j, j ≤ 4 → (c.cpu.reg .esp + UInt32.ofNat (20 + 4 * j)).toNat =
      (c.cpu.reg .esp).toNat + 4 * (Trap.syscall.given u).length + 4 * j := by
    intro j hj
    rw [toNat_add_offset (by omega)]
    simp only [given, arguments, List.length_cons, List.length_nil]
    omega
  have hebx : load c.cpu.mem (c.cpu.reg .esp + 20) = u.reg .ebx :=
    hwords.load_at (i := 0) rfl (hword 0 (by omega))
  have hecx : load c.cpu.mem (c.cpu.reg .esp + 24) = u.reg .ecx :=
    hwords.load_at (i := 1) rfl (hword 1 (by omega))
  have hedx : load c.cpu.mem (c.cpu.reg .esp + 28) = u.reg .edx :=
    hwords.load_at (i := 2) rfl (hword 2 (by omega))
  have hesi : load c.cpu.mem (c.cpu.reg .esp + 32) = u.reg .esi :=
    hwords.load_at (i := 3) rfl (hword 3 (by omega))
  have hedi : load c.cpu.mem (c.cpu.reg .esp + 36) = u.reg .edi :=
    hwords.load_at (i := 4) rfl (hword 4 (by omega))
  have hframe : Words c.cpu.mem ((c.cpu.reg .esp).toNat + 40)
      (userFrame (withResult u (c.cpu.reg .eax))) :=
    (words_append.mp hwords).2
  have hlast : (c.cpu.reg .esp + UInt32.ofNat 40).toNat = (c.cpu.reg .esp).toNat + 40 :=
    toNat_add_offset (by omega)
  have hebp := h.ebp rfl
  have hret : Returning c (withResult u (c.cpu.reg .eax)) := ⟨h.cpl, h.user, h.data⟩
  have hesp : (syscallRestore c.cpu).reg .esp = c.cpu.reg .esp + UInt32.ofNat 40 := by
    simp [syscallRestore, addImm, Cpu.movLoad, Cpu.set, Cpu.addZero]
  have hreg : ∀ r, r ≠ .esp → (syscallRestore c.cpu).reg r =
      (withResult u (c.cpu.reg .eax)).reg r := by
    intro r hr
    cases r with
    | esp => exact absurd rfl hr
    | eax | ebx | ecx | edx | ebp | esi | edi =>
      simp [syscallRestore, addImm, Cpu.movLoad, Cpu.set, Cpu.addZero, withResult, hebx, hecx,
        hedx, hesi, hedi,
        hebp]
  have hiretd := iretd_user (i := i) (c := { c with cpu := syscallRestore c.cpu })
    ⟨hret.cpl, hret.user, hret.data⟩ (by rw [hesp, hlast]; exact hframe)
      (by rw [hesp, hlast]; omega) hreg
  exact hiretd.trans (restore_congr rfl rfl)

/-- The way back restores the program; a system call gives it its result. -/
def outcome (u : User) (eax : UInt32) : Trap → User
  | timer => u
  | pageFault _ _ => u
  | syscall => withResult u eax

theorem leave_eq (h : Holds i t c u) : t.leave i c = restore (t.outcome u (c.cpu.reg .eax)) c := by
  cases t with
  | timer => exact irq00Return_eq h
  | pageFault code addr => exact int0EReturn_eq h
  | syscall => exact syscallReturn_eq h

theorem above_cmpImm (σ : Cpu) (r : Reg) (v : UInt32) :
    above (cmpImm σ r v) = decide (v < σ.reg r) := by
  have hstatus : (0x8D5 : UInt32) &&& (loadable &&& 0x41) = 0x41 := by decide
  have hkept : ~~~(0x8D5 : UInt32) &&& (loadable &&& 0x41) = 0 := by decide
  have hfixed : (0x41 : UInt32) &&& 2 = 0 := by decide
  have hbits : ∀ status : UInt32, (σ.eflags.setStatus status).image &&& 0x41 = status &&& 0x41 := by
    intro status
    simp only [Eflags.setStatus, Eflags.ofImage]
    rw [UInt32.and_comm, and_or_distrib, hfixed, UInt32.or_zero, UInt32.and_comm, UInt32.and_assoc,
      UInt32.and_comm, and_or_distrib, UInt32.and_comm _ (σ.eflags.image &&& _),
        UInt32.and_assoc, hkept,
      UInt32.and_zero, UInt32.zero_or, UInt32.and_comm _ (status &&& _), UInt32.and_assoc, hstatus]
  have hdifference : (differenceStatus (σ.reg r) v ||| Cpu.resultStatus (σ.reg r - v)) &&& 0x41 =
      (if σ.reg r < v then 0x1 else 0) ||| if σ.reg r - v = 0 then 0x40 else 0 := by
    unfold differenceStatus Cpu.resultStatus
    split_ifs <;> decide
  unfold above cmpImm
  rw [hbits, hdifference]
  by_cases hlt : σ.reg r < v
  · have hnot : ¬v < σ.reg r := by
      rw [UInt32.lt_iff_toNat_lt] at hlt ⊢
      omega
    rw [if_pos hlt, decide_eq_false hnot]
    split_ifs <;> decide
  · rw [if_neg hlt, UInt32.zero_or]
    by_cases heq : σ.reg r - v = 0
    · have hsame : σ.reg r = v := by
        rw [← UInt32.sub_add_cancel (σ.reg r) v, heq, UInt32.zero_add]
      have hnot : ¬v < σ.reg r := by
        rw [hsame]
        exact UInt32.lt_irrefl v
      rw [if_pos heq, decide_eq_false hnot]
      decide
    · have hne : σ.reg r ≠ v := by
        rintro rfl
        exact heq (UInt32.sub_self _)
      have habove : v < σ.reg r := by
        rw [UInt32.lt_iff_toNat_lt] at hlt ⊢
        have hne' : (σ.reg r).toNat ≠ v.toNat := fun h => hne (UInt32.toNat_inj.mp h)
        omega
      rw [if_neg heq, decide_eq_true habove]
      decide

theorem syscallFaults_eq : syscallFaults c = decide (12 < c.cpu.reg .eax) :=
  above_cmpImm c.cpu .eax 12

theorem syscallFault_eq (h : Returning c u)
    (hwords : Words c.cpu.mem (c.cpu.reg .esp).toNat (userFrame u))
    (hbound : (c.cpu.reg .esp).toNat + 20 < 2 ^ 32) (hreg : ∀ r, r ≠ .esp → c.cpu.reg r = u.reg r) :
    syscallFault i c = restore (withResult u (-1)) c := by
  have hiretd := iretd_user (i := i) (c := { c with cpu := (cmpImm c.cpu .eax 12).set .eax (-1) })
    (u := withResult u (-1)) ⟨h.cpl, h.user, h.data⟩ hwords hbound ?_
  · exact hiretd.trans (restore_congr rfl rfl)
  · intro r hr
    by_cases heax : r = .eax
    · simp [cmpImm, Cpu.set, withResult, heax]
    · simp [cmpImm, Cpu.set, withResult, heax, hreg r hr]

/-- How a program begins. -/
def started (r : Reg → UInt32) (eip esp : UInt32) : User where
  reg := fun q => match q with
    | .esp => esp | .eax => esp | .ebx => eip | .ecx => SEG_DATA32_3 + 3
    | .edx => r .edx | .ebp => r .ebp | .esi => r .esi | .edi => r .edi
  eflags := .ofImage 0x0202
  eip := eip
  seg := userSeg

theorem enterRing3_eq {back eip esp : UInt32} (hcpl : c.cpl = 0)
    (hroom : 20 ≤ (c.cpu.reg .esp).toNat)
    (hbound : (c.cpu.reg .esp).toNat + 12 < 2 ^ 32)
    (hwords : Words c.cpu.mem (c.cpu.reg .esp).toNat [back, eip, esp]) :
    ∃ m, enterRing3 i c = restore (started c.cpu.reg eip esp)
      { c with cpu := { c.cpu with mem := m } } ∧
      ∀ n, n < (c.cpu.reg .esp).toNat - 20 ∨ (c.cpu.reg .esp).toNat ≤ n → m n = c.cpu.mem n := by
  have heip : load c.cpu.mem (c.cpu.reg .esp + UInt32.ofNat 4) = eip :=
    hwords.load_at (i := 1) rfl (toNat_add_offset (by omega))
  have hesp : load c.cpu.mem (c.cpu.reg .esp + UInt32.ofNat 8) = esp :=
    hwords.load_at (i := 2) rfl (toNat_add_offset (by omega))
  generalize hσ : ((c.cpu.set .ecx (SEG_DATA32_3 + 3)).set .eax esp).set .ebx eip = σ
  have hsame : σ.reg .esp = c.cpu.reg .esp := by
    rw [← hσ]
    simp [Cpu.set]
  have hmem : σ.mem = c.cpu.mem := by
    rw [← hσ]
    rfl
  generalize hτ : σ.pushes [SEG_DATA32_3 + 3, esp, 0x0202, SEG_CODE32_3 + 3, eip] = τ
  have hpushed : Pushed σ τ 20 (userFrame (started c.cpu.reg eip esp)) := by
    have hnone : Words σ.mem (σ.reg .esp).toNat [] := trivial
    have hall : Pushed σ (σ.pushes [SEG_DATA32_3 + 3, esp, 0x0202, SEG_CODE32_3 + 3, eip]) 20
        ([SEG_DATA32_3 + 3, esp, 0x0202, SEG_CODE32_3 + 3, eip].reverse ++ []) :=
      (Pushed.start hnone).pushes (by rw [hsame]; exact hroom)
    have hcs : (userSeg .cs).toUInt32 = SEG_CODE32_3 + 3 := by decide
    have hss : (userSeg .ss).toUInt32 = SEG_DATA32_3 + 3 := by decide
    have hflags : (Eflags.ofImage 0x0202).image = 0x0202 := by decide
    simp only [userFrame, started, hcs, hss, hflags]
    rw [← hτ]
    exact hall
  have htop := hpushed.esp
  rw [hsame] at htop
  have hreg : ∀ r, r ≠ .esp → τ.reg r = (started c.cpu.reg eip esp).reg r := by
    intro r hr
    rw [← hτ, Cpu.pushes_reg hr, ← hσ]
    cases r with
    | esp => exact absurd rfl hr
    | eax | ebx | ecx | edx | ebp | esi | edi => simp [Cpu.set, started]
  have henter : enterRing3 i c =
      { c with cpu := τ, seg := dataSegments (SEG_DATA32_3 + 3).toUInt16 c.seg }.iretd
          (gdt i.tss) := by
    rw [← hτ, ← hσ]
    simp only [enterRing3, Cpu.movLoad, Cpu.set, reduceCtorEq, if_true, if_false, heip, hesp]
    rfl
  have hret : Returning { c with cpu := τ, seg := dataSegments (SEG_DATA32_3 + 3).toUInt16 c.seg }
      (started c.cpu.reg eip esp) := by
    refine ⟨hcpl, rfl, fun r hcs hss => ?_⟩
    exact if_neg (by simp [hcs, hss])
  have hiretd := iretd_user (i := i) hret hpushed.words (by simp only; omega) hreg
  refine ⟨τ.mem, ?_, fun n hn => ?_⟩
  · rw [henter, hiretd]
    have hcr3 : τ.cr3 = c.cpu.cr3 := by
      rw [← hτ, Cpu.pushes_cr3, ← hσ]
      rfl
    simp only [restore, hcr3]
  · rw [← hmem]
    exact hpushed.out n (by rw [hsame]; exact hn)

end Leave

end Trap

end OsdevCourse.Traps
