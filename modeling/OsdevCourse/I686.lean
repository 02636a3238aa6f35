import OsdevCourse.ByteMemory

/-!
# The part of an i686 that a context switch needs

Registers are 32-bit words, and an address of a word is the number it stands for. An
instruction is a function on the state of the processor, in which `eip` is set only by a
transfer of control. The flags are those of a kernel that never sets VM, RF, VIF or VIP,
so every image of them differs only in the flags that `popf` loads at privilege level 0.
-/

namespace OsdevCourse.I686

set_option autoImplicit false

/-! Words in memory. -/

def load (m : Memory) (a : UInt32) : UInt32 := UInt32.ofNat (m.read32 a.toNat)
def store (m : Memory) (a v : UInt32) : Memory := m.write32 a.toNat v.toNat

section Words
variable {m m' : Memory} {a b v : UInt32}

theorem load_store_self : load (store m a v) a = v := by
  unfold load store
  rw [Memory.read32_write32 v.toNat_lt, UInt32.ofNat_toNat]

theorem store_out {n : Nat} (h : n < a.toNat ∨ a.toNat + 4 ≤ n) : store m a v n = m n :=
  Memory.write32_out h

theorem load_congr (h : ∀ n, a.toNat ≤ n → n < a.toNat + 4 → m' n = m n) :
    load m' a = load m a := by
  unfold load
  rw [Memory.read32_congr h]

theorem load_store_of_disjoint (h : b.toNat + 4 ≤ a.toNat ∨ a.toNat + 4 ≤ b.toNat) :
    load (store m a v) b = load m b := by
  apply load_congr
  intro n hlo hhi
  apply store_out
  omega

theorem toNat_add_offset {k : Nat} (hk : a.toNat + k < 2 ^ 32) :
    (a + UInt32.ofNat k).toNat = a.toNat + k := by
  have hlt : k < 2 ^ 32 := by omega
  rw [UInt32.toNat_add, UInt32.toNat_ofNat', Nat.mod_eq_of_lt hlt, Nat.mod_eq_of_lt hk]

theorem toNat_sub_offset {k : Nat} (hk : k ≤ a.toNat) :
    (a - UInt32.ofNat k).toNat = a.toNat - k := by
  have hlt : k < 2 ^ 32 := Nat.lt_of_le_of_lt hk a.toNat_lt
  have hoff : (UInt32.ofNat k).toNat = k := by
    rw [UInt32.toNat_ofNat', Nat.mod_eq_of_lt hlt]
  have hle : UInt32.ofNat k ≤ a := by
    rw [UInt32.le_iff_toNat_le, hoff]
    exact hk
  rw [UInt32.toNat_sub_of_le _ _ hle, hoff]

end Words

/-! The flags. -/

/-- CF, PF, AF, ZF, SF, TF, IF, DF, OF, IOPL, NT, AC and ID. -/
def loadable : UInt32 := 0x00247FD5

theorem and_or_distrib (a b c : UInt32) : a &&& (b ||| c) = a &&& b ||| a &&& c := by
  apply UInt32.toBitVec_inj.mp
  simp only [UInt32.toBitVec_and, UInt32.toBitVec_or, BitVec.and_or_distrib_left]

structure Eflags where
  image : UInt32
  fixed : image &&& ~~~loadable = 2

namespace Eflags

theorem ofImage_fixed (v : UInt32) : (v &&& loadable ||| 2) &&& ~~~loadable = 2 := by
  rw [UInt32.and_comm, and_or_distrib, UInt32.and_comm (~~~loadable), UInt32.and_assoc,
    UInt32.and_not_self, UInt32.and_zero, UInt32.zero_or]
  decide

/-- What `popf` makes of the word that it pops. -/
def ofImage (v : UInt32) : Eflags := ⟨v &&& loadable ||| 2, ofImage_fixed v⟩

theorem image_eq (f : Eflags) : f.image &&& loadable ||| 2 = f.image := by
  have hsplit : f.image &&& (loadable ||| ~~~loadable) = f.image &&& loadable ||| 2 := by
    rw [and_or_distrib, f.fixed]
  have hall : loadable ||| ~~~loadable = -1 := UInt32.or_not_self
  rw [← hsplit, hall]
  simp

theorem ofImage_image (f : Eflags) : ofImage f.image = f := by
  obtain ⟨image, hfixed⟩ := f
  simp only [ofImage, Eflags.mk.injEq]
  exact image_eq ⟨image, hfixed⟩

/-- The word that `pushf` pushes: it clears RF and VM, which are clear. -/
def pushed (f : Eflags) : UInt32 := f.image &&& 0x00FCFFFF

theorem pushed_eq (f : Eflags) : f.pushed = f.image := by
  have hmask : loadable &&& 0x00FCFFFF = loadable := by decide
  have htwo : (2 : UInt32) &&& 0x00FCFFFF = 2 := by decide
  unfold pushed
  rw [← f.image_eq, UInt32.and_comm, and_or_distrib, UInt32.and_comm 0x00FCFFFF 2, htwo,
    UInt32.and_comm 0x00FCFFFF, UInt32.and_assoc, hmask]

/-- IF: the processor takes maskable interrupts. -/
def interrupts (f : Eflags) : Bool := f.image &&& 0x200 ≠ 0

def clearInterrupts (f : Eflags) : Eflags := ofImage (f.image &&& ~~~0x200)

/-- CF, PF, AF, ZF, SF and OF as an instruction sets them. -/
def setStatus (f : Eflags) (status : UInt32) : Eflags :=
  ofImage (f.image &&& ~~~0x8D5 ||| status &&& 0x8D5)

end Eflags

/-! Registers and instructions. -/

inductive Reg where
  | eax | ebx | ecx | edx | ebp | esp | esi | edi
  deriving DecidableEq, Repr

structure Cpu where
  reg : Reg → UInt32
  eflags : Eflags
  eip : UInt32
  cr3 : UInt32
  mem : Memory

namespace Cpu

def set (σ : Cpu) (r : Reg) (v : UInt32) : Cpu :=
  { σ with reg := fun q => if q = r then v else σ.reg q }

/-- `mov r, [a]` -/
def movLoad (σ : Cpu) (r : Reg) (a : UInt32) : Cpu := σ.set r (load σ.mem a)

/-- `mov [a], v` -/
def movStore (σ : Cpu) (a v : UInt32) : Cpu := { σ with mem := store σ.mem a v }

def push (σ : Cpu) (v : UInt32) : Cpu :=
  (σ.set .esp (σ.reg .esp - UInt32.ofNat 4)).movStore (σ.reg .esp - UInt32.ofNat 4) v

def pop (σ : Cpu) (r : Reg) : Cpu :=
  (σ.set .esp (σ.reg .esp + UInt32.ofNat 4)).set r (load σ.mem (σ.reg .esp))

def pushf (σ : Cpu) : Cpu := σ.push σ.eflags.pushed

def popf (σ : Cpu) : Cpu :=
  { σ.set .esp (σ.reg .esp + UInt32.ofNat 4) with eflags := .ofImage (load σ.mem (σ.reg .esp)) }

def cli (σ : Cpu) : Cpu := { σ with eflags := σ.eflags.clearInterrupts }

def call (σ : Cpu) (target back : UInt32) : Cpu := { σ.push back with eip := target }

def ret (σ : Cpu) : Cpu :=
  { σ.set .esp (σ.reg .esp + UInt32.ofNat 4) with eip := load σ.mem (σ.reg .esp) }

def movCr3 (σ : Cpu) (v : UInt32) : Cpu := { σ with cr3 := v }

/-- PF, ZF and SF of a result. -/
def resultStatus (v : UInt32) : UInt32 :=
  (if (List.range 8).countP (fun i => v.toNat.testBit i) % 2 = 0 then 0x4 else 0) |||
  (if v = 0 then 0x40 else 0) ||| if v.toNat.testBit 31 then 0x80 else 0

/-- `or r, r`: CF and OF are cleared, and so is AF, which the manual leaves undefined. -/
def orSelf (σ : Cpu) (r : Reg) : Cpu :=
  { σ with eflags := σ.eflags.setStatus (resultStatus (σ.reg r)) }

/-- ZF, as `jz` tests it. -/
def zero (σ : Cpu) : Bool := σ.eflags.image &&& 0x40 ≠ 0

/-- `add r, 0`: nothing is carried. -/
def addZero (σ : Cpu) (r : Reg) : Cpu :=
  { σ.set r (σ.reg r + 0) with eflags := σ.eflags.setStatus (resultStatus (σ.reg r + 0)) }

theorem setStatus_zero (f : Eflags) (status : UInt32) :
    (f.setStatus status).image &&& 0x40 = status &&& 0x40 := by
  have hstatus : (0x8D5 : UInt32) &&& (loadable &&& 0x40) = 0x40 := by decide
  have hkept : ~~~(0x8D5 : UInt32) &&& (loadable &&& 0x40) = 0 := by decide
  have hfixed : (0x40 : UInt32) &&& 2 = 0 := by decide
  simp only [Eflags.setStatus, Eflags.ofImage]
  rw [UInt32.and_comm, and_or_distrib, hfixed, UInt32.or_zero, UInt32.and_comm, UInt32.and_assoc,
    UInt32.and_comm, and_or_distrib, UInt32.and_comm _ (f.image &&& _), UInt32.and_assoc, hkept,
    UInt32.and_zero, UInt32.zero_or, UInt32.and_comm _ (status &&& _), UInt32.and_assoc, hstatus]

theorem zero_orSelf (σ : Cpu) (r : Reg) : (σ.orSelf r).zero = decide (σ.reg r = 0) := by
  have hstatus : resultStatus (σ.reg r) &&& 0x40 = if σ.reg r = 0 then 0x40 else 0 := by
    unfold resultStatus
    split_ifs <;> decide
  simp only [zero, orSelf, setStatus_zero, hstatus]
  by_cases hr : σ.reg r = 0
  · simp [hr]
  · simp [hr]

end Cpu

end OsdevCourse.I686
