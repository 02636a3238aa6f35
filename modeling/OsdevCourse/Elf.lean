import OsdevCourse.ByteMemory

/-!
# ELF files in memory

An address is taken modulo `2 ^ 32` at every byte that is read or stored, so that all
addresses a file can name have a meaning. The structures hold the fields of the ELF
structures that the loader reads.
-/

namespace OsdevCourse.Elf

set_option autoImplicit false

def load8 (m : Memory) (a : Nat) : UInt8 := m (a % 2 ^ 32)

def load16 (m : Memory) (a : Nat) : Nat := (load8 m a).toNat + 256 * (load8 m (a + 1)).toNat

def load32 (m : Memory) (a : Nat) : Nat := load16 m a + 65536 * load16 m (a + 2)

def storeBytes (m : Memory) : Nat → List UInt8 → Memory
  | _, [] => m
  | a, b :: bs => storeBytes (Function.update m (a % 2 ^ 32) b) (a + 1) bs

def store32 (m : Memory) (a v : Nat) : Memory := storeBytes m a (Memory.wordBytes v)

/-- The bytes are copied one after the other, so that a copy can run over its source. -/
def kmemcpy (m : Memory) (des src : Nat) : Nat → Memory
  | 0 => m
  | len + 1 =>
    let m := kmemcpy m des src len
    Function.update m ((des + len) % 2 ^ 32) (load8 m (src + len))

def kmemset (m : Memory) (des : Nat) (value : UInt8) : Nat → Memory
  | 0 => m
  | len + 1 => Function.update (kmemset m des value len) ((des + len) % 2 ^ 32) value

/-- `struct ELF32_EHDR` -/
structure Ehdr where
  ident : Nat
  type : Nat
  machine : Nat
  entry : Nat
  phoff : Nat
  shoff : Nat
  phentsize : Nat
  phnum : Nat
  shentsize : Nat
  shnum : Nat
  deriving DecidableEq

def Ehdr.read (m : Memory) (a : Nat) : Ehdr where
  ident := load32 m a
  type := load16 m (a + 16)
  machine := load16 m (a + 18)
  entry := load32 m (a + 24)
  phoff := load32 m (a + 28)
  shoff := load32 m (a + 32)
  phentsize := load16 m (a + 42)
  phnum := load16 m (a + 44)
  shentsize := load16 m (a + 46)
  shnum := load16 m (a + 48)

def Ehdr.size : Nat := 52

/-- `struct ELF32_PHDR` -/
structure Phdr where
  type : Nat
  offset : Nat
  vaddr : Nat
  filesz : Nat
  memsz : Nat
  deriving DecidableEq

def Phdr.read (m : Memory) (a : Nat) : Phdr where
  type := load32 m a
  offset := load32 m (a + 4)
  vaddr := load32 m (a + 8)
  filesz := load32 m (a + 16)
  memsz := load32 m (a + 20)

def Phdr.size : Nat := 32

/-- `struct ELF32_SHDR` -/
structure Shdr where
  type : Nat
  offset : Nat
  size : Nat
  deriving DecidableEq

def Shdr.read (m : Memory) (a : Nat) : Shdr where
  type := load32 m (a + 4)
  offset := load32 m (a + 16)
  size := load32 m (a + 20)

def Shdr.bytes : Nat := 40

/-- `struct ELF32_SYM` -/
structure Sym where
  name : Nat
  value : Nat
  deriving DecidableEq

def Sym.read (m : Memory) (a : Nat) : Sym where
  name := load32 m a
  value := load32 m (a + 4)

def Sym.size : Nat := 16

/-- `struct ELF32_REL` -/
structure Rel where
  offset : Nat
  info : Nat
  deriving DecidableEq

def Rel.read (m : Memory) (a : Nat) : Rel where
  offset := load32 m a
  info := load32 m (a + 4)

def Rel.size : Nat := 8

def ELFMAG : Nat := 0x464C457F
def EM_386 : Nat := 3
def ET_EXEC : Nat := 2
def PT_LOAD : Nat := 1
def SHT_REL : Nat := 9
def SHT_SYNSYM : Nat := 11
def R_386_32 : Nat := 1
def R_386_PC32 : Nat := 2
def R_386_RELATIVE : Nat := 8

/-- `ELF32_R_SYM` -/
def Rel.sym (r : Rel) : Nat := r.info / 256

/-- `ELF32_R_TYPE` -/
def Rel.type (r : Rel) : Nat := r.info % 256

/-! ### What a store leaves alone -/

variable {m m' : Memory} {a des src len v n : Nat} {bs : List UInt8} {value : UInt8}
  {p : Nat → Prop}

/-- The two memories hold the same bytes at the addresses that `p` picks out. -/
def SameOn (p : Nat → Prop) (m m' : Memory) : Prop := ∀ x, p x → m' x = m x

/-- All of the `n` bytes from `a` on are at addresses that `p` picks out. -/
def Within (p : Nat → Prop) (a n : Nat) : Prop := ∀ i, i < n → p ((a + i) % 2 ^ 32)

theorem SameOn.refl (p : Nat → Prop) (m : Memory) : SameOn p m m := fun _ _ => rfl

theorem SameOn.trans {m'' : Memory} (h : SameOn p m m') (h' : SameOn p m' m'') : SameOn p m m'' :=
  fun x hx => (h' x hx).trans (h x hx)

theorem SameOn.update {x : Nat} (hx : ¬ p x) (b : UInt8) (h : SameOn p m m') :
    SameOn p m (Function.update m' x b) := by
  intro y hy
  have hne : y ≠ x := fun heq => hx (heq ▸ hy)
  rw [Function.update_of_ne hne]
  exact h y hy

theorem Within.shift {k : Nat} (h : Within p a n) (hk : k + len ≤ n) : Within p (a + k) len := by
  intro i hi
  have hin := h (k + i) (by omega)
  rwa [← Nat.add_assoc] at hin

theorem Within.take (h : Within p a n) (hle : len ≤ n) : Within p a len :=
  fun i hi => h i (by omega)

theorem Within.head (h : Within p a n) (hpos : 0 < n) : p (a % 2 ^ 32) := h 0 hpos

theorem kmemcpy_sameOn (h : Within (fun x => ¬ p x) des len) :
    SameOn p m (kmemcpy m des src len) := by
  induction len with
  | zero => exact .refl p m
  | succ len ih =>
    have hrest := ih fun i hi => h i (by omega)
    exact hrest.update (h len (Nat.lt_succ_self len)) _

theorem kmemset_sameOn (h : Within (fun x => ¬ p x) des len) :
    SameOn p m (kmemset m des value len) := by
  induction len with
  | zero => exact .refl p m
  | succ len ih =>
    have hrest := ih fun i hi => h i (by omega)
    exact hrest.update (h len (Nat.lt_succ_self len)) _

theorem storeBytes_sameOn (h : Within (fun x => ¬ p x) a bs.length) :
    SameOn p m (storeBytes m a bs) := by
  induction bs generalizing m a with
  | nil => exact .refl p m
  | cons b bs ih =>
    have hhead : SameOn p m (Function.update m (a % 2 ^ 32) b) :=
      (SameOn.refl p m).update (h 0 (Nat.succ_pos _)) b
    exact hhead.trans (ih (h.shift (by rw [List.length_cons]; omega)))

theorem store32_sameOn (h : Within (fun x => ¬ p x) a 4) : SameOn p m (store32 m a v) :=
  storeBytes_sameOn h

/-- A byte of a block that has been stored. -/
theorem load8_storeBytes {k : Nat} (hlen : bs.length ≤ 2 ^ 32) (hk : k < bs.length) :
    load8 (storeBytes m a bs) (a + k) = bs.getD k 0 := by
  induction bs generalizing m a k with
  | nil => exact absurd hk (Nat.not_lt_zero k)
  | cons c bs ih =>
    rw [List.length_cons] at hlen hk
    cases k with
    | zero =>
      have hlater : SameOn (fun x => x = a % 2 ^ 32) (Function.update m (a % 2 ^ 32) c)
          (storeBytes (Function.update m (a % 2 ^ 32) c) (a + 1) bs) := by
        apply storeBytes_sameOn
        intro i hi heq
        omega
      exact (hlater _ rfl).trans (Function.update_self _ _ _)
    | succ k =>
      have hrest := ih (m := Function.update m (a % 2 ^ 32) c) (a := a + 1) (k := k) (by omega)
        (by omega)
      rw [Nat.add_assoc, Nat.add_comm 1 k] at hrest
      exact hrest

theorem load32_store32 (hv : v < 2 ^ 32) : load32 (store32 m a v) a = v := by
  have hbyte : ∀ k, k < 4 → load8 (store32 m a v) (a + k) = (Memory.wordBytes v).getD k 0 :=
    fun k hk => load8_storeBytes (by rw [Memory.wordBytes_length]; omega) hk
  have h0 : load8 (store32 m a v) a = UInt8.ofNat v := hbyte 0 (by omega)
  have h1 : load8 (store32 m a v) (a + 1) = UInt8.ofNat (v / 256) := hbyte 1 (by omega)
  have h2 : load8 (store32 m a v) (a + 2) = UInt8.ofNat (v / 65536) := hbyte 2 (by omega)
  have h3 : load8 (store32 m a v) (a + 2 + 1) = UInt8.ofNat (v / 16777216) := hbyte 3 (by omega)
  unfold load32 load16
  rw [h0, h1, h2, h3]
  simp only [UInt8.toNat_ofNat']
  omega

theorem load8_congr (h : SameOn p m m') (ha : p (a % 2 ^ 32)) : load8 m' a = load8 m a := h _ ha

theorem load16_congr (h : SameOn p m m') (ha : Within p a 2) : load16 m' a = load16 m a := by
  unfold load16
  rw [load8_congr h (ha.head (by omega)), load8_congr h (ha 1 (by omega))]

theorem load32_congr (h : SameOn p m m') (ha : Within p a 4) : load32 m' a = load32 m a := by
  unfold load32
  rw [load16_congr h (ha.take (by omega)), load16_congr h (ha.shift (k := 2) (by omega))]

theorem load8_lt : (load8 m a).toNat < 256 := (load8 m a).toNat_lt

theorem load16_lt : load16 m a < 2 ^ 16 := by
  have h0 := load8_lt (m := m) (a := a)
  have h1 := load8_lt (m := m) (a := a + 1)
  unfold load16
  omega

theorem load32_lt : load32 m a < 2 ^ 32 := by
  have h0 := load16_lt (m := m) (a := a)
  have h1 := load16_lt (m := m) (a := a + 2)
  unfold load32
  omega

theorem Ehdr.read_congr (h : SameOn p m m') (ha : Within p a Ehdr.size) :
    Ehdr.read m' a = Ehdr.read m a := by
  unfold Ehdr.size at ha
  unfold Ehdr.read
  rw [load32_congr h (ha.take (by omega)), load16_congr h (ha.shift (k := 16) (by omega)),
    load16_congr h (ha.shift (k := 18) (by omega)), load32_congr h (ha.shift (k := 24) (by omega)),
    load32_congr h (ha.shift (k := 28) (by omega)), load32_congr h (ha.shift (k := 32) (by omega)),
    load16_congr h (ha.shift (k := 42) (by omega)), load16_congr h (ha.shift (k := 44) (by omega)),
    load16_congr h (ha.shift (k := 46) (by omega)), load16_congr h (ha.shift (k := 48) (by omega))]

theorem Phdr.read_congr (h : SameOn p m m') (ha : Within p a Phdr.size) :
    Phdr.read m' a = Phdr.read m a := by
  unfold Phdr.size at ha
  unfold Phdr.read
  rw [load32_congr h (ha.take (by omega)), load32_congr h (ha.shift (k := 4) (by omega)),
    load32_congr h (ha.shift (k := 8) (by omega)), load32_congr h (ha.shift (k := 16) (by omega)),
    load32_congr h (ha.shift (k := 20) (by omega))]

theorem Shdr.read_congr (h : SameOn p m m') (ha : Within p a Shdr.bytes) :
    Shdr.read m' a = Shdr.read m a := by
  unfold Shdr.bytes at ha
  unfold Shdr.read
  rw [load32_congr h (ha.shift (k := 4) (by omega)), load32_congr h (ha.shift (k := 16) (by omega)),
    load32_congr h (ha.shift (k := 20) (by omega))]

theorem Rel.read_congr (h : SameOn p m m') (ha : Within p a Rel.size) :
    Rel.read m' a = Rel.read m a := by
  unfold Rel.size at ha
  unfold Rel.read
  rw [load32_congr h (ha.take (by omega)), load32_congr h (ha.shift (k := 4) (by omega))]

end OsdevCourse.Elf
