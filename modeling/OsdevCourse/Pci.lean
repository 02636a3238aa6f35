import Mathlib.Data.Nat.Bitwise
import OsdevCourse.PortPrograms
import OsdevCourse.BgaDisplay

/-!
# The configuration space of PCI and what the kernel finds there

`pci.c` reaches the registers of a function through an address port and a data port. `probe_pci`
goes over all the functions of all the buses, and for a display controller it calls the driver of
the display, which is there only once a controller it knows has been found.
-/

namespace OsdevCourse.Pci

set_option autoImplicit false

open Port

/-! The hardware. -/

/-- A function: its registers, the bits of them that can be written, and the bits that a written one
clears. -/
structure Fn where
  reg : Nat → UInt32
  writable : Nat → UInt32
  cleared : Nat → UInt32

def Fn.write (f : Fn) (r : Nat) (v : UInt32) : Fn :=
  { f with reg := fun i =>
      if i = r then
        ((f.reg r &&& ~~~(f.writable r)) ||| (v &&& f.writable r)) &&& ~~~(v &&& f.cleared r)
      else f.reg i }

structure Addr where
  busId : Nat
  slotId : Nat
  funcId : Nat
  deriving DecidableEq

abbrev Config := Addr → Option Fn

structure Machine where
  address : UInt32
  config : Config

def PCI_CONFIG_ADDRESS : UInt16 := 0xCF8
def PCI_CONFIG_DATA : UInt16 := 0xCFC

/-- The function and the register that an address selects. -/
def selected (a : UInt32) : Addr × Nat :=
  (⟨a.toNat / 2 ^ 16 % 256, a.toNat / 2 ^ 11 % 32, a.toNat / 2 ^ 8 % 8⟩, a.toNat / 4 % 64)

/-- The register of a function, or what is read where there is none. -/
def dataOf (c : Config) (a : Addr) (r : Nat) : UInt32 :=
  ((c a).map fun f => f.reg r).getD 0xFFFFFFFF

def Machine.data (s : Machine) : UInt32 :=
  if s.address.toNat < 2 ^ 31 then 0xFFFFFFFF
  else dataOf s.config (selected s.address).1 (selected s.address).2

def put (c : Config) (a : Addr) (r : Nat) (v : UInt32) : Config := fun x =>
  if x = a then (c x).map fun f => f.write r v else c x

def Machine.setData (s : Machine) (v : UInt32) : Machine :=
  if s.address.toNat < 2 ^ 31 then s
  else { s with config := put s.config (selected s.address).1 (selected s.address).2 v }

/-- The bits of its registers that a function may change by itself. In the header these are bits of
the status, which is the upper half of the register 1. -/
structure OwnBits where
  mask : Nat → UInt32
  command : mask 1 &&& 0xFFFF = 0
  header : ∀ r, r < 16 → r ≠ 1 → mask r = 0

structure Same (own : OwnBits) (f g : Fn) : Prop where
  reg : ∀ r, g.reg r &&& ~~~(own.mask r) = f.reg r &&& ~~~(own.mask r)
  writable : g.writable = f.writable
  cleared : g.cleared = f.cleared

def SameConfig (own : OwnBits) (c c' : Config) : Prop := ∀ a, Option.Rel (Same own) (c a) (c' a)

def portIn (port : UInt16) (s : Machine) : UInt32 :=
  if port = PCI_CONFIG_DATA then s.data
  else if port = PCI_CONFIG_ADDRESS then s.address else 0xFFFFFFFF

def portOut (port : UInt16) (v : UInt32) (s : Machine) : Machine :=
  if port = PCI_CONFIG_DATA then s.setData v
  else if port = PCI_CONFIG_ADDRESS then { s with address := v } else s

/-- Between two accesses the functions change bits of their own. -/
def device (own : OwnBits) : Port.Device Machine UInt32 Unit where
  read port s := (portIn port s, s)
  write port v s := portOut port v s
  env s _ t := t.address = s.address ∧ SameConfig own s.config t.config

/-! The driver: `pci.c`. -/

structure Info where
  deviceId : UInt32
  vendorId : UInt32
  classCode : UInt32
  subclassCode : UInt32
  revisionId : UInt32

def pciBase (busId slotId funcId : Nat) : UInt32 :=
  if busId ≥ 256 ∨ slotId ≥ 32 ∨ funcId ≥ 8 then 0
  else
    0x80000000 ||| (UInt32.ofNat busId <<< (16 : UInt32)) |||
      (UInt32.ofNat slotId <<< (11 : UInt32)) ||| (UInt32.ofNat funcId <<< (8 : UInt32))

def pciGetInfo (addr : Addr) : Prog UInt32 (Option Info) :=
  let base := pciBase addr.busId addr.slotId addr.funcId
  if base = 0 then .pure none
  else
    .out PCI_CONFIG_ADDRESS (base + 0) <|
    .inp PCI_CONFIG_DATA fun data =>
    if data = 0xFFFFFFFF then .pure none
    else
      .out PCI_CONFIG_ADDRESS (base + 8) <|
      .inp PCI_CONFIG_DATA fun data' =>
      if data' = 0xFFFFFFFF then .pure none
      else
        .pure (some
          { deviceId := data >>> 16
            vendorId := data &&& 0xFFFF
            classCode := data' >>> 24
            subclassCode := (data' >>> 16) &&& 0xFF
            revisionId := data' &&& 0xFF })

/-- `*bar` and `*size`, which a call may leave as they are. -/
structure Bar where
  bar : UInt32
  size : UInt32

def pciGetBar (addr : Addr) (index : Nat) (out : Bar) : Prog UInt32 (Bool × Bar) :=
  if index > 4 then .pure (false, out)
  else
    let base := pciBase addr.busId addr.slotId addr.funcId
    if base = 0 then .pure (false, out)
    else
      .out PCI_CONFIG_ADDRESS (base + 16 + UInt32.ofNat index * 4) <|
      .inp PCI_CONFIG_DATA fun b =>
      if b = 0xFFFFFFFF then .pure (false, out)
      else
        let out := { out with bar := b }
        .out PCI_CONFIG_ADDRESS (base + 16 + UInt32.ofNat index * 4) <|
        .out PCI_CONFIG_DATA 0xFFFFFFFF <|
        .inp PCI_CONFIG_DATA fun s =>
        if s = 0xFFFFFFFF then .pure (false, out)
        else
          .out PCI_CONFIG_ADDRESS (base + 16 + UInt32.ofNat index * 4) <|
          .out PCI_CONFIG_DATA b <|
          .pure (true, { out with size := ~~~s + 1 })

/-! The HAL: `hal_pci.cpp` and `hal_display.cpp`. -/

inductive DisplayDriver
  | bga
  deriving DecidableEq

/-- A `struct DISPLAY_DEVICE`: the controller, and what a mode change reads and writes. -/
structure Display where
  pciAddr : Addr
  pciInfo : Info
  device : Bga.Device

/-- `_drivers.display`, whose pointers are null at first, and `_devices.display`. -/
structure Hal where
  driver : Option DisplayDriver
  display : Option Display

def Hal.zero : Hal := ⟨none, none⟩

def bgaOpen (h : Hal) (addr : Addr) (info : Info) : Bool × Hal :=
  if info.classCode ≠ 3 ∨ info.subclassCode ≠ 0 then (false, h)
  else if info.deviceId ≠ 0x1111 ∨ info.vendorId ≠ 0x1234 then (false, h)
  else (true, { h with display := some ⟨addr, info, Bga.bgaOpen⟩ })

/-- `none` is a call through a null pointer. -/
def probeDisplayFound (h : Hal) (addr : Addr) (info : Info) : Option (Bool × Hal) :=
  let h :=
    if info.deviceId = 0x1111 ∧ info.vendorId = 0x1234 then { h with driver := some .bga } else h
  h.driver.map fun
    | .bga => bgaOpen h addr info

def probePciFound (h : Hal) (addr : Addr) (info : Info) : Option Hal :=
  if info.classCode = 3 then
    if info.subclassCode = 0 then (probeDisplayFound h addr info).map fun r => r.2 else some h
  else some h

def probePci (h : Hal) : Prog UInt32 (Option Hal) :=
  .upto 256 (fun busId h =>
    .upto 32 (fun slotId h =>
      .upto 8 (fun funcId h =>
        (pciGetInfo ⟨busId, slotId, funcId⟩).bind fun
          | none => .pure (some h)
          | some info => .pure (probePciFound h ⟨busId, slotId, funcId⟩ info)) h) h) h

def Hal.displaySetmode (h : Hal) : Option DisplayDriver := h.driver

/-! Addresses. -/

def Valid (a : Addr) : Prop := a.busId < 256 ∧ a.slotId < 32 ∧ a.funcId < 8

section Select
variable {a : Addr} {k : Nat}

theorem pciBase_toNat (h : Valid a) :
    (pciBase a.busId a.slotId a.funcId).toNat =
      2 ^ 31 + 2 ^ 16 * a.busId + 2 ^ 11 * a.slotId + 2 ^ 8 * a.funcId := by
  obtain ⟨hbus, hslot, hfunc⟩ := h
  have hshift : ∀ n k : Nat, n * 2 ^ k < 2 ^ 32 → k < 32 →
      (UInt32.ofNat n <<< UInt32.ofNat k).toNat = 2 ^ k * n := by
    intro n k hn hk
    rw [← UInt32.ofNat_shiftLeft n k hk, UInt32.toNat_ofNat', Nat.shiftLeft_eq,
      Nat.mod_eq_of_lt hn, Nat.mul_comm]
  have hor : ∀ i q b : Nat, b < 2 ^ i → 2 ^ i * q ||| b = 2 ^ i * q + b := fun i q b hb =>
    (Nat.two_pow_add_eq_or_of_lt hb q).symm
  unfold pciBase
  rw [if_neg (by omega), UInt32.toNat_or, UInt32.toNat_or, UInt32.toNat_or]
  have hbusNat := hshift a.busId 16 (by omega) (by omega)
  have hslotNat := hshift a.slotId 11 (by omega) (by omega)
  have hfuncNat := hshift a.funcId 8 (by omega) (by omega)
  have htop : (0x80000000 : UInt32).toNat = 2 ^ 31 * 1 := rfl
  rw [show (16 : UInt32) = UInt32.ofNat 16 from rfl, show (11 : UInt32) = UInt32.ofNat 11 from rfl,
    show (8 : UInt32) = UInt32.ofNat 8 from rfl, hbusNat, hslotNat, hfuncNat, htop,
    hor 31 1 _ (by omega),
    show 2 ^ 31 * 1 + 2 ^ 16 * a.busId = 2 ^ 16 * (2 ^ 15 + a.busId) by omega,
    hor 16 _ _ (by omega),
    show 2 ^ 16 * (2 ^ 15 + a.busId) + 2 ^ 11 * a.slotId =
      2 ^ 11 * (2 ^ 5 * (2 ^ 15 + a.busId) + a.slotId) by omega,
    hor 11 _ _ (by omega)]
  omega

theorem selected_base (h : Valid a) (hk : k < 256) :
    selected (pciBase a.busId a.slotId a.funcId + UInt32.ofNat k) = (a, k / 4) ∧
      2 ^ 31 ≤ (pciBase a.busId a.slotId a.funcId + UInt32.ofNat k).toNat := by
  have hbase := pciBase_toNat h
  obtain ⟨hbus, hslot, hfunc⟩ := h
  have hsum : (pciBase a.busId a.slotId a.funcId + UInt32.ofNat k).toNat =
      2 ^ 31 + 2 ^ 16 * a.busId + 2 ^ 11 * a.slotId + 2 ^ 8 * a.funcId + k := by
    rw [UInt32.toNat_add, hbase, UInt32.toNat_ofNat', Nat.mod_eq_of_lt (by omega : k < 2 ^ 32),
      Nat.mod_eq_of_lt (by omega)]
  refine ⟨?_, by omega⟩
  unfold selected
  rw [hsum]
  cases a with
  | mk busId slotId funcId =>
    dsimp only at hbus hslot hfunc ⊢
    simp only [Prod.mk.injEq, Addr.mk.injEq]
    omega

end Select

/-! Reads of the configuration space. -/

section Same
variable {own : OwnBits} {f g h : Fn} {c c' c'' : Config} {r : Nat}

theorem Same.refl (f : Fn) : Same own f f := ⟨fun _ => rfl, rfl, rfl⟩

theorem Same.trans (hfg : Same own f g) (hgh : Same own g h) : Same own f h :=
  ⟨fun r => (hgh.reg r).trans (hfg.reg r), hgh.writable.trans hfg.writable,
    hgh.cleared.trans hfg.cleared⟩

theorem Same.reg_eq (hfg : Same own f g) (hr : own.mask r = 0) : g.reg r = f.reg r := by
  have hreg := hfg.reg r
  rw [hr, UInt32.not_zero, UInt32.and_neg_one, UInt32.and_neg_one] at hreg
  exact hreg

theorem SameConfig.refl (c : Config) : SameConfig own c c := by
  intro a
  cases c a with
  | none => exact .none
  | some f => exact .some (Same.refl f)

theorem SameConfig.trans (hc : SameConfig own c c') (hc' : SameConfig own c' c'') :
    SameConfig own c c'' := by
  intro a
  have ha := hc a
  have ha' := hc' a
  revert ha ha'
  generalize c a = x
  generalize c' a = y
  generalize c'' a = z
  intro ha ha'
  cases ha with
  | none => exact ha'
  | some hfg =>
    cases ha' with
    | some hgh => exact .some (hfg.trans hgh)

theorem SameConfig.data (hc : SameConfig own c c') (a : Addr) (hr : own.mask r = 0) :
    dataOf c' a r = dataOf c a r := by
  have ha := hc a
  unfold dataOf
  revert ha
  generalize c a = x
  generalize c' a = y
  intro ha
  cases ha with
  | none => rfl
  | some hfg => exact hfg.reg_eq hr

end Same

/-- The configuration is `c`, but for the bits that the functions change by themselves. -/
def Keeps (own : OwnBits) (c : Config) (s : Machine) : Prop := SameConfig own c s.config

def Selects (own : OwnBits) (c : Config) (x : UInt32) (s : Machine) : Prop :=
  Keeps own c s ∧ s.address = x

section Reads
variable {own : OwnBits} {c : Config} {I : Machine → Prop} {a : Addr} {k : Nat} {α : Type}
  {Q : α → Machine → Prop}

theorem stable_keeps (hI : ∀ s, Keeps own c s → I s) : Stable (device own) I (Keeps own c) :=
  ⟨hI, fun _ _ _ hs henv => hs.trans henv.2⟩

theorem stable_selects {x : UInt32} (hI : ∀ s, Keeps own c s → I s) :
    Stable (device own) I (Selects own c x) :=
  ⟨fun s hs => hI s hs.1, fun _ _ _ hs henv => ⟨hs.1.trans henv.2, henv.1.trans hs.2⟩⟩

theorem Selects.data {s : Machine} (ha : Valid a) (hk : k < 256) (hr : own.mask (k / 4) = 0)
    (hs : Selects own c (pciBase a.busId a.slotId a.funcId + UInt32.ofNat k) s) :
    s.data = dataOf c a (k / 4) := by
  obtain ⟨hselected, hhigh⟩ := selected_base ha hk
  unfold Machine.data
  rw [hs.2, if_neg (by omega), hselected]
  exact SameConfig.data hs.1 a hr

theorem triple_register {next : UInt32 → Prog UInt32 α} (hI : ∀ s, Keeps own c s → I s)
    (ha : Valid a) (hk : k < 256) (hr : own.mask (k / 4) = 0)
    (hnext : Triple (device own) I (Keeps own c) (next (dataOf c a (k / 4))) Q) :
    Triple (device own) I (Keeps own c)
      (.out PCI_CONFIG_ADDRESS (pciBase a.busId a.slotId a.funcId + UInt32.ofNat k)
        (.inp PCI_CONFIG_DATA next)) Q := by
  refine triple_out (stable_keeps hI)
    (S := Selects own c (pciBase a.busId a.slotId a.funcId + UInt32.ofNat k))
    (fun s hs => ⟨hs, rfl⟩) ?_
  refine triple_inp (stable_selects hI)
    (R := fun v s => v = dataOf c a (k / 4) ∧ Keeps own c s)
    (fun s hs => ⟨hs.data ha hk hr, hs.1⟩) fun v => ?_
  apply triple_given
  rintro rfl
  exact hnext

theorem pciBase_ne_zero (ha : Valid a) : pciBase a.busId a.slotId a.funcId ≠ 0 := by
  intro hzero
  have hbase := pciBase_toNat ha
  rw [hzero] at hbase
  have hlow : (0 : UInt32).toNat = 0 := rfl
  omega

def infoOf (c : Config) (a : Addr) : Option Info :=
  if dataOf c a 0 = 0xFFFFFFFF ∨ dataOf c a 2 = 0xFFFFFFFF then none
  else
    some
      { deviceId := dataOf c a 0 >>> 16
        vendorId := dataOf c a 0 &&& 0xFFFF
        classCode := dataOf c a 2 >>> 24
        subclassCode := (dataOf c a 2 >>> 16) &&& 0xFF
        revisionId := dataOf c a 2 &&& 0xFF }

theorem triple_getInfo (hI : ∀ s, Keeps own c s → I s) (ha : Valid a) :
    Triple (device own) I (Keeps own c) (pciGetInfo a)
      fun r s => r = infoOf c a ∧ Keeps own c s := by
  have hend : ∀ r, r = infoOf c a → Triple (device own) I (Keeps own c) (.pure r)
      fun r s => r = infoOf c a ∧ Keeps own c s :=
    fun r hr => triple_end (stable_keeps hI) fun s hs => ⟨hr, hs⟩
  unfold pciGetInfo
  rw [if_neg (pciBase_ne_zero ha)]
  refine triple_register hI ha (k := 0) (by omega) (own.header 0 (by omega) (by omega)) ?_
  by_cases hfirst : dataOf c a (0 / 4) = 0xFFFFFFFF
  · rw [if_pos hfirst]
    exact hend _ (if_pos (.inl hfirst)).symm
  · rw [if_neg hfirst]
    refine triple_register hI ha (k := 8) (by omega) (own.header 2 (by omega) (by omega)) ?_
    by_cases hsecond : dataOf c a (8 / 4) = 0xFFFFFFFF
    · rw [if_pos hsecond]
      exact hend _ (if_pos (.inr hsecond)).symm
    · rw [if_neg hsecond]
      refine hend _ (Eq.symm (if_neg ?_))
      rintro (h | h)
      · exact hfirst h
      · exact hsecond h

end Reads

/-! The probe. -/

def visit (c : Config) (h : Hal) (a : Addr) : Option Hal :=
  match infoOf c a with
  | none => some h
  | some info => probePciFound h a info

def walk (c : Config) (as : List Addr) (h : Hal) : Option Hal := as.foldlM (visit c) h

/-- All the functions, in the order of the probe. -/
def order : List Addr :=
  (List.range 256).flatMap fun b =>
    (List.range 32).flatMap fun s => (List.range 8).flatMap fun f => [⟨b, s, f⟩]

theorem walk_append (c : Config) (as bs : List Addr) (h : Hal) :
    walk c (as ++ bs) h = (walk c as h).bind (walk c bs) :=
  List.foldlM_append

theorem range_prefix {n i : Nat} (h : i ≤ n) : List.range i <+: List.range n := by
  refine ⟨(List.range n).drop i, ?_⟩
  conv => rhs; rw [← List.take_append_drop i (List.range n)]
  rw [List.take_range, Nat.min_eq_left h]

section Walk
variable {own : OwnBits} {c : Config}

theorem triple_walk {n : Nat} {body : Nat → Hal → Prog UInt32 (Option Hal)} {f : Nat → List Addr}
    (hbody : ∀ i h, i < n → Triple (device own) (Keeps own c) (Keeps own c) (body i h)
      fun r s => r = walk c (f i) h ∧ Keeps own c s) (h : Hal) :
    Triple (device own) (Keeps own c) (Keeps own c) (Prog.upto n body h) fun r s =>
      r = walk c ((List.range n).flatMap f) h ∧ Keeps own c s := by
  have hstable : Stable (device own) (Keeps own c) (Keeps own c) := stable_keeps fun _ hs => hs
  have hnext : ∀ i, walk c ((List.range (i + 1)).flatMap f) h =
      (walk c ((List.range i).flatMap f) h).bind (walk c (f i)) := by
    intro i
    rw [List.range_succ, List.flatMap_append, walk_append, List.flatMap_singleton]
  have hloop := triple_upto (d := device own) (I := Keeps own c) (p := body) (n := n)
    (J := fun i h' s => walk c ((List.range i).flatMap f) h = some h' ∧ Keeps own c s)
    (F := fun s => walk c ((List.range n).flatMap f) h = none ∧ Keeps own c s)
    (fun i b => Stable.given fun _ => hstable) (Stable.given fun _ => hstable)
    (fun i h' hi => ?_) h
  · refine hloop.conseq (fun s hs => ⟨rfl, hs⟩) fun r s hr => ?_
    cases r with
    | none => exact ⟨hr.1.symm, hr.2⟩
    | some h' => exact ⟨hr.1.symm, hr.2⟩
  · apply triple_given
    intro hwalk
    refine (hbody i h' hi).conseq (fun _ hs => hs) fun r s hr => ?_
    have hsofar := hnext i
    rw [hwalk, Option.bind_some, ← hr.1] at hsofar
    cases r with
    | none =>
      refine ⟨?_, hr.2⟩
      obtain ⟨rest, hrest⟩ := range_prefix (n := n) (i := i + 1) hi
      rw [← hrest, List.flatMap_append, walk_append, hsofar]
      rfl
    | some h'' => exact ⟨hsofar, hr.2⟩

theorem triple_probePci (h : Hal) :
    Triple (device own) (Keeps own c) (Keeps own c) (probePci h)
      fun r s => r = walk c order h ∧ Keeps own c s := by
  apply triple_walk
  intro bus h hbus
  apply triple_walk
  intro slot h hslot
  apply triple_walk
  intro func h hfunc
  have hstable : Stable (device own) (Keeps own c) (Keeps own c) := stable_keeps fun _ hs => hs
  refine triple_bind (triple_getInfo (fun _ hs => hs) ⟨hbus, hslot, hfunc⟩) fun r => ?_
  apply triple_given
  rintro rfl
  have hvisit : walk c [⟨bus, slot, func⟩] h = visit c h ⟨bus, slot, func⟩ := by
    unfold walk
    rw [List.foldlM_cons]
    cases visit c h ⟨bus, slot, func⟩ <;> rfl
  rw [hvisit]
  unfold visit
  cases hinfo : infoOf c ⟨bus, slot, func⟩ with
  | none => exact triple_end hstable fun _ hs => ⟨rfl, hs⟩
  | some info => exact triple_end hstable fun _ hs => ⟨rfl, hs⟩

def ToAddress (port : UInt16) (_ : UInt32) : Prop := port = PCI_CONFIG_ADDRESS

theorem within_getInfo (a : Addr) : Within ToAddress 4 (pciGetInfo a) := by
  unfold pciGetInfo
  by_cases hbase : pciBase a.busId a.slotId a.funcId = 0
  · simp only [if_pos hbase]
    exact .pure _ _
  · simp only [if_neg hbase]
    refine .out rfl (.inp fun data => ?_)
    by_cases hfirst : data = 0xFFFFFFFF
    · rw [if_pos hfirst]
      exact .pure _ _
    · rw [if_neg hfirst]
      refine .out rfl (.inp fun data' => ?_)
      by_cases hsecond : data' = 0xFFFFFFFF
      · rw [if_pos hsecond]
        exact .pure _ _
      · rw [if_neg hsecond]
        exact .pure _ _

/-- The steps of the three loops, with four accesses at most for a function. -/
def probeSteps : Nat := 256 * (32 * (8 * (4 + 1) + 1 + 1) + 1 + 1) + 1

theorem within_probePci (h : Hal) : Within ToAddress probeSteps (probePci h) := by
  refine Within.upto (fun bus h => ?_) h
  refine Within.upto (fun slot h => ?_) h
  refine Within.upto (fun func h => ?_) h
  refine Within.bind (n := 0) (within_getInfo _) fun r => ?_
  cases r with
  | none => exact .pure _ _
  | some info => exact .pure _ _

end Walk

/-! What the probe finds. -/

def IsDisplay (info : Info) : Prop := info.classCode = 3 ∧ info.subclassCode = 0

/-- The controller that the kernel has a driver for. -/
def IsBga (info : Info) : Prop := info.deviceId = 0x1111 ∧ info.vendorId = 0x1234

instance (info : Info) : Decidable (IsDisplay info) := inferInstanceAs (Decidable (_ ∧ _))
instance (info : Info) : Decidable (IsBga info) := inferInstanceAs (Decidable (_ ∧ _))

/-- The display controllers among some functions. -/
def displays (c : Config) (as : List Addr) : List (Addr × Info) :=
  as.filterMap fun a =>
    (infoOf c a).bind fun info => if IsDisplay info then some (a, info) else none

/-- The display controllers are opened, one after the other. -/
def openAll (xs : List (Addr × Info)) (h : Hal) : Option Hal :=
  xs.foldlM (fun h x => (probeDisplayFound h x.1 x.2).map fun r => r.2) h

section Found
variable {c : Config} {h : Hal} {a : Addr} {info : Info} {xs : List (Addr × Info)}

theorem visit_eq (c : Config) (h : Hal) (a : Addr) : visit c h a = openAll (displays c [a]) h := by
  unfold visit displays
  cases hinfo : infoOf c a with
  | none => simp [hinfo, openAll]
  | some info =>
    by_cases hdisplay : IsDisplay info
    · have hfound : probePciFound h a info = (probeDisplayFound h a info).map fun r => r.2 := by
        unfold probePciFound
        rw [if_pos hdisplay.1, if_pos hdisplay.2]
      simp only [hinfo, hfound, List.filterMap_cons, List.filterMap_nil, Option.bind_some,
        if_pos hdisplay, openAll, List.foldlM_cons]
      cases (probeDisplayFound h a info).map fun r => r.2 <;> rfl
    · have hfound : probePciFound h a info = some h := by
        unfold probePciFound
        by_cases hclass : info.classCode = 3
        · rw [if_pos hclass, if_neg fun hsub => hdisplay ⟨hclass, hsub⟩]
        · rw [if_neg hclass]
      simp only [hinfo, hfound, List.filterMap_cons, List.filterMap_nil, Option.bind_some,
        if_neg hdisplay]
      rfl

theorem walk_eq (c : Config) (as : List Addr) (h : Hal) :
    walk c as h = openAll (displays c as) h := by
  induction as generalizing h with
  | nil => rfl
  | cons a as ih =>
    have hsplit : displays c (a :: as) = displays c [a] ++ displays c as := by
      unfold displays
      rw [← List.filterMap_append, List.singleton_append]
    have hwalk : walk c (a :: as) h = (visit c h a).bind (walk c as) := List.foldlM_cons
    have hopen : openAll (displays c [a] ++ displays c as) h =
        (openAll (displays c [a]) h).bind (openAll (displays c as)) :=
      List.foldlM_append
    rw [hwalk, hsplit, hopen, visit_eq]
    congr 1
    funext h'
    exact ih h'

theorem mem_displays {as : List Addr} {x : Addr × Info} (hx : x ∈ displays c as) :
    IsDisplay x.2 := by
  obtain ⟨a, _, ha⟩ := List.mem_filterMap.mp hx
  obtain ⟨info, _, hinfo⟩ := Option.bind_eq_some_iff.mp ha
  by_cases hdisplay : IsDisplay info
  · rw [if_pos hdisplay] at hinfo
    rw [← Option.some.inj hinfo]
    exact hdisplay
  · rw [if_neg hdisplay] at hinfo
    cases hinfo

def opened (x : Addr × Info) : Display := ⟨x.1, x.2, Bga.bgaOpen⟩

/-- With the driver there, a controller that it knows is opened, and another one is refused. -/
theorem probeDisplayFound_driver (hd : h.driver = some .bga) (hdisplay : IsDisplay info) :
    (probeDisplayFound h a info).map (fun r => r.2) =
      some (if IsBga info then { h with display := some (opened (a, info)) } else h) := by
  have hclass : ¬(info.classCode ≠ 3 ∨ info.subclassCode ≠ 0) := by
    rintro (hc | hs)
    · exact hc hdisplay.1
    · exact hs hdisplay.2
  unfold probeDisplayFound bgaOpen
  by_cases hbga : IsBga info
  · have hid : ¬(info.deviceId ≠ 0x1111 ∨ info.vendorId ≠ 0x1234) := by
      rintro (hc | hs)
      · exact hc hbga.1
      · exact hs hbga.2
    have hset : ({ h with driver := some .bga } : Hal) = h := by rw [← hd]
    simp only [if_pos (show info.deviceId = 0x1111 ∧ info.vendorId = 0x1234 from hbga),
      if_neg hclass, if_neg hid, if_pos hbga, hset, hd, Option.map_some, opened]
  · have hid : info.deviceId ≠ 0x1111 ∨ info.vendorId ≠ 0x1234 := not_and_or.mp hbga
    simp only [if_neg (show ¬(info.deviceId = 0x1111 ∧ info.vendorId = 0x1234) from hbga),
      if_neg hclass, if_pos hid, if_neg hbga, hd, Option.map_some]

/-- The last of the controllers that there is a driver for. -/
def lastBga (xs : List (Addr × Info)) : Option Display :=
  ((xs.filter fun x => IsBga x.2).getLast?).map opened

theorem openAll_driver (hall : ∀ x ∈ xs, IsDisplay x.2) (hd : h.driver = some .bga) :
    openAll xs h = some ⟨some .bga, (lastBga xs).or h.display⟩ := by
  induction xs generalizing h with
  | nil =>
    obtain ⟨driver, display⟩ := h
    cases hd
    rfl
  | cons x xs ih =>
    have hfirst := probeDisplayFound_driver (a := x.1) hd (hall x (List.mem_cons_self ..))
    have hrest := fun h hd => ih (h := h) (fun y hy => hall y (List.mem_cons_of_mem _ hy)) hd
    have hopen : openAll (x :: xs) h =
        ((probeDisplayFound h x.1 x.2).map fun r => r.2).bind (openAll xs) := List.foldlM_cons
    rw [hopen, hfirst, Option.bind_some]
    unfold lastBga
    by_cases hbga : IsBga x.2
    · rw [if_pos hbga, hrest { h with display := some (opened (x.1, x.2)) } hd,
        List.filter_cons_of_pos (by simpa using hbga), List.getLast?_cons]
      unfold lastBga
      cases (xs.filter fun x => IsBga x.2).getLast? <;> rfl
    · rw [if_neg hbga, hrest _ hd, List.filter_cons_of_neg (by simpa using hbga)]
      rfl

/-- Without it, a controller that is not known is opened through a null pointer. -/
theorem openAll_zero {x : Addr × Info} (hall : ∀ y ∈ x :: xs, IsDisplay y.2) :
    openAll (x :: xs) .zero =
      if IsBga x.2 then some ⟨some .bga, lastBga (x :: xs)⟩ else none := by
  have hopen : ∀ h, openAll (x :: xs) h =
      ((probeDisplayFound h x.1 x.2).map fun r => r.2).bind (openAll xs) :=
    fun h => List.foldlM_cons
  by_cases hbga : IsBga x.2
  · have hset : probeDisplayFound .zero x.1 x.2 = probeDisplayFound ⟨some .bga, none⟩ x.1 x.2 := by
      unfold probeDisplayFound
      simp only [if_pos (show x.2.deviceId = 0x1111 ∧ x.2.vendorId = 0x1234 from hbga), Hal.zero]
    rw [if_pos hbga, hopen, hset, ← hopen, openAll_driver hall rfl, Option.or_none]
  · have hnull : probeDisplayFound .zero x.1 x.2 = none := by
      unfold probeDisplayFound
      simp only [if_neg (show ¬(x.2.deviceId = 0x1111 ∧ x.2.vendorId = 0x1234) from hbga),
        Hal.zero, Option.map_none]
    rw [if_neg hbga, hopen, hnull]
    rfl

end Found

/-! The size of what a base address register covers. -/

section Writes
variable {own : OwnBits} {c c' : Config} {f g : Fn} {a : Addr} {k r : Nat} {v : UInt32} {α : Type}
  {next : Prog UInt32 α} {Q : α → Machine → Prop}

theorem Same.write (h : Same own f g) (hr : own.mask r = 0) (v : UInt32) :
    Same own (f.write r v) (g.write r v) := by
  refine ⟨fun i => ?_, h.writable, h.cleared⟩
  unfold Fn.write
  by_cases hir : i = r
  · simp only [if_pos hir, h.reg_eq hr, h.writable, h.cleared]
  · simp only [if_neg hir]
    exact h.reg i

theorem SameConfig.put (h : SameConfig own c c') (hr : own.mask r = 0) (a : Addr) (v : UInt32) :
    SameConfig own (put c a r v) (put c' a r v) := by
  intro x
  have hx := h x
  unfold Pci.put
  by_cases hxa : x = a
  · rw [if_pos hxa, if_pos hxa]
    revert hx
    generalize c x = y
    generalize c' x = z
    intro hx
    cases hx with
    | none => exact .none
    | some hfg => exact .some (hfg.write hr v)
  · rw [if_neg hxa, if_neg hxa]
    exact hx

theorem triple_select (hnext : Triple (device own) (fun _ => True) (Selects own c v) next Q) :
    Triple (device own) (fun _ => True) (Keeps own c) (.out PCI_CONFIG_ADDRESS v next) Q :=
  triple_out (stable_keeps fun _ _ => trivial) (fun _ hs => ⟨hs, rfl⟩) hnext

theorem triple_write (ha : Valid a) (hk : k < 256) (hr : own.mask (k / 4) = 0)
    (hnext : Triple (device own) (fun _ => True)
      (Selects own (put c a (k / 4) v) (pciBase a.busId a.slotId a.funcId + UInt32.ofNat k))
      next Q) :
    Triple (device own) (fun _ => True)
      (Selects own c (pciBase a.busId a.slotId a.funcId + UInt32.ofNat k))
      (.out PCI_CONFIG_DATA v next) Q := by
  refine triple_out (stable_selects fun _ _ => trivial) (fun s hs => ?_) hnext
  obtain ⟨hselected, hhigh⟩ := selected_base ha hk
  have hwrite : (device own).write PCI_CONFIG_DATA v s =
      { s with config := put s.config a (k / 4) v } := by
    have haddress := hs.2
    show portOut PCI_CONFIG_DATA v s = _
    unfold portOut Machine.setData
    rw [if_pos rfl, haddress, if_neg (by omega), hselected]
  rw [hwrite]
  exact ⟨SameConfig.put hs.1 hr a v, hs.2⟩

theorem triple_read {next : UInt32 → Prog UInt32 α} (ha : Valid a) (hk : k < 256)
    (hr : own.mask (k / 4) = 0)
    (hnext : Triple (device own) (fun _ => True)
      (Selects own c (pciBase a.busId a.slotId a.funcId + UInt32.ofNat k))
      (next (dataOf c a (k / 4))) Q) :
    Triple (device own) (fun _ => True)
      (Selects own c (pciBase a.busId a.slotId a.funcId + UInt32.ofNat k))
      (.inp PCI_CONFIG_DATA next) Q := by
  refine triple_inp (stable_selects fun _ _ => trivial)
    (R := fun v s => v = dataOf c a (k / 4) ∧
      Selects own c (pciBase a.busId a.slotId a.funcId + UInt32.ofNat k) s)
    (fun s hs => ⟨hs.data ha hk hr, hs⟩) fun v => ?_
  apply triple_given
  rintro rfl
  exact hnext

end Writes

/-- The register `r` of the function covers `2 ^ k` addresses: only the bits above are written, and
those below say what kind of addresses it is for. -/
structure Covers (f : Fn) (r k flags : Nat) : Prop where
  writable : f.writable r = 0 - UInt32.ofNat (2 ^ k)
  cleared : f.cleared r = 0
  low : (f.reg r).toNat % 2 ^ k = flags
  bits : k < 32
  room : flags + 1 < 2 ^ k

section Bars
variable {f : Fn} {r k flags : Nat}

theorem restored_bits (b x w : UInt32) : ((b &&& ~~~w ||| x &&& w) &&& ~~~w) ||| (b &&& w) = b := by
  apply UInt32.toBitVec_inj.mp
  simp only [UInt32.toBitVec_or, UInt32.toBitVec_and, UInt32.toBitVec_not]
  ext i hi
  simp only [BitVec.getElem_or, BitVec.getElem_and, BitVec.getElem_not]
  cases b.toBitVec[i] <;> cases w.toBitVec[i] <;> simp

theorem write_reg (h : f.cleared r = 0) (v : UInt32) :
    (f.write r v).reg r = (f.reg r &&& ~~~(f.writable r)) ||| (v &&& f.writable r) := by
  unfold Fn.write
  simp only [if_true, h, UInt32.and_zero, UInt32.not_zero, UInt32.and_neg_one]

theorem Covers.probed (h : Covers f r k flags) :
    ((f.write r 0xFFFFFFFF).reg r).toNat = 2 ^ 32 - 2 ^ k + flags := by
  have hle : 2 ^ k ≤ 2 ^ 32 := Nat.pow_le_pow_right (by omega) (Nat.le_of_lt h.bits)
  have hpow : 2 ^ 32 = 2 ^ k * 2 ^ (32 - k) := by
    rw [← Nat.pow_add, Nat.add_sub_cancel' (Nat.le_of_lt h.bits)]
  have hlt : 2 ^ k < 2 ^ 32 := Nat.pow_lt_pow_right (by omega) h.bits
  have hpos : 0 < 2 ^ k := Nat.two_pow_pos k
  have hw : (f.writable r).toNat = 2 ^ 32 - 2 ^ k := by
    have hzero : (0 : UInt32).toNat = 0 := rfl
    rw [h.writable, UInt32.toNat_sub, UInt32.toNat_ofNat', Nat.mod_eq_of_lt hlt, hzero]
    omega
  have hnot : (~~~(f.writable r)).toNat = 2 ^ k - 1 := by
    have hsize : UInt32.size = 2 ^ 32 := rfl
    rw [UInt32.toNat_not, hw, hsize]
    omega
  have hlow : flags < 2 ^ k := Nat.lt_of_succ_lt h.room
  have hall : (0xFFFFFFFF : UInt32) = -1 := rfl
  rw [write_reg h.cleared, hall, UInt32.neg_one_and, UInt32.toNat_or, UInt32.toNat_and, hnot, hw,
    Nat.and_two_pow_sub_one_eq_mod, h.low, Nat.or_comm, hpow,
    show 2 ^ k * 2 ^ (32 - k) - 2 ^ k = 2 ^ k * (2 ^ (32 - k) - 1) by
      rw [Nat.mul_sub, Nat.mul_one], Nat.two_pow_add_eq_or_of_lt hlow]

theorem Covers.restored (h : Covers f r k flags) :
    (f.write r 0xFFFFFFFF).write r (f.reg r) = f := by
  have hreg : ((f.write r 0xFFFFFFFF).write r (f.reg r)).reg r = f.reg r := by
    have hcleared : (f.write r 0xFFFFFFFF).cleared r = 0 := h.cleared
    have hwritable : (f.write r 0xFFFFFFFF).writable = f.writable := rfl
    rw [write_reg hcleared, write_reg h.cleared, hwritable]
    exact restored_bits _ _ _
  have hother : ∀ i, i ≠ r → ((f.write r 0xFFFFFFFF).write r (f.reg r)).reg i = f.reg i := by
    intro i hi
    unfold Fn.write
    simp only [if_neg hi]
  have hall : ((f.write r 0xFFFFFFFF).write r (f.reg r)).reg = f.reg := by
    funext i
    by_cases hi : i = r
    · rw [hi]
      exact hreg
    · exact hother i hi
  have hrecord : (f.write r 0xFFFFFFFF).write r (f.reg r) =
      { f with reg := ((f.write r 0xFFFFFFFF).write r (f.reg r)).reg } := rfl
  rw [hrecord, hall]

theorem Covers.not_ones (h : Covers f r k flags) :
    f.reg r ≠ 0xFFFFFFFF ∧ (f.write r 0xFFFFFFFF).reg r ≠ 0xFFFFFFFF := by
  have hpow : 2 ^ 32 = 2 ^ k * 2 ^ (32 - k) := by
    rw [← Nat.pow_add, Nat.add_sub_cancel' (Nat.le_of_lt h.bits)]
  have hle : 2 ^ k ≤ 2 ^ 32 := Nat.pow_le_pow_right (by omega) (Nat.le_of_lt h.bits)
  have hroom := h.room
  have hall : (0xFFFFFFFF : UInt32).toNat = 2 ^ 32 - 1 := rfl
  constructor
  · intro heq
    have hlow := h.low
    have hones : 2 ^ 32 - 1 = 2 ^ k * (2 ^ (32 - k) - 1) + (2 ^ k - 1) := by
      rw [Nat.mul_sub, Nat.mul_one, ← hpow]
      omega
    rw [heq, hall, hones, Nat.mul_add_mod, Nat.mod_eq_of_lt (by omega)] at hlow
    omega
  · intro heq
    have hprobed := h.probed
    rw [heq, hall] at hprobed
    omega

theorem Covers.size (h : Covers f r k flags) :
    ~~~((f.write r 0xFFFFFFFF).reg r) + 1 = UInt32.ofNat (2 ^ k - flags) := by
  have hlt : 2 ^ k < 2 ^ 32 := Nat.pow_lt_pow_right (by omega) h.bits
  have hroom := h.room
  have hsize : UInt32.size = 2 ^ 32 := rfl
  have hone : (1 : UInt32).toNat = 1 := rfl
  apply UInt32.toNat_inj.mp
  rw [UInt32.toNat_add, UInt32.toNat_not, h.probed, hsize, hone, UInt32.toNat_ofNat']
  congr 1
  omega

theorem put_restored {c : Config} {a : Addr} (hf : c a = some f) (h : Covers f r k flags) :
    put (put c a r 0xFFFFFFFF) a r (f.reg r) = c := by
  funext x
  unfold put
  by_cases hx : x = a
  · subst hx
    simp only [if_true, hf, Option.map_some]
    rw [h.restored]
  · simp only [if_neg hx]

theorem triple_getBar {own : OwnBits} {c : Config} {a : Addr} {index : Nat} (ha : Valid a)
    (hindex : index ≤ 4) (hf : c a = some f) (h : Covers f (4 + index) k flags) (out : Bar) :
    Triple (device own) (fun _ => True) (Keeps own c) (pciGetBar a index out) fun r s =>
      r = (true, ⟨f.reg (4 + index), UInt32.ofNat (2 ^ k - flags)⟩) ∧ Keeps own c s := by
  obtain ⟨hvalue, hprobed⟩ := h.not_ones
  have hplace : pciBase a.busId a.slotId a.funcId + 16 + UInt32.ofNat index * 4 =
      pciBase a.busId a.slotId a.funcId + UInt32.ofNat (16 + index * 4) := by
    rw [UInt32.ofNat_add, UInt32.ofNat_mul, ← UInt32.add_assoc]
    rfl
  have hlt : 16 + index * 4 < 256 := by omega
  have hreg : (16 + index * 4) / 4 = 4 + index := by omega
  have hr : own.mask ((16 + index * 4) / 4) = 0 := own.header _ (by omega) (by omega)
  have hhere : dataOf c a (4 + index) = f.reg (4 + index) := by
    unfold dataOf
    rw [hf]
    rfl
  have hthere : dataOf (put c a (4 + index) 0xFFFFFFFF) a (4 + index) =
      (f.write (4 + index) 0xFFFFFFFF).reg (4 + index) := by
    unfold dataOf put
    rw [if_pos rfl, hf]
    rfl
  unfold pciGetBar
  rw [if_neg (by omega), if_neg (pciBase_ne_zero ha)]
  simp only [hplace]
  refine triple_select (triple_read ha hlt hr ?_)
  rw [hreg, hhere, if_neg hvalue]
  refine Triple.conseq (triple_select (triple_write ha hlt hr (triple_read ha hlt hr ?_)))
    (fun _ hs => hs.1) fun _ _ h => h
  rw [hreg, hthere, if_neg hprobed, h.size]
  refine Triple.conseq (triple_select (triple_write ha hlt hr ?_)) (fun _ hs => hs.1) fun _ _ h => h
  rw [hreg, put_restored hf h]
  exact triple_end (stable_selects fun _ _ => trivial) fun s hs => ⟨rfl, hs.1⟩

theorem within_getBar (a : Addr) (index : Nat) (out : Bar) :
    Within (fun port _ => port = PCI_CONFIG_ADDRESS ∨ port = PCI_CONFIG_DATA) 7
      (pciGetBar a index out) := by
  unfold pciGetBar
  by_cases hindex : index > 4
  · rw [if_pos hindex]
    exact .pure _ _
  · rw [if_neg hindex]
    by_cases hbase : pciBase a.busId a.slotId a.funcId = 0
    · simp only [if_pos hbase]
      exact .pure _ _
    · simp only [if_neg hbase]
      refine .out (.inl rfl) (.inp fun b => ?_)
      by_cases hb : b = 0xFFFFFFFF
      · rw [if_pos hb]
        exact .pure _ _
      · rw [if_neg hb]
        refine .out (.inl rfl) (.out (.inr rfl) (.inp fun s => ?_))
        by_cases hs : s = 0xFFFFFFFF
        · rw [if_pos hs]
          exact .pure _ _
        · rw [if_neg hs]
          exact .out (.inl rfl) (.out (.inr rfl) (.pure _ _))

end Bars

/-- The register is the same afterwards, and the size is short of what is covered by the bits that
tell the kind. -/
theorem bar_size_less_flags (own : OwnBits) {s : Machine} {a : Addr} {f : Fn} {index k flags : Nat}
    (ha : Valid a) (hindex : index ≤ 4) (hf : s.config a = some f)
    (h : Covers f (4 + index) k flags) (out : Bar) :
    Bounded (device own) (fun port _ => port = PCI_CONFIG_ADDRESS ∨ port = PCI_CONFIG_DATA) 7
      (pciGetBar a index out) ∧
    ∀ as t r, Run (Step (device own)) (s, pciGetBar a index out) as (t, .pure r) →
      SameConfig own s.config t.config ∧ r.1 = true ∧ r.2.bar = f.reg (4 + index) ∧
      r.2.size = UInt32.ofNat (2 ^ k - flags) ∧ (r.2.size = UInt32.ofNat (2 ^ k) ↔ flags = 0) := by
  refine ⟨(within_getBar a index out).bounded, fun as t r hrun => ?_⟩
  obtain ⟨rfl, hkept⟩ :=
    (triple_getBar ha hindex hf h out s (SameConfig.refl _) as t _ hrun).2 r rfl
  refine ⟨hkept, rfl, rfl, rfl, fun heq => ?_, fun heq => by rw [heq]; rfl⟩
  have hlt : 2 ^ k < 2 ^ 32 := Nat.pow_lt_pow_right (by omega) h.bits
  have hroom := h.room
  have hnat := congrArg UInt32.toNat heq
  rw [UInt32.toNat_ofNat', UInt32.toNat_ofNat', Nat.mod_eq_of_lt hlt,
    Nat.mod_eq_of_lt (by omega)] at hnat
  omega

/-- A frame buffer of 16 MiB that can be prefetched. -/
def smallFn : Fn where
  reg r :=
    if r = 0 then 0x11111234 else if r = 2 then 0x03000002 else if r = 4 then 0xFD000008 else 0
  writable r := if r = 4 then 0 - UInt32.ofNat (2 ^ 24) else 0
  cleared _ := 0

def smallMachine : Machine where
  address := 0
  config a := if a = ⟨0, 2, 0⟩ then some smallFn else none

/-- The status and the registers behind the header. -/
def statusBits : OwnBits where
  mask r := if r = 1 then 0xFFFF0000 else if r < 16 then 0 else 0xFFFFFFFF
  command := rfl
  header r hr hne := by rw [if_neg hne, if_pos hr]

theorem bar_size_less_flags_small : ∃ as t r,
    Run (Step (device statusBits)) (smallMachine, pciGetBar ⟨0, 2, 0⟩ 0 ⟨0, 0⟩) as (t, .pure r) ∧
      SameConfig statusBits smallMachine.config t.config ∧ r.2.size = 0xFFFFF8 := by
  have hcovers : Covers smallFn (4 + 0) 24 8 := ⟨rfl, rfl, by decide, by omega, by omega⟩
  obtain ⟨hbounded, hsize⟩ := bar_size_less_flags statusBits (s := smallMachine) (a := ⟨0, 2, 0⟩)
    ⟨by decide, by decide, by decide⟩ (by omega) rfl hcovers ⟨0, 0⟩
  obtain ⟨as, t, r, hrun⟩ := (hbounded smallMachine [] _ (.nil _)).2.2
  obtain ⟨hkept, _, _, hanswer, _⟩ := hsize as t r hrun
  exact ⟨as, t, r, hrun, hkept, hanswer⟩

end OsdevCourse.Pci
