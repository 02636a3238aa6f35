import OsdevCourse.DescriptorTables
import OsdevCourse.Reachability
import Mathlib.Data.List.FinRange

/-!
# The two interrupt controllers

A controller holds an acknowledged request in service until it is told the end of the interrupt, and
lets nothing of the same or a lower priority through. `pic_init` initialises the pair whatever the
firmware has left in it; each `PIC_IRQ_xx` ends the interrupt before it does anything else, on the
slave too where the request came from there.
-/

namespace OsdevCourse.Pic

set_option autoImplicit false

open Boot

/-! One 8259A. -/

/-- What the controller takes the next byte on its data port for. -/
inductive Phase where
  | ready
  | icw2
  | icw3
  | icw4
  deriving DecidableEq, Repr

structure Controller where
  irr : Fin 8 → Bool
  isr : Fin 8 → Bool
  imr : Fin 8 → Bool
  base : UInt8
  phase : Phase

/-- The line of the master that the slave is on. -/
def cascade : Fin 8 := 2

def none8 : Fin 8 → Bool := fun _ => false

def setLine (lines : Fin 8 → Bool) (n : Fin 8) (v : Bool) : Fin 8 → Bool :=
  fun i => if i = n then v else lines i

/-- The first line, which has the highest priority. -/
def first (lines : Fin 8 → Bool) : Option (Fin 8) := (List.finRange 8).find? lines

namespace Controller

/-- The end of an interrupt, not told of which: it is that of the highest priority in service. -/
def endOfInterrupt (p : Controller) : Controller :=
  match first p.isr with
  | some n => { p with isr := setLine p.isr n false }
  | none => p

/-- A byte on the command port: ICW1, or the OCW2 that ends an interrupt. -/
def outCommand (p : Controller) (v : UInt8) : Controller :=
  if v &&& 0x10 ≠ 0 then { p with irr := none8, isr := none8, imr := none8, phase := .icw2 }
  else if v = 0x20 then p.endOfInterrupt
  else p

/-- A byte on the data port, of a controller that is one of a pair and needs ICW4. -/
def outData (p : Controller) (v : UInt8) : Controller :=
  match p.phase with
  | .icw2 => { p with base := v &&& 0xF8, phase := .icw3 }
  | .icw3 => { p with phase := .icw4 }
  | .icw4 => { p with phase := .ready }
  | .ready => { p with imr := fun i => v.toNat.testBit i }

/-- The request that is let through: not masked, and above all that is in service. -/
def request (p : Controller) : Option (Fin 8) :=
  match first fun i => p.irr i && !p.imr i with
  | some n => if (List.finRange 8).any fun i => decide (i ≤ n) && p.isr i then none else some n
  | none => none

def acknowledge (p : Controller) (n : Fin 8) : Controller :=
  { p with irr := setLine p.irr n false, isr := setLine p.isr n true }

end Controller

/-! The pair. -/

structure Pair where
  master : Controller
  slave : Controller

namespace Pair

/-- The master sees the slave on its cascade line. -/
def lines (p : Pair) : Controller :=
  { p.master with irr := setLine p.master.irr cascade p.slave.request.isSome }

def out (p : Pair) (port : UInt16) (v : UInt8) : Pair :=
  if port = 0x20 then { p with master := p.master.outCommand v }
  else if port = 0x21 then { p with master := p.master.outData v }
  else if port = 0xA0 then { p with slave := p.slave.outCommand v }
  else if port = 0xA1 then { p with slave := p.slave.outData v }
  else p

def outs (p : Pair) (bytes : List (UInt16 × UInt8)) : Pair :=
  bytes.foldl (fun p b => p.out b.1 b.2) p

/-- The processor acknowledges an interrupt: the vector, and the pair afterwards. The request may
have gone since the processor was told. -/
def acknowledge (p : Pair) (master slave : Option (Fin 8)) : UInt8 × Pair :=
  match master with
  | none => (p.master.base + 7, p)
  | some n =>
    if n = cascade then
      match slave with
      | none => (p.slave.base + 7, { p with master := p.master.acknowledge cascade })
      | some m => (p.slave.base + m.val.toUInt8,
          { master := p.master.acknowledge cascade, slave := p.slave.acknowledge m })
    else (p.master.base + n.val.toUInt8, { p with master := p.master.acknowledge n })

end Pair

/-! The code. -/

def IRQ_BASE : UInt8 := 0x20

/-- The bytes that `pic_init` puts out to the pair, in their order. -/
def picInitOuts : List (UInt16 × UInt8) :=
  [(0x20, 0x11), (0xA0, 0x11), (0x21, IRQ_BASE), (0xA1, IRQ_BASE + 8), (0x21, 0x04), (0xA1, 0x02),
    (0x21, 1), (0xA1, 1),
    (0x21, 0), (0xA1, 0)]

def picInit (p : Pair) : Pair := p.outs picInitOuts

/-- What `PIC_IRQ_xx` puts out before anything else. -/
def stubOuts (vector : UInt8) : List (UInt16 × UInt8) :=
  if IRQ_BASE + 8 ≤ vector ∧ vector < IRQ_BASE + 16 then [(0xA0, 0x20), (0x20, 0x20)]
  else if IRQ_BASE ≤ vector ∧ vector < IRQ_BASE + 8 then [(0x20, 0x20)]
  else []

/-- The pair, IF, and what the stub that has been entered is still to put out. -/
structure Machine where
  pair : Pair
  interrupts : Bool
  rest : List (UInt16 × UInt8)

inductive Act where
  | raise (slave : Bool) (n : Fin 8)
  | interrupt (vector : UInt8)
  | out
  | setIf (v : Bool)

/-- A line of either controller goes up. -/
def Pair.raise (p : Pair) (slave : Bool) (n : Fin 8) : Pair :=
  if slave then { p with slave := { p.slave with irr := setLine p.slave.irr n true } }
  else { p with master := { p.master with irr := setLine p.master.irr n true } }

/-- A gate clears IF, and a stub sets it at its end at the earliest. -/
inductive Step : Machine → Act → Machine → Prop where
  | raise {s : Machine} {slave : Bool} {n : Fin 8} :
    Step s (.raise slave n) { s with pair := s.pair.raise slave n }
  | interrupt {s : Machine} {master slave : Option (Fin 8)} : s.interrupts = true →
    (∀ n, master = some n → s.pair.lines.request = some n) →
    (∀ m, slave = some m → s.pair.slave.request = some m) →
    Step s (.interrupt (s.pair.acknowledge master slave).1)
      { pair := (s.pair.acknowledge master slave).2, interrupts := false,
        rest := stubOuts (s.pair.acknowledge master slave).1 }
  | out {s : Machine} {port : UInt16} {v : UInt8} {rest : List (UInt16 × UInt8)} :
    s.rest = (port, v) :: rest →
    Step s .out { s with pair := s.pair.out port v, rest := rest }
  | setIf {s : Machine} {v : Bool} : s.rest = [] → Step s (.setIf v) { s with interrupts := v }

/-! The invariant. -/

/-- At most one request is in service. -/
def AtMostOne (p : Controller) : Prop := p.isr = none8 ∨ ∃ n, p.isr = setLine none8 n true

/-- What the stub still owes to the controllers. -/
inductive Owed (p : Pair) : List (UInt16 × UInt8) → Prop where
  | nothing : p.master.isr = none8 → p.slave.isr = none8 → Owed p []
  | master : AtMostOne p.master → p.slave.isr = none8 → Owed p [(0x20, 0x20)]
  | both : AtMostOne p.master → AtMostOne p.slave → Owed p [(0xA0, 0x20), (0x20, 0x20)]

/-- A controller that has been initialised and masks nothing. -/
structure Initialised (p : Controller) (base : UInt8) : Prop where
  base : p.base = base
  phase : p.phase = .ready
  imr : p.imr = none8

structure Inv (s : Machine) : Prop where
  master : Initialised s.pair.master IRQ_BASE
  slave : Initialised s.pair.slave (IRQ_BASE + 8)
  owed : Owed s.pair s.rest
  interrupts : s.interrupts = true → s.rest = []

section Lemmas
variable {p : Controller} {q : Pair} {base v : UInt8} {n : Fin 8} {s s' : Machine} {a : Act}

theorem first_none8 : first none8 = none := by decide

theorem first_single (n : Fin 8) : first (setLine none8 n true) = some n := by
  revert n
  decide

theorem setLine_back (n : Fin 8) : setLine (setLine none8 n true) n false = none8 := by
  funext i
  unfold setLine none8
  split_ifs <;> rfl

theorem AtMostOne.ends (h : AtMostOne p) : p.endOfInterrupt.isr = none8 := by
  unfold Controller.endOfInterrupt
  rcases h with hnone | ⟨n, hn⟩
  · rw [hnone, first_none8]
    exact hnone
  · rw [hn, first_single]
    simp only [setLine_back]

theorem Owed.congr {q' : Pair} {rest : List (UInt16 × UInt8)} (h : Owed q rest)
    (hmaster : q'.master.isr = q.master.isr) (hslave : q'.slave.isr = q.slave.isr) :
    Owed q' rest := by
  have hone : ∀ p p' : Controller, p'.isr = p.isr → AtMostOne p → AtMostOne p' := by
    intro p p' heq hp
    unfold AtMostOne
    rw [heq]
    exact hp
  cases h with
  | nothing hm hs => exact .nothing (hmaster.trans hm) (hslave.trans hs)
  | master hm hs => exact .master (hone _ _ hmaster hm) (hslave.trans hs)
  | both hm hs => exact .both (hone _ _ hmaster hm) (hone _ _ hslave hs)

theorem outCommand_end (p : Controller) : p.outCommand 0x20 = p.endOfInterrupt := by
  have hbit : ¬ (0x20 : UInt8) &&& 0x10 ≠ 0 := by decide
  unfold Controller.outCommand
  rw [if_neg hbit, if_pos rfl]

theorem Initialised.ends (h : Initialised p base) : Initialised p.endOfInterrupt base := by
  unfold Controller.endOfInterrupt
  split
  · exact ⟨h.base, h.phase, h.imr⟩
  · exact h

theorem Initialised.acknowledge (h : Initialised p base) : Initialised (p.acknowledge n) base :=
  ⟨h.base, h.phase, h.imr⟩

theorem acknowledge_one (h : p.isr = none8) : AtMostOne (p.acknowledge n) := by
  refine Or.inr ⟨n, ?_⟩
  unfold Controller.acknowledge
  rw [h]

theorem request_eq (hisr : p.isr = none8) (himr : p.imr = none8) : p.request = first p.irr := by
  have hlines : (fun i => p.irr i && !p.imr i) = p.irr := by
    funext i
    rw [himr]
    simp [none8]
  have hall : ∀ n : Fin 8, ((List.finRange 8).any fun i => decide (i ≤ n) && p.isr i) = false := by
    intro n
    rw [hisr]
    simp [none8]
  unfold Controller.request
  rw [hlines]
  cases first p.irr with
  | none => rfl
  | some n =>
    simp only
    rw [hall n]
    simp

theorem stubOuts_master (n : Fin 8) : stubOuts (IRQ_BASE + n.val.toUInt8) = [(0x20, 0x20)] := by
  revert n
  decide

theorem stubOuts_slave (n : Fin 8) : stubOuts (IRQ_BASE + 8 + n.val.toUInt8) =
    [(0xA0, 0x20), (0x20, 0x20)] := by
  revert n
  decide

theorem picInit_spec (q : Pair) : Initialised (picInit q).master IRQ_BASE ∧
    Initialised (picInit q).slave (IRQ_BASE + 8) ∧ (picInit q).master.isr = none8 ∧
      (picInit q).slave.isr = none8 := by
  have hnone : (fun _ : Fin 8 => false) = none8 := rfl
  have hicw : (0x11 : UInt8) &&& 0x10 ≠ 0 := by decide
  have hbases : IRQ_BASE &&& 0xF8 = IRQ_BASE ∧ (IRQ_BASE + 8) &&& 0xF8 = IRQ_BASE + 8 := by decide
  refine ⟨⟨?_, ?_, ?_⟩, ⟨?_, ?_, ?_⟩, ?_, ?_⟩ <;>
  · simp [picInit, picInitOuts, Pair.outs, Pair.out, Controller.outCommand, Controller.outData,
      hicw, hbases, hnone]

theorem Inv.acknowledged (h : Inv s) (hrest : s.rest = []) {master slave : Option (Fin 8)} :
    Owed (s.pair.acknowledge master slave).2 (stubOuts (s.pair.acknowledge master slave).1) ∧
    Initialised (s.pair.acknowledge master slave).2.master IRQ_BASE ∧
    Initialised (s.pair.acknowledge master slave).2.slave (IRQ_BASE + 8) := by
  have howed := h.owed
  rw [hrest] at howed
  cases howed with
  | nothing hmaster hslave =>
    have hbase := h.master.base
    have hbase₂ := h.slave.base
    unfold Pair.acknowledge
    cases master with
    | none =>
      refine ⟨?_, h.master, h.slave⟩
      simp only [hbase]
      rw [show stubOuts (IRQ_BASE + 7) = [(0x20, 0x20)] by decide]
      exact .master (Or.inl hmaster) hslave
    | some n =>
      simp only
      split_ifs with hcascade
      · cases slave with
        | none =>
          refine ⟨?_, h.master.acknowledge, h.slave⟩
          simp only [hbase₂]
          rw [show stubOuts (IRQ_BASE + 8 + 7) = [(0xA0, 0x20), (0x20, 0x20)] by decide]
          exact .both (acknowledge_one hmaster) (Or.inl hslave)
        | some m =>
          refine ⟨?_, h.master.acknowledge, h.slave.acknowledge⟩
          simp only [hbase₂]
          rw [stubOuts_slave]
          exact .both (acknowledge_one hmaster) (acknowledge_one hslave)
      · refine ⟨?_, h.master.acknowledge, h.slave⟩
        simp only [hbase]
        rw [stubOuts_master]
        exact .master (acknowledge_one hmaster) hslave

theorem Inv.step (h : Inv s) (hstep : Step s a s') : Inv s' := by
  cases hstep with
  | @raise slave n =>
    unfold Pair.raise
    cases slave with
    | true => exact ⟨h.master, ⟨h.slave.base, h.slave.phase, h.slave.imr⟩,
      h.owed.congr rfl rfl, h.interrupts⟩
    | false => exact ⟨⟨h.master.base, h.master.phase, h.master.imr⟩, h.slave,
      h.owed.congr rfl rfl, h.interrupts⟩
  | interrupt hif _ _ =>
    obtain ⟨howed, hmaster, hslave⟩ := h.acknowledged (h.interrupts hif)
    exact ⟨hmaster, hslave, howed, nofun⟩
  | @out port v rest hrest =>
    have howed := h.owed
    rw [hrest] at howed
    have hoff : s.interrupts = true → rest = [] := by
      intro hif
      have hnil := h.interrupts hif
      rw [hrest] at hnil
      cases hnil
    unfold Pair.out
    cases howed with
    | master hmaster hslave =>
      rw [if_pos rfl, outCommand_end]
      exact ⟨h.master.ends, h.slave, .nothing hmaster.ends hslave, hoff⟩
    | both hmaster hslave =>
      rw [if_neg (by decide), if_neg (by decide), if_pos rfl, outCommand_end]
      exact ⟨h.master, h.slave.ends, .master hmaster hslave.ends, hoff⟩
  | setIf hrest => exact ⟨h.master, h.slave, h.owed, fun _ => hrest⟩

end Lemmas

/-- With interrupts off, as `HAL::probe` calls `pic_init`. -/
def start (p : Pair) : Machine := ⟨picInit p, false, []⟩

theorem Inv.start (p : Pair) : Inv (start p) := by
  obtain ⟨hmaster, hslave, hisr, hisr₂⟩ := picInit_spec p
  exact ⟨hmaster, hslave, .nothing hisr hisr₂, nofun⟩

/-- Whenever the processor takes interrupts nothing is in service, so that the first request of all
is the one that is let through, and it comes in by one of the sixteen gates. -/
theorem controllers_hold_nothing_back {p : Pair} {as : List Act} {s : Machine}
    (hrun : Run Step (start p) as s)
    (hif : s.interrupts = true) :
    s.pair.master.isr = none8 ∧ s.pair.slave.isr = none8 ∧
    s.pair.lines.request = first s.pair.lines.irr ∧ s.pair.slave.request = first s.pair.slave.irr ∧
    ∀ vector s', Step s (.interrupt vector) s' →
      s'.interrupts = false ∧ vector.toUInt32 ∈ requests.map (IRQ_BASE_INTNUM + ·) := by
  have hinv := hrun.invariant Inv (fun _ _ _ h hstep => h.step hstep) (Inv.start p)
  have howed := hinv.owed
  rw [hinv.interrupts hif] at howed
  cases howed with
  | nothing hmaster hslave =>
    refine ⟨hmaster, hslave, request_eq hmaster hinv.master.imr, request_eq hslave hinv.slave.imr,
      fun vector s' hstep => ?_⟩
    have hbase := hinv.master.base
    have hbase₂ := hinv.slave.base
    have hvectors : ∀ n : Fin 8, (IRQ_BASE + n.val.toUInt8).toUInt32 ∈ requests.map
      (IRQ_BASE_INTNUM + ·) ∧
        (IRQ_BASE + 8 + n.val.toUInt8).toUInt32 ∈ requests.map (IRQ_BASE_INTNUM + ·) := by decide
    cases hstep with
    | interrupt _ _ _ =>
      refine ⟨rfl, ?_⟩
      unfold Pair.acknowledge
      split
      · rw [hbase]
        exact (hvectors 7).1
      · split_ifs
        · split
          · rw [hbase₂]
            exact (hvectors 7).2
          · rw [hbase₂]
            exact (hvectors _).2
        · rw [hbase]
          exact (hvectors _).1

/-- The firmware has left everything masked and in service; then the timer ticks. -/
theorem controllers_hold_nothing_back_tick : ∃ s, Run Step
    (start ⟨⟨none8, fun _ => true, fun _ => true, 8, .icw3⟩,
      ⟨none8, fun _ => true, fun _ => true, 0x70, .ready⟩⟩) [.setIf true, .raise false 0] s ∧
    s.pair.lines.request = some 0 := by
  have hrun := (Run.single (Step.setIf (s := start ⟨⟨none8, fun _ => true, fun _ => true, 8, .icw3⟩,
    ⟨none8, fun _ => true, fun _ => true, 0x70, .ready⟩⟩) (v := true) rfl)).snoc
      (Step.raise : Step _ (.raise false 0) _)
  have hrequest := (controllers_hold_nothing_back hrun rfl).2.2.1
  refine ⟨_, hrun, hrequest.trans ?_⟩
  decide

end OsdevCourse.Pic
