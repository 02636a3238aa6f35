import OsdevCourse.PortPrograms
import OsdevCourse.CString

/-!
# The serial ports and who is at the other end

`uart.c` opens the four ports and polls the line status before every byte, and the loop of `kmain`
asks for a name on the first one and answers. Bytes come in and go out while it polls, and other
threads put out bytes of their own there with `kdebug_putc`, which polls first as well. The
conversation is a function of the bytes that were taken in.
-/

namespace OsdevCourse.Uart

set_option autoImplicit false

open Memory Port

/-! The hardware. -/

def ioports : List UInt16 := [0x03F8, 0x02F8, 0x03E8, 0x02E8]

/-- Who put a byte out. -/
inductive Writer
  | hal
  | kdebug
  deriving DecidableEq

/-- A 16550 with its two FIFOs. The last four fields are what came in, what was taken, what was put
and what went out since the FIFOs were cleared. -/
structure Com where
  ier : UInt8
  fcr : UInt8
  lcr : UInt8
  mcr : UInt8
  dll : UInt8
  dlm : UInt8
  rx : List UInt8
  tx : List (Writer × UInt8)
  accepted : List UInt8
  taken : List UInt8
  put : List (Writer × UInt8)
  wire : List (Writer × UInt8)

namespace Com

def dlab (c : Com) : Bool := c.lcr &&& 0x80 ≠ 0

def depth (c : Com) : Nat := if c.fcr &&& 0x01 = 0 then 1 else 16

/-- The line status: data ready, and the transmitter empty. -/
def lsr (c : Com) : UInt8 := (if c.rx = [] then 0x00 else 0x01) |||
    (if c.tx = [] then 0x60 else 0x00)

/-- A byte that finds no room is lost. -/
def receive (c : Com) (b : UInt8) : Com :=
  if c.rx.length < c.depth then { c with rx := c.rx ++ [b], accepted := c.accepted ++ [b] } else c

def send (c : Com) (w : Writer) (b : UInt8) : Com :=
  if c.tx.length < c.depth then { c with tx := c.tx ++ [(w, b)], put := c.put ++ [(w, b)] } else c

def clearRx (c : Com) : Com := { c with rx := [], accepted := [], taken := [] }

def clearTx (c : Com) : Com := { c with tx := [], put := [], wire := [] }

/-- The FIFO control register. Its other bits count only where FIFOs are enabled. -/
def control (c : Com) (v : UInt8) : Com :=
  let c' := { c with fcr := v }
  if v &&& 0x01 = 0 then c'.clearRx.clearTx
  else
    let c' := if v &&& 0x02 = 0 then c' else c'.clearRx
    if v &&& 0x04 = 0 then c' else c'.clearTx

def read (c : Com) (reg : UInt16) : UInt8 × Com :=
  if reg = 0 then
    if c.dlab then (c.dll, c)
    else
      match c.rx with
      | [] => (0, c)
      | b :: rest => (b, { c with rx := rest, taken := c.taken ++ [b] })
  else if reg = 1 then (if c.dlab then c.dlm else c.ier, c)
  else if reg = 3 then (c.lcr, c)
  else if reg = 4 then (c.mcr, c)
  else if reg = 5 then (c.lsr, c)
  else (0, c)

def write (c : Com) (w : Writer) (reg : UInt16) (v : UInt8) : Com :=
  if reg = 0 then if c.dlab then { c with dll := v } else c.send w v
  else if reg = 1 then if c.dlab then { c with dlm := v } else { c with ier := v }
  else if reg = 2 then c.control v
  else if reg = 3 then { c with lcr := v }
  else if reg = 4 then { c with mcr := v }
  else c

end Com

/-- The four ports, how many threads are in `kdebug_putc` between their last poll and the byte, and
the bytes that they put. -/
structure Machine where
  com : Nat → Com
  pending : Nat
  said : List UInt8

def Machine.set (s : Machine) (i : Nat) (c : Com) : Machine :=
  { s with com := fun j => if j = i then c else s.com j }

/-- The port and the register at an address. -/
def decode (port : UInt16) : Option (Nat × UInt16) :=
  (List.range 4).findSome? fun i =>
    let reg := port - ioports.getD i 0
    if reg < 8 then some (i, reg) else none

inductive Event
  | arrive (i : Nat) (b : UInt8)
  | transmit (i : Nat)
  | poll
  | put (b : UInt8)

/-- What happens between two accesses, with at most `n` threads in `kdebug_putc` at one time. -/
inductive Env (n : Nat) : Machine → Event → Machine → Prop
  | arrive {s : Machine} (i : Nat) (b : UInt8) : Env n s (.arrive i b)
    (s.set i ((s.com i).receive b))
  | transmit {s : Machine} {i : Nat} {x : Writer × UInt8} {rest : List (Writer × UInt8)} :
    (s.com i).tx = x :: rest →
    Env n s (.transmit i) (s.set i { s.com i with tx := rest, wire := (s.com i).wire ++ [x] })
  | poll {s : Machine} : s.pending < n → (s.com 0).lsr &&& 0x20 ≠ 0 →
    Env n s .poll { s with pending := s.pending + 1 }
  | put {s : Machine} (b : UInt8) : 0 < s.pending →
    Env n s (.put b)
      { s.set 0 ((s.com 0).write .kdebug 0 b) with pending := s.pending - 1, said := s.said ++ [b] }

def device (n : Nat) : Port.Device Machine UInt8 Event where
  read port s :=
    match decode port with
    | some (i, reg) => (((s.com i).read reg).1, s.set i ((s.com i).read reg).2)
    | none => (0xFF, s)
  write port v s :=
    match decode port with
    | some (i, reg) => s.set i ((s.com i).write .hal reg v)
    | none => s
  env := Env n

/-! The driver: `uart.c`. -/

/-- `struct UART_DEVICE` -/
structure Device where
  driver : Nat
  port : Nat

def uartOpen (driver : Nat) (device : Device) (port : Nat) : Prog UInt8 (Bool × Device) :=
  if driver = 0 ∨ port ≥ 4 then .pure (false, device)
  else
    let base := ioports.getD port 0
    .out (base + 1) 0x00 <|
    .out (base + 3) 0x80 <|
    .out (base + 0) 0x03 <|
    .out (base + 1) 0x00 <|
    .out (base + 3) 0x03 <|
    .out (base + 2) 0xC7 <|
    .out (base + 4) 0x0B <|
    .pure (true, ⟨driver, port⟩)

/-- `while ((inb(port) & mask) == 0);` -/
def busyLoop (port : UInt16) (mask : UInt8) : Prog UInt8 Unit :=
  .loop (fun _ => .inp port fun v => .pure (if v &&& mask = 0 then .inl () else .inr ())) ()

def uartPutc (device : Device) (c : UInt8) : Prog UInt8 Bool :=
  if device.port ≥ 4 then .pure false
  else
    let base := ioports.getD device.port 0
    (busyLoop (base + 5) 0x20).bind fun _ => .out base c (.pure true)

def uartGetc (device : Device) : Prog UInt8 UInt8 :=
  if device.port ≥ 4 then .pure 0
  else
    let base := ioports.getD device.port 0
    (busyLoop (base + 5) 0x01).bind fun _ => .inp base .pure

/-! The HAL: `hal_uart.cpp`. -/

/-- `_drivers.uart`, which `driver_uart` has filled, and `_devices.uart`. -/
structure Hal where
  driver : Nat
  uart : Nat → Device

namespace Hal

def setUart (h : Hal) (i : Nat) (v : Device) : Hal :=
  { h with uart := fun j => if j = i then v else h.uart j }

def probeUart (h : Hal) : Prog UInt8 (Bool × Hal) :=
  .iter (fun (port, h) =>
      if port < 4 then
        (uartOpen h.driver (h.uart port) port).bind fun (opened, v) =>
          let h := h.setUart port v
          .pure (.inl (port + 1, if opened then h else h.setUart port
            { h.uart port with port := 0xFFFFFFFF }))
      else .pure (.inr h))
    (0, h) fun h => .pure (true, h)

def uartPutc (h : Hal) (port : Nat) (c : UInt8) : Prog UInt8 Bool :=
  if port ≥ 4 then .pure false else Uart.uartPutc (h.uart port) c

def uartGetc (h : Hal) (port : Nat) : Prog UInt8 UInt8 :=
  if port ≥ 4 then .pure 0 else Uart.uartGetc (h.uart port)

def uartPuts (h : Hal) (m : Memory) (port s : Nat) : Prog UInt8 Bool :=
  .iter (fun p => if m p = 0 then .pure (.inr ()) else (h.uartPutc port (m p)).bind fun _ =>
    .pure (.inl (p + 1)))
    s fun _ => .pure true

/-- The length and the memory. -/
def uartGets (h : Hal) (port des maxlen : Nat) (echo : Bool) (m : Memory) :
    Prog UInt8 (Nat × Memory) :=
  if maxlen = 0 then .pure (0, m)
  else if maxlen = 1 then .pure (0, m.writeBytes des [0])
  else
    .loop (fun (len, m) =>
        (h.uartGetc port).bind fun c =>
          if c = 0 ∨ c = 13 ∨ c = 10 then .pure (.inr (len, m.writeBytes (des + len) [0]))
          else
            (if echo then h.uartPutc port c else .pure true).bind fun _ =>
              let m := m.writeBytes (des + len) [c]
              let len := len + 1
              if len + 1 ≥ maxlen then .pure (.inr (len, m.writeBytes (des + len) [0])) else .pure
                (.inl (len, m)))
      (0, m)

end Hal

/-! The loop of `kmain`: `main.cpp`. -/

/-- The addresses of the four strings and of `name`. -/
structure Frame where
  what : Nat
  hello : Nat
  two : Nat
  one : Nat
  name : Nat

def nameSize : Nat := 1024

/-- The loop `for (;;)`, with the memory before it. -/
def greet (h : Hal) (k : Frame) (m : Memory) : Prog UInt8 Empty :=
  .loop (fun m =>
      (h.uartPuts m 0 k.what).bind fun _ =>
        (h.uartGets 0 k.name nameSize true m).bind fun (len, m) =>
          if len > 0 then
            (h.uartPuts m 0 k.hello).bind fun _ =>
              (h.uartPuts m 0 k.name).bind fun _ =>
                (h.uartPuts m 0 k.two).bind fun _ => .pure (.inl m)
          else (h.uartPuts m 0 k.one).bind fun _ => .pure (.inl m))
    m

/-! The conversation. -/

def what : List UInt8 :=
  ['W', 'h', 'a', 't', ' ', 'i', 's', ' ', 'y', 'o', 'u', 'r', ' ', 'n', 'a', 'm', 'e', '?',
    ' '].map Char.toUInt8

def hello : List UInt8 := ['\r', '\n', 'H', 'e', 'l', 'l', 'o', ' '].map Char.toUInt8

def two : List UInt8 := ['\r', '\n', '\r', '\n'].map Char.toUInt8

def one : List UInt8 := ['\r', '\n'].map Char.toUInt8

def IsEnd (c : UInt8) : Prop := c = 0 ∨ c = 13 ∨ c = 10

instance (c : UInt8) : Decidable (IsEnd c) := inferInstanceAs (Decidable (_ ∨ _ ∨ _))

def reply (line : List UInt8) : List UInt8 := if line = [] then one else hello ++ line ++ two

/-- What is put for one more byte, and the line after it. -/
def hear (size : Nat) (line : List UInt8) (c : UInt8) : List UInt8 × List UInt8 :=
  if IsEnd c then (reply line ++ what, [])
  else if line.length + 2 ≥ size then (c :: reply (line ++ [c]) ++ what, [])
  else ([c], line ++ [c])

def lineAfter (size : Nat) : List UInt8 → List UInt8 → List UInt8
  | line, [] => line
  | line, c :: cs => lineAfter size (hear size line c).2 cs

def talk (size : Nat) : List UInt8 → List UInt8 → List UInt8
  | _, [] => []
  | line, c :: cs => (hear size line c).1 ++ talk size (hear size line c).2 cs

/-- All that is put by the time the next byte is waited for, after the bytes that came in. -/
def session (t : List UInt8) : List UInt8 := what ++ talk nameSize [] t

section Talk
variable {size : Nat} {line t u : List UInt8} {c : UInt8}

theorem lineAfter_append : lineAfter size line (t ++ u) = lineAfter size
    (lineAfter size line t) u := by
  induction t generalizing line with
  | nil => rfl
  | cons c t ih => exact ih

theorem talk_append : talk size line (t ++ u) = talk size line t ++ talk size
    (lineAfter size line t) u := by
  induction t generalizing line with
  | nil => rfl
  | cons c t ih =>
    simp only [List.cons_append, talk, lineAfter, ih, List.append_assoc]

theorem session_prefix : session t <+: session (t ++ u) := by
  unfold session
  rw [talk_append, ← List.append_assoc]
  exact List.prefix_append _ _

/-- A line that goes on. -/
def Typed (line : List UInt8) : Prop := ∀ c ∈ line, ¬IsEnd c

theorem Typed.snoc (h : Typed line) (hc : ¬IsEnd c) : Typed (line ++ [c]) := by
  intro b hb
  rcases List.mem_append.mp hb with hb | hb
  · exact h b hb
  · rw [List.mem_singleton.mp hb]
    exact hc

theorem hear_more (hc : ¬IsEnd c) (hroom : line.length + 2 < size) :
    hear size line c = ([c], line ++ [c]) := by
  unfold hear
  rw [if_neg hc, if_neg (by omega)]

theorem talk_line (hu : Typed u) (hroom : line.length + u.length + 1 < size) :
    talk size line u = u ∧ lineAfter size line u = line ++ u := by
  induction u generalizing line with
  | nil => exact ⟨rfl, (List.append_nil line).symm⟩
  | cons c u ih =>
    simp only [List.length_cons] at hroom
    have hc : ¬IsEnd c := hu c (List.mem_cons_self ..)
    have hrest : talk size (line ++ [c]) u = u ∧ lineAfter size (line ++ [c]) u =
        line ++ [c] ++ u :=
      ih (fun b hb => hu b (List.mem_cons_of_mem _ hb))
        (by simp only [List.length_append, List.length_singleton]; omega)
    simp only [talk, lineAfter]
    rw [hear_more hc (by omega), hrest.1, hrest.2, List.append_assoc]
    exact ⟨rfl, rfl⟩

end Talk

end OsdevCourse.Uart
