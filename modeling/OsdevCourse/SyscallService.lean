import OsdevCourse.Kdebug
import OsdevCourse.SchedulerSleep

/-!
# System services: `write` and `usleep`

The services of `syscall_table` that do more than print what they were called with. `write` puts its
bytes out one by one through `kdebug`; `usleep` counts its time in ticks of the timer, of which
there are 18 in a second.
-/

namespace OsdevCourse.Syscall

set_option autoImplicit false

open Memory
open Kdebug (kdebug scan convert turn_short scan_succ scan_nul vaWord_eq)
open Scheduler (Machine Action Step OnTime Conserved Waiting)

/-- A `char` as an argument of `kdebug`; it is signed. -/
def promote (c : UInt8) : UInt32 :=
  if c.toNat < 128 then c.toUInt32 else c.toUInt32 + 0xFFFFFF00

/-- The loop of `kservice_write`, with so many bytes to go: what goes to the port. There is none
when `kdebug` does not come to its end. -/
def writeLoop (m : Memory) (fuel fmt : Nat) : Nat → Nat → Option (List UInt8)
  | 0, _ => some []
  | n + 1, s =>
    match kdebug m fuel fmt [.word (promote (m s))] with
    | (t, true) => (writeLoop m fuel fmt n ((s + 1) % 2 ^ 32)).map (t.out ++ ·)
    | (_, false) => none

/-- `kservice_write`, with the string `"%c"` at `fmt`: the result, and what goes to the port. -/
def kserviceWrite (m : Memory) (fuel fmt : Nat) (s len : UInt32) : Option (UInt32 × List UInt8) :=
  (writeLoop m fuel fmt len.toNat s.toNat).map fun out => (len, out)

/-- The argument of `scheduler_sleep`. -/
def usleepTicks (usec : UInt32) : UInt32 := usec * 18 / 1000 / 1000

/-- `kservice_usleep`, up to the call of `scheduler_yield`. -/
def kserviceUsleep (usec : UInt32) (m : Machine) : Option Machine :=
  Scheduler.step m (.sleep (usleepTicks usec).toNat)

/-! ### `write` -/

/-- The string `"%c"`. -/
def charFormat : List UInt8 := ['%'.toUInt8, 'c'.toUInt8]

/-- A character as a terminal wants it. -/
def onTerminal (c : UInt8) : List UInt8 :=
  if c = '\n'.toUInt8 then ['\r'.toUInt8, '\n'.toUInt8] else [c]

theorem promote_toNat (c : UInt8) :
    (promote c).toNat = if c.toNat < 128 then c.toNat else c.toNat + 0xFFFFFF00 := by
  have hlt := c.toNat_lt
  unfold promote
  split
  · exact UInt8.toNat_toUInt32 c
  · rw [UInt32.toNat_add, UInt8.toNat_toUInt32]
    exact Nat.mod_eq_of_lt (show c.toNat + 0xFFFFFF00 < 2 ^ 32 by omega)

theorem promote_newline (c : UInt8) : (promote c).toNat = 10 ↔ c = '\n'.toUInt8 := by
  have hvalue : c = '\n'.toUInt8 ↔ c.toNat = 10 := UInt8.toNat_inj.symm
  rw [hvalue, promote_toNat]
  split <;> omega

theorem promote_toUInt8 (c : UInt8) : (promote c).toUInt8 = c := by
  have hlt := c.toNat_lt
  apply UInt8.toNat_inj.mp
  rw [UInt32.toNat_toUInt8, promote_toNat]
  split <;> omega

section Write
variable {m : Memory} {fuel fmt : Nat}

theorem kdebug_char (hfmt : CStr m fmt charFormat) (hfuel : 2 ≤ fuel) (c : UInt8) :
    ∃ t, kdebug m fuel fmt [.word (promote c)] = (t, true) ∧ t.out = onTerminal c := by
  obtain ⟨hpercent, hne, hrest⟩ := CStr.cons_iff.mp hfmt
  obtain ⟨hchar, _, hend⟩ := CStr.cons_iff.mp hrest
  have hnul := CStr.nil_iff.mp hend
  let start : Kdebug.State := { p := fmt, args := [.word (promote c)], reads := [], out := [] }
  have hhere : m start.look.p = '%'.toUInt8 := hpercent
  have hturn : Kdebug.turn m fuel start.look = convert m fuel false
      (m (fmt + 1)) start.look.advance :=
    turn_short hhere (by
      show m (fmt + 1) ≠ _
      rw [hchar]
      decide)
  have hconvert : convert m fuel false (m (fmt + 1)) start.look.advance =
      .ok ((if (promote c).toNat = 10 then { start.look.advance with args := [] }.putc '\r'.toUInt8
        else { start.look.advance with args := [] }).putc (promote c).toUInt8) := by
    rw [hchar]
    unfold convert
    rw [if_neg (by decide), if_neg (by decide), if_neg (by decide), if_pos rfl, vaWord_eq rfl]
  rw [hconvert] at hturn
  have hsplit : fuel = fuel - 2 + 1 + 1 := by omega
  have hscan : kdebug m fuel fmt [.word (promote c)] = scan m fuel (fuel - 2 + 1 + 1) start := by
    rw [← hsplit]
    rfl
  have hstart : m start.p ≠ 0 := by
    show m fmt ≠ 0
    rw [hpercent]
    exact hne
  rw [hscan, scan_succ hstart hturn]
  by_cases hnewline : (promote c).toNat = 10
  · simp only [if_pos hnewline]
    rw [scan_nul hnul]
    refine ⟨_, rfl, ?_⟩
    have hc := (promote_newline c).mp hnewline
    rw [onTerminal, if_pos hc, promote_toUInt8, hc]
    rfl
  · simp only [if_neg hnewline]
    rw [scan_nul hnul]
    refine ⟨_, rfl, ?_⟩
    have hc : c ≠ '\n'.toUInt8 := fun heq => hnewline ((promote_newline c).mpr heq)
    rw [onTerminal, if_neg hc, promote_toUInt8]
    rfl

theorem writeLoop_eq (hfmt : CStr m fmt charFormat) (hfuel : 2 ≤ fuel) {n s : Nat}
    (hbelow : s + n ≤ 2 ^ 32) :
    writeLoop m fuel fmt n s = some ((readBytes m s n).flatMap onTerminal) := by
  induction n generalizing s with
  | zero => rfl
  | succ n ih =>
    obtain ⟨t, hchar, hout⟩ := kdebug_char hfmt hfuel (m s)
    rw [writeLoop, hchar, readBytes_succ, List.flatMap_cons, ← hout]
    cases n with
    | zero => rfl
    | succ n =>
      simp only
      rw [Nat.mod_eq_of_lt (by omega), ih (by omega)]
      rfl

/-- All bytes are put out as they are, directives and NULs too, and all are counted. -/
theorem write_puts_every_byte (hfmt : CStr m fmt charFormat) (hfuel : 2 ≤ fuel) {s len : UInt32}
    (hbelow : s.toNat + len.toNat ≤ 2 ^ 32) :
    kserviceWrite m fuel fmt s len = some
      (len, (readBytes m s.toNat len.toNat).flatMap onTerminal) := by
  unfold kserviceWrite
  rw [writeLoop_eq hfmt hfuel hbelow]
  rfl

/-- The four bytes `"%s\n"` and NUL. -/
theorem write_puts_every_byte_directive :
    kserviceWrite (writeBytes (writeBytes (fun _ => 0) 0x100 charFormat) 0x200
      ['%'.toUInt8, 's'.toUInt8, '\n'.toUInt8]) 2 0x100 0x200 4 =
        some (4, ['%'.toUInt8, 's'.toUInt8, '\r'.toUInt8, '\n'.toUInt8, 0]) := by
  have hfmt : CStr (writeBytes (writeBytes (fun _ => 0) 0x100 charFormat) 0x200
      ['%'.toUInt8, 's'.toUInt8, '\n'.toUInt8]) 0x100 charFormat := by
    apply CStr.cons_iff.mpr
    refine ⟨by decide, by decide, CStr.cons_iff.mpr
      ⟨by decide, by decide, CStr.nil_iff.mpr (by decide)⟩⟩
  rw [write_puts_every_byte hfmt (Nat.le_refl 2) (by decide)]
  decide

end Write

/-! ### `usleep` -/

theorem usleepTicks_toNat (usec : UInt32) :
    (usleepTicks usec).toNat = usec.toNat * 18 % 2 ^ 32 / 1000000 := by
  unfold usleepTicks
  rw [UInt32.toNat_div, UInt32.toNat_div, UInt32.toNat_mul, Nat.div_div_eq_div_mul]
  rfl

/-- The time that is asked for is slept exactly where it does not wrap. -/
theorem usleepTicks_exact_iff (usec : UInt32) :
    (usleepTicks usec).toNat = usec.toNat * 18 / 1000000 ↔ usec.toNat * 18 < 2 ^ 32 := by
  rw [usleepTicks_toNat]
  omega

-- Four minutes are no time at all.
example : usleepTicks 238609295 = 0 := by decide

/-- A thread that calls `usleep` is asleep for the ticks that its time comes to, which is the time
it asked for as long as the product does not wrap; where it wraps to less than a tick it does not
sleep. -/
theorem usleep_waits {m₀ m₁ m₂ : Machine} {as₀ as : List Action} {usec : UInt32}
    (hreach : Run Step Machine.init as₀ m₀) (hcall : kserviceUsleep usec m₀ = some m₁)
    (helapsed : m₀.sched.elapsed = 0) (hrun : Run (Guarded Step OnTime) m₁ as m₂)
    (hawake : (m₂.sched.tcb m₀.sched.current).flags.slept = false) :
    (usleepTicks usec).toNat ≤ as.count .tick ∧
    ((usleepTicks usec).toNat = usec.toNat * 18 / 1000000 ↔ usec.toNat * 18 < 2 ^ 32) ∧
    ((usleepTicks usec).toNat = 0 → m₁ = m₀) := by
  have hsleep : Step m₀ (.sleep (usleepTicks usec).toNat) m₁ := hcall
  refine ⟨?_, usleepTicks_exact_iff usec, fun hzero => ?_⟩
  · rcases Nat.eq_zero_or_pos (usleepTicks usec).toNat with hzero | hpos
    · omega
    · obtain ⟨v, hv, hwait⟩ := Waiting.of_sleep hreach hsleep hpos helapsed hrun
      exact hwait.awake hv hawake
  · obtain ⟨_, heq⟩ := Option.ite_none_right_eq_some.mp hsleep
    rw [hzero] at heq
    exact (Option.some.inj heq).symm

/-- A thread that asks for 60 ms. -/
theorem usleep_waits_60000 : ∃ m₀ m₁ m₂ : Machine,
    Run Step Machine.init [.run 1 3 4 0, .tick] m₀ ∧ kserviceUsleep 60000 m₀ = some m₁ ∧
    Run (Guarded Step OnTime) m₁ [.yield, .tick, .yield] m₂ ∧
    (usleepTicks 60000).toNat ≤ [Action.yield, .tick, .yield].count .tick := by
  have hticks : (usleepTicks 60000).toNat = 1 := by decide
  obtain ⟨m₀, m₁, m₂, hreach, hsleep, helapsed, hrun, hawake⟩ := Scheduler.short_sleep
  have hcall : kserviceUsleep 60000 m₀ = some m₁ := by
    unfold kserviceUsleep
    rw [hticks]
    exact hsleep
  exact ⟨m₀, m₁, m₂, hreach, hcall, hrun, (usleep_waits hreach hcall helapsed hrun hawake).1⟩

end OsdevCourse.Syscall
