import OsdevCourse.ThreadFrames
import OsdevCourse.TrapStubs

/-!
# Every program has a processor of its own

Threads leave ring 0 by `enter_ring3` and come back by the timer, by page faults and by system
calls; behind each of these the kernel runs what it likes, other threads for the most part.
`Virtual` is what the programs are to know of this: a program's registers change by its own
instructions, and by the result of a system call.

The stubs save no data segment. The selectors are those of ring 3 from the first `enter_ring3` on,
in the kernel too.
-/

namespace OsdevCourse.Traps

set_option autoImplicit false

open I686 ContextSwitch

def Image.kernel (i : Image) : ContextSwitch.Kernel where
  current := i.gScheduler + 8
  tssEsp0 := i.tss + 4
  schedulerPick := i.schedulerPick
  back := i.pickBack

/-- Where the kernel stack of a thread begins for an interrupt from ring 3. -/
def top (s : System) (t : UInt32) : Nat := (contextAt s.cpu.mem t .esp0).toNat

/-- What the stub of a trap keeps on the stack of a thread. -/
def reserved (s : System) (t : UInt32) (trap : Trap) (n : Nat) : Prop :=
  top s t - trap.kept ≤ n ∧ n < top s t

/-- What a thread is in the middle of. -/
inductive Mode where
  | kernel
  | user
  | trapped (t : Trap) (u : User)

structure Os where
  sys : System
  seg : Segment → UInt16
  cr2 : UInt32
  mode : UInt32 → Mode

namespace Os

def core (s : Os) : Core := ⟨s.sys.cpu, s.seg, s.cr2⟩

def current (i : Image) (s : Os) : UInt32 := s.sys.current i.kernel

/-- The processor goes on in the current thread. -/
def withCore (s : Os) (c : Core) : Os :=
  { s with sys := { s.sys with cpu := c.cpu }, seg := c.seg, cr2 := c.cr2 }

def setMode (s : Os) (t : UInt32) (m : Mode) : Os :=
  { s with mode := fun u => if u = t then m else s.mode u }

/-- What is kept on the stack of a thread. -/
def keep (s : Os) (t : UInt32) (n : Nat) : Prop :=
  match s.mode t with
  | .trapped trap _ => reserved s.sys t trap n
  | .kernel | .user => False

end Os

inductive Act where
  | instruction (cpu : Cpu)
  | trap (t : Trap)
  | refuse
  | kernel (a : ContextSwitch.Action)
  | leave
  | start (eip esp : UInt32)

/-- What ring 3 lets a program do: the pages of the kernel are not its own, and neither are IF and
IOPL. A program leaves the segment registers alone. -/
structure Unprivileged (s : Os) (cpu : Cpu) : Prop where
  mem : ∀ n, s.sys.place n ≠ .other → cpu.mem n = s.sys.cpu.mem n
  eflags : cpu.eflags.image &&& 0x3200 = s.sys.cpu.eflags.image &&& 0x3200

/-- The TSS is for `scheduler_yield` to write. Every caller of `tcb_init` asks for a stack of a
page. -/
structure Orderly (s : System) (a : ContextSwitch.Action) : Prop where
  tss : ∀ cpu, a = .exec cpu → ∀ n, s.place n = .tss → cpu.mem n = s.cpu.mem n
  stack : ∀ tcb kstack args, a = .create tcb kstack args → args.kstackSize = 4096

/-- What the kernel's own code leaves alone. -/
structure KernelCode (i : Image) (s : Os) (a : ContextSwitch.Action) :
    Prop extends Orderly s.sys a where
  keeps : Keeps i.kernel (s.current i) (s.keep (s.current i)) s.sys a

/-- The handler in C has returned to its stub. -/
structure Returned (i : Image) (s : Os) (t : Trap) (u : User) : Prop where
  eip : s.sys.cpu.eip = t.back i
  esp : (s.sys.cpu.reg .esp).toNat = top s.sys (s.current i) - t.size + 4
  ebp : s.sys.cpu.reg .ebp = u.reg .ebp

/-- `enter_ring3` has been called on the kernel stack. -/
structure Called (i : Image) (s : Os) (eip esp : UInt32) : Prop where
  words : ∃ back, Words s.sys.cpu.mem (s.sys.cpu.reg .esp).toNat [back, eip, esp]
  room : 20 ≤ (s.sys.cpu.reg .esp).toNat
  bound : (s.sys.cpu.reg .esp).toNat + 12 < 2 ^ 32
  stack : ∀ n, (s.sys.cpu.reg .esp).toNat - 20 ≤ n → n < (s.sys.cpu.reg .esp).toNat →
    s.sys.place n = .stack (s.current i)

/-- The modes after a step of the kernel's own code: a thread that is freed is forgotten. -/
def forget (mode : UInt32 → Mode) : ContextSwitch.Action → UInt32 → Mode
  | .reap t => fun u => if u = t then .kernel else mode u
  | .exec _ | .create _ _ _ | .yield _ => mode

/-- `boot` is the thread of `kmain`. -/
inductive Step (i : Image) (boot : UInt32) : Os → Act → Os → Prop where
  | instruction {s : Os} {cpu : Cpu} : s.mode (s.current i) = .user → Unprivileged s cpu →
    Step i boot s (.instruction cpu) (s.withCore { s.core with cpu := cpu })
  | trap {s : Os} {t : Trap} : s.mode (s.current i) = .user →
    (t = .syscall → Trap.Served i s.core (top s.sys (s.current i))) →
    Step i boot s (.trap t)
      ((s.withCore (t.enter i s.core)).setMode (s.current i) (.trapped t (userOf s.core)))
  | refuse {s : Os} : s.mode (s.current i) = .user → syscallFaults s.core = true →
    Step i boot s .refuse
      (s.withCore (syscallFault i (s.core.interrupt i.tss (Trap.syscall.gate i) none)))
  | kernel {s : Os} {a : ContextSwitch.Action} {sys : System} : s.mode (s.current i) ≠ .user →
    ContextSwitch.Step i.kernel s.sys a sys → KernelCode i s a →
    Step i boot s (.kernel a) { s with sys := sys, mode := forget s.mode a }
  | leave {s : Os} {t : Trap} {u : User} : s.mode (s.current i) = .trapped t u → Returned i s t u →
    Step i boot s .leave ((s.withCore (t.leave i s.core)).setMode (s.current i) .user)
  | start {s : Os} {eip esp : UInt32} : s.mode (s.current i) = .kernel → s.current i ≠ boot →
    Called i s eip esp →
    Step i boot s (.start eip esp) ((s.withCore (enterRing3 i s.core)).setMode (s.current i) .user)

/-! The programs. -/

abbrev Programs := UInt32 → Option User

/-- The program of a thread: what it finds in the processor when it runs. -/
def Mode.program (m : Mode) (c : Core) : Option User :=
  match m with
  | .kernel => none
  | .user => some (userOf c)
  | .trapped _ u => some u

def Os.program (s : Os) : Programs := fun t => (s.mode t).program s.core

inductive Event where
  | own (t : UInt32) (u : User)
  | result (t eax : UInt32)
  | begin (t : UInt32) (u : User)
  | finish (t : UInt32)
  | idle

def Programs.set (p : Programs) (t : UInt32) (u : Option User) : Programs :=
  fun t' => if t' = t then u else p t'

/-- A program goes on by its own instructions and by results of system calls. -/
inductive Virtual : Programs → Event → Programs → Prop where
  | own {p : Programs} {t : UInt32} {u u' : User} : p t = some u → u'.seg = u.seg →
    Virtual p (.own t u') (p.set t (some u'))
  | result {p : Programs} {t eax : UInt32} {u : User} : p t = some u →
    Virtual p (.result t eax) (p.set t (some (Trap.withResult u eax)))
  | begin {p : Programs} {t : UInt32} {u : User} :
    p t = none → Virtual p (.begin t u) (p.set t (some u))
  | finish {p : Programs} {t : UInt32} : Virtual p (.finish t) (p.set t none)
  | idle {p : Programs} : Virtual p .idle p

/-- What a step is to the programs. -/
def event (i : Image) (s : Os) : Act → Event
  | .instruction cpu => .own (s.current i) (userOf { s.core with cpu := cpu })
  | .trap _ => .idle
  | .refuse => .result (s.current i) (-1)
  | .kernel (.reap t) => .finish t
  | .kernel (.exec _) | .kernel (.create _ _ _) | .kernel (.yield _) => .idle
  | .leave =>
    match s.mode (s.current i) with
    | .trapped .syscall _ => .result (s.current i) (s.sys.cpu.reg .eax)
    | _ => .idle
  | .start eip esp => .begin (s.current i) (Trap.started s.sys.cpu.reg eip esp)

/-- The thread that an event is about. -/
def Event.thread : Event → Option UInt32
  | .own t _ | .result t _ | .begin t _ | .finish t => some t
  | .idle => none

theorem Virtual.other {p p' : Programs} {e : Event} {t : UInt32} (h : Virtual p e p')
    (ht : e.thread ≠ some t) :
    p' t = p t := by
  cases h with
  | idle => rfl
  | own | result | begin | finish => exact if_neg fun heq => ht (congrArg some heq.symm)

/-- Before a thread has run: `scheduler_init` has made the thread of `kmain` the current one. -/
structure Booted (i : Image) (boot : UInt32) (s : Os) : Prop where
  booted : ContextSwitch.Booted i.kernel s.sys
  boot : s.current i = boot
  tss : ∀ n, i.tss.toNat + 4 ≤ n → n < i.tss.toNat + 12 → s.sys.place n = .tss
  fits : i.tss.toNat + 12 ≤ 2 ^ 32
  ss0 : load s.sys.cpu.mem (i.tss + 8) = SEG_DATA32_0
  mode : ∀ t, s.mode t = .kernel
  cs : s.seg .cs = SEG_CODE32_0.toUInt16
  ss : s.seg .ss = SEG_DATA32_0.toUInt16

/-! The invariant. -/

/-- A program can be interrupted, and has no access to the ports. -/
def Interruptible (f : Eflags) : Prop := f.image &&& 0x3200 = 0x200

/-- A kernel stack that has room for an interrupt from ring 3. -/
structure Roomy (s : System) (t : UInt32) : Prop where
  below : 72 ≤ top s t
  above : top s t + 48 < 2 ^ 32
  stack : ∀ n, top s t - 72 ≤ n → n < top s t → s.place n = .stack t

/-- The TSS names the stack of the current thread, and it is there. -/
structure Ground (i : Image) (boot : UInt32) (s : System) : Prop where
  sane : Sane i.kernel s
  tss : ∀ n, i.tss.toNat + 4 ≤ n → n < i.tss.toNat + 12 → s.place n = .tss
  fits : i.tss.toNat + 12 ≤ 2 ^ 32
  ss0 : load s.cpu.mem (i.tss + 8) = SEG_DATA32_0
  esp0 : s.current i.kernel ≠ boot →
    load s.cpu.mem (i.tss + 4) = contextAt s.cpu.mem (s.current i.kernel) .esp0
  roomy : ∀ t ∈ s.threads, t ≠ boot → Roomy s t

/-- A thread that is to return to its program. -/
structure Saved (i : Image) (s : System) (t : UInt32) (trap : Trap) (u : User) : Prop where
  aside : SetAside i.kernel t (reserved s t trap) s
  words : ∃ sp, Words s.cpu.mem (top s t - trap.kept) (trap.saved sp u)
  seg : u.seg = userSeg
  eflags : Interruptible u.eflags

structure Inv (i : Image) (boot : UInt32) (s : Os) : Prop where
  ground : Ground i boot s.sys
  boot : s.mode boot = .kernel
  alive : ∀ t, s.mode t ≠ .kernel → t ∈ s.sys.threads
  one : ∀ t, s.mode t = .user → t = s.current i
  ring0 : s.mode (s.current i) ≠ .user →
    s.seg .cs = SEG_CODE32_0.toUInt16 ∧ s.seg .ss = SEG_DATA32_0.toUInt16
  data : (∃ t, s.mode t ≠ .kernel) → ∀ r, r ≠ .cs → r ≠ .ss → s.seg r = (SEG_DATA32_3 + 3).toUInt16
  ring3 : s.mode (s.current i) = .user → s.seg = userSeg ∧ Interruptible s.sys.cpu.eflags
  saved : ∀ t trap u, s.mode t = .trapped trap u → Saved i s.sys t trap u

section Ground
variable {i : Image} {boot t tcb kstack : UInt32} {s s' : System}
    {a : ContextSwitch.Action} {trap : Trap}
  {u : User} {args : TcbArgs} {n : Nat}

theorem tss_word (hfits : i.tss.toNat + 12 ≤ 2 ^ 32) : (i.tss + 4).toNat = i.tss.toNat + 4 ∧
    (i.tss + 8).toNat = i.tss.toNat + 8 :=
  ⟨toNat_add_offset (k := 4) (by omega), toNat_add_offset (k := 8) (by omega)⟩

/-- A step keeps the context of every thread but for what a switch saves of the current one. -/
theorem top_kept (h : Sane i.kernel s) (hstep : ContextSwitch.Step i.kernel s a s')
    (ht : t ∈ s.threads) :
    contextAt s'.cpu.mem t .esp0 = contextAt s.cpu.mem t .esp0 := by
  by_cases hcurrent : s.current i.kernel = t
  · cases hstep with
    | exec hforeign =>
      rw [h.contextAt_congr ht]
      intro n hn
      exact hforeign n (by rw [hn]; trivial)
    | create hfresh hnew htcb hstack =>
      rw [h.contextAt_congr ht]
      intro n hn
      exact (create_other hfresh htcb hstack (by simp [hn])).2
    | reap => rfl
    | yield hroom hpicked =>
      have hswitched := h.switched (Step.yield hroom hpicked)
      rw [hswitched.context t ht, nextContext, if_pos hcurrent.symm]
      rfl
  · rw [hstep.context_kept h ht hcurrent]

theorem Roomy.congr (h : Roomy s t)
    (htop : contextAt s'.cpu.mem t .esp0 = contextAt s.cpu.mem t .esp0)
    (hplace : ∀ n, s.place n = .stack t → s'.place n = .stack t) : Roomy s' t := by
  have hsame : top s' t = top s t := congrArg UInt32.toNat htop
  refine ⟨?_, ?_, fun n hlo hhi => hplace n (h.stack n ?_ ?_)⟩
  · rw [hsame]
    exact h.below
  · rw [hsame]
    exact h.above
  · rw [← hsame]
    exact hlo
  · rw [← hsame]
    exact hhi

theorem Roomy.create (hfresh : Fresh tcb kstack args) (hsize : args.kstackSize = 4096) :
    Roomy (s.create tcb kstack args) tcb := by
  obtain ⟨_, _, _, hesp⟩ := hfresh.words
  have hstack := hfresh.stack
  have hpage : args.kstackSize.toNat = 4096 := by
    rw [hsize]
    rfl
  have htop : top (s.create tcb kstack args) tcb = kstack.toNat + 4048 := by
    have hcontext := contextAt_tcbInit (m := s.cpu.mem) hfresh
    have hfirst : top (s.create tcb kstack args) tcb =
        (firstEsp kstack args - UInt32.ofNat 32).toNat :=
      congrArg UInt32.toNat (congrFun hcontext .esp0)
    rw [hfirst, toNat_sub_offset (by omega)]
    omega
  refine ⟨by omega, by omega, fun n hlo hhi => ?_⟩
  exact newPlace_stack hfresh (by omega) (by omega)

theorem tss_kept (hstep : ContextSwitch.Step i.kernel s a s') (ho : Orderly s a)
    (hyield : ∀ returned, a ≠ .yield returned) (hn : s.place n = .tss) :
    s'.cpu.mem n = s.cpu.mem n ∧ s'.place n = .tss := by
  cases hstep with
  | exec hforeign => exact ⟨ho.tss _ rfl n hn, hn⟩
  | create hfresh hnew htcb hstack =>
    have hkept := create_other (s := s) hfresh htcb hstack (n := n) (by simp [hn])
    exact ⟨hkept.2, hkept.1.trans hn⟩
  | reap => exact ⟨rfl, freedPlace_of_ne hn (by simp) (by simp) (by simp)⟩
  | yield => exact absurd rfl (hyield _)

theorem Ground.step (h : Ground i boot s) (hstep : ContextSwitch.Step i.kernel s a s')
    (ho : Orderly s a) :
    Ground i boot s' := by
  obtain ⟨hfour, height⟩ := tss_word h.fits
  have hroomy : ∀ t ∈ s.threads, a ≠ .reap t → t ≠ boot → Roomy s' t := by
    intro t ht hreap hboot
    have hthread := hstep.thread h.sane ht hreap
    exact (h.roomy t ht hboot).congr (top_kept h.sane hstep ht) fun n => (hthread.2 n).mpr
  by_cases hyield : ∃ returned, a = .yield returned
  · -- the switch puts the stack of the next thread into the TSS
    obtain ⟨returned, rfl⟩ := hyield
    have hswitched := h.sane.switched hstep
    have hplace := hswitched.place
    refine ⟨h.sane.step hstep, ?_, h.fits, ?_, ?_, ?_⟩
    · rw [hplace]
      exact h.tss
    · rw [← h.ss0]
      apply load_congr
      intro n hlo hhi
      have hword : i.kernel.tssEsp0.toNat = i.tss.toNat + 4 := hfour
      exact h.sane.yield_tss hstep (h.tss n (by omega) (by omega)) (by omega)
    · intro _
      have htss : load s'.cpu.mem (i.tss + 4) = _ := hswitched.tss
      rw [htss, hswitched.context _ hswitched.target]
    · intro t ht
      rw [hswitched.threads] at ht
      exact hroomy t ht (by simp)
  · have hne : ∀ returned, a ≠ .yield returned := fun returned heq => hyield ⟨returned, heq⟩
    have hkept : ∀ n, s.place n = .tss → s'.cpu.mem n = s.cpu.mem n ∧ s'.place n = .tss := fun n =>
      tss_kept hstep ho hne
    have hcurrent := hstep.current_kept h.sane hne
    refine ⟨h.sane.step hstep, fun n hlo hhi => (hkept n (h.tss n hlo hhi)).2, h.fits, ?_, ?_, ?_⟩
    · rw [← h.ss0]
      apply load_congr
      intro n hlo hhi
      exact (hkept n (h.tss n (by omega) (by omega))).1
    · rw [hcurrent]
      intro hboot
      rw [top_kept h.sane hstep h.sane.running, ← h.esp0 hboot]
      apply load_congr
      intro n hlo hhi
      exact (hkept n (h.tss n (by omega) (by omega))).1
    · intro t ht hboot
      cases hstep with
      | exec hforeign => exact hroomy t ht (by simp) hboot
      | create hfresh hnew htcb hstack =>
        rcases List.mem_cons.mp ht with rfl | hold
        · exact Roomy.create hfresh (ho.stack _ _ _ rfl)
        · exact hroomy t hold (by simp) hboot
      | @reap tcb hne =>
        obtain ⟨hold, hdec⟩ := List.mem_filter.mp ht
        have htcb : t ≠ tcb := by simpa using hdec
        exact hroomy t hold (by simpa using htcb.symm) hboot
      | yield => exact absurd rfl (hne _)

theorem saved_length (trap : Trap) (sp : UInt32) (u : User) :
    4 * (trap.saved sp u).length = trap.kept := by
  cases trap <;> rfl

theorem Saved.step (h : Saved i s t trap u) (hsane : Sane i.kernel s) (hroomy : Roomy s t)
    (hstep : ContextSwitch.Step i.kernel s a s')
    (hkeeps : Keeps i.kernel t (reserved s t trap) s a) :
    Saved i s' t trap u := by
  obtain ⟨haside, hmem⟩ := h.aside.step hsane hstep hkeeps
  have hbelow := hroomy.below
  have htop : top s' t = top s t := congrArg UInt32.toNat (top_kept hsane hstep h.aside.mem)
  have hreserved : reserved s' t trap = reserved s t trap := by
    unfold reserved
    rw [htop]
  refine ⟨hreserved ▸ haside, ?_, h.seg, h.eflags⟩
  obtain ⟨sp, hwords⟩ := h.words
  refine ⟨sp, ?_⟩
  rw [htop]
  apply hwords.congr
  intro n hlo hhi
  rw [saved_length] at hhi
  have hkept : trap.kept ≤ 72 := by
    cases trap <;> simp [Trap.kept]
  exact hmem n ⟨hlo, by omega⟩

end Ground

/-! The processor goes on in the current thread. -/

/-- What is written is on the stack of the current thread, or nobody's. -/
def Own (i : Image) (s : System) (cpu : Cpu) : Prop :=
  ∀ n, cpu.mem n ≠ s.cpu.mem n → s.place n = .other ∨ s.place n = .stack (s.current i.kernel)

section Own
variable {i : Image} {boot : UInt32} {s : Os} {c : Core} {m : Mode} {t : UInt32}
    {sys : System} {cpu : Cpu}

theorem Own.step (h : Own i sys cpu) :
    ContextSwitch.Step i.kernel sys (.exec cpu) { sys with cpu := cpu } := by
  refine .exec fun n hn => ?_
  by_contra hne
  rcases h n hne with hother | hstack
  · rw [hother] at hn
    exact hn
  · rw [hstack] at hn
    exact hn rfl

theorem Own.orderly (h : Own i sys cpu) : Orderly sys (.exec cpu) := by
  refine ⟨fun cpu' heq n hn => ?_, fun _ _ _ heq => by cases heq⟩
  cases heq
  by_contra hne
  rcases h n hne with hother | hstack
  · simp [hn] at hother
  · simp [hn] at hstack

theorem Own.of_stack {lo hi : Nat} (hout : ∀ n, n < lo ∨ hi ≤ n → cpu.mem n = sys.cpu.mem n)
    (hstack : ∀ n, lo ≤ n → n < hi → sys.place n = .stack (sys.current i.kernel)) :
    Own i sys cpu := by
  intro n hne
  apply Or.inr
  apply hstack
  · by_contra hlt
    exact hne (hout n (Or.inl (by omega)))
  · by_contra hge
    exact hne (hout n (Or.inr (by omega)))

@[simp] theorem setMode_self : (s.setMode t m).mode t = m := if_pos rfl

theorem setMode_other {t' : UInt32} (h : t' ≠ t) : (s.setMode t m).mode t' = s.mode t' := if_neg h

theorem setMode_same (h : s.mode t = m) : s.setMode t m = s := by
  unfold Os.setMode
  congr 1
  funext t'
  by_cases ht : t' = t
  · rw [if_pos ht, ht, h]
  · rw [if_neg ht]

/-- The mode that the current thread goes on in. -/
structure Fits (i : Image) (boot : UInt32) (s : Os) (c : Core) (m : Mode) : Prop where
  notBoot : s.current i ≠ boot
  ring0 : m ≠ .user → c.seg .cs = SEG_CODE32_0.toUInt16 ∧ c.seg .ss = SEG_DATA32_0.toUInt16
  data : ∀ r, r ≠ .cs → r ≠ .ss → c.seg r = (SEG_DATA32_3 + 3).toUInt16
  ring3 : m = .user → c.seg = userSeg ∧ Interruptible c.cpu.eflags
  saved : ∀ trap u, m = .trapped trap u → Saved i { s.sys with cpu := c.cpu } (s.current i) trap u

theorem Inv.own (h : Inv i boot s) (hown : Own i s.sys c.cpu) (hfits : Fits i boot s c m) :
    Inv i boot ((s.withCore c).setMode (s.current i) m) := by
  have hstep := hown.step
  have hcurrent : ((s.withCore c).setMode (s.current i) m).current i = s.current i :=
    hstep.current_kept h.ground.sane fun _ heq => by cases heq
  refine ⟨h.ground.step hstep hown.orderly, ?_, fun t ht => ?_, fun t ht => ?_, ?_, ?_, ?_,
    fun t trap u ht => ?_⟩
  · rw [setMode_other hfits.notBoot.symm]
    exact h.boot
  · by_cases hself : t = s.current i
    · rw [hself]
      exact h.ground.sane.running
    · rw [setMode_other hself] at ht
      exact h.alive t ht
  · rw [hcurrent]
    by_contra hself
    rw [setMode_other hself] at ht
    exact hself (h.one t ht)
  · rw [hcurrent, setMode_self]
    exact hfits.ring0
  · exact fun _ => hfits.data
  · rw [hcurrent, setMode_self]
    exact hfits.ring3
  · by_cases hself : t = s.current i
    · subst hself
      rw [setMode_self] at ht
      exact hfits.saved trap u ht
    · rw [setMode_other hself] at ht
      have hsaved := h.saved t trap u ht
      have hboot : t ≠ boot := by
        rintro rfl
        have hkernel := h.boot
        have heq : s.mode t = .trapped trap u := ht
        rw [hkernel] at heq
        cases heq
      exact hsaved.step h.ground.sane (h.ground.roomy t hsaved.aside.mem hboot) hstep
        (keeps_of_ne (fun heq => hself heq.symm) (by simp))

end Own

/-! What each step does. -/

section Steps
variable {i : Image} {boot t eip esp : UInt32} {s s' : Os} {c : Core} {m : Mode}
    {trap : Trap} {u : User}
  {cpu : Cpu}

theorem interruptible_congr {f f' : Eflags} (h : Interruptible f)
    (hsame : f'.image &&& 0x3200 = f.image &&& 0x3200) :
    Interruptible f' := hsame.trans h

theorem userSeg_data {r : Segment} (hcs : r ≠ .cs) :
    userSeg r = (SEG_DATA32_3 + 3).toUInt16 := if_neg hcs

theorem cpl_user (h : c.seg = userSeg) : c.cpl ≠ 0 := by
  unfold Core.cpl
  rw [h]
  decide

theorem cpl_kernel (h : c.seg .cs = SEG_CODE32_0.toUInt16) : c.cpl = 0 := by
  unfold Core.cpl
  rw [h]
  decide

theorem Inv.notBoot (h : Inv i boot s) (hmode : s.mode t ≠ .kernel) : t ≠ boot := by
  rintro rfl
  exact hmode h.boot

/-- The kernel stack of the current thread, where a trap from its program begins. -/
theorem Inv.trap_top (h : Inv i boot s) (hboot : s.current i ≠ boot) :
    (load s.sys.cpu.mem (i.tss + 4)).toNat = top s.sys (s.current i) ∧ Roomy s.sys (s.current i) :=
  ⟨congrArg UInt32.toNat (h.ground.esp0 hboot), h.ground.roomy _ h.ground.sane.running hboot⟩

theorem Own.kept (h : Inv i boot s) (hown : Own i s.sys cpu) :
    System.current i.kernel { s.sys with cpu := cpu } = s.current i ∧
    top { s.sys with cpu := cpu } (s.current i) = top s.sys (s.current i) :=
  ⟨hown.step.current_kept h.ground.sane (fun _ heq => by cases heq),
    congrArg UInt32.toNat (top_kept h.ground.sane hown.step h.ground.sane.running)⟩

theorem Inv.instruction (h : Inv i boot s) (hmode : s.mode (s.current i) = .user)
    (hcpu : Unprivileged s cpu) :
    Inv i boot (s.withCore { s.core with cpu := cpu }) := by
  obtain ⟨hseg, hflags⟩ := h.ring3 hmode
  have hown : Own i s.sys cpu := by
    intro n hne
    by_contra hplace
    exact hne (hcpu.mem n fun hother => hplace (Or.inl hother))
  have hfits : Fits i boot s { s.core with cpu := cpu } .user := by
    refine ⟨h.notBoot (by simp [hmode]), fun hne => absurd rfl hne, fun r hcs _ => ?_,
      fun _ => ⟨hseg, ?_⟩,
      fun _ _ heq => by cases heq⟩
    · exact (congrFun hseg r).trans (userSeg_data hcs)
    · exact interruptible_congr hflags hcpu.eflags
  have hnext := h.own hown hfits
  rwa [setMode_same] at hnext
  exact hmode

theorem Inv.entered (h : Inv i boot s) (hmode : s.mode (s.current i) = .user)
    (hserved : trap = .syscall → Trap.Served i s.core (top s.sys (s.current i))) :
    ∃ sp, Trap.Entered i trap s.core (trap.enter i s.core) (top s.sys (s.current i)) sp := by
  obtain ⟨hseg, _⟩ := h.ring3 hmode
  obtain ⟨htop, hroomy⟩ := h.trap_top (h.notBoot (by simp [hmode]))
  have hbelow := hroomy.below
  rw [← htop] at hbelow hserved ⊢
  exact Trap.enter_spec (cpl_user hseg) hbelow hserved

theorem Inv.trapped (h : Inv i boot s) (hmode : s.mode (s.current i) = .user)
    (hserved : trap = .syscall → Trap.Served i s.core (top s.sys (s.current i))) :
    Inv i boot ((s.withCore (trap.enter i s.core)).setMode (s.current i)
      (.trapped trap (userOf s.core))) := by
  obtain ⟨hseg, hflags⟩ := h.ring3 hmode
  have hboot := h.notBoot (t := s.current i) (by simp [hmode])
  obtain ⟨_, hroomy⟩ := h.trap_top hboot
  have hbelow := hroomy.below
  obtain ⟨sp, hentered⟩ := h.entered hmode hserved
  generalize trap.enter i s.core = τ at hentered
  have hsize : trap.size ≤ 72 ∧ trap.kept ≤ trap.size := by
    cases trap <;> simp [Trap.size, Trap.kept]
  have hwords : trap.size = 4 + 4 * (trap.given (userOf s.core)).length + trap.kept := by
    cases trap <;> rfl
  have hown : Own i s.sys τ.cpu :=
    Own.of_stack hentered.out fun n hlo hhi => hroomy.stack n (by omega) hhi
  obtain ⟨hcurrent, htop'⟩ := hown.kept h
  apply h.own hown
  refine ⟨hboot, fun _ => ⟨hentered.cs, ?_⟩, fun r hcs hss => ?_, (fun huser => by cases huser),
    fun trap' u heq => ?_⟩
  · rw [hentered.ss]
    exact congrArg UInt32.toUInt16 h.ground.ss0
  · rw [hentered.data r hcs hss]
    exact (congrFun hseg r).trans (userSeg_data hcs)
  · cases heq
    refine ⟨⟨h.ground.sane.running, fun n hn => ?_, fun hne => absurd hcurrent hne⟩,
      ⟨sp, ?_⟩, hseg, hflags⟩
    · unfold reserved at hn
      rw [htop'] at hn
      exact hroomy.stack n (by omega) hn.2
    · rw [htop']
      have hesp := hentered.esp
      have hall := hentered.words
      rw [hesp] at hall
      have hrest := (words_append.mp hall.2).2
      have hat : top s.sys (s.current i) - trap.size + 4 + 4 * (trap.given (userOf s.core)).length =
          top s.sys (s.current i) - trap.kept := by omega
      rw [hat] at hrest
      exact hrest

theorem Inv.returned (h : Inv i boot s) (hboot : s.current i ≠ boot) {m : Memory}
    (hown : Own i s.sys { s.sys.cpu with mem := m }) (hseg : u.seg = userSeg)
    (hflags : Interruptible u.eflags)
    (hc : c = restore u { s.core with cpu := { s.sys.cpu with mem := m } }) :
    Inv i boot ((s.withCore c).setMode (s.current i) .user) := by
  have hown' : Own i s.sys c.cpu := by
    rw [hc]
    exact hown
  apply h.own hown'
  subst hc
  refine ⟨hboot, fun hne => absurd rfl hne, fun r hcs _ => ?_, fun _ => ⟨hseg, hflags⟩,
    fun _ _ heq => by cases heq⟩
  exact (congrFun hseg r).trans (userSeg_data hcs)

theorem Inv.refused (h : Inv i boot s) (hmode : s.mode (s.current i) = .user) :
    ∃ m, Own i s.sys { s.sys.cpu with mem := m } ∧
      syscallFault i (s.core.interrupt i.tss (Trap.syscall.gate i) none) =
        restore (Trap.withResult (userOf s.core) (-1))
            { s.core with cpu := { s.sys.cpu with mem := m } } := by
  obtain ⟨hseg, hflags⟩ := h.ring3 hmode
  have hboot := h.notBoot (t := s.current i) (by simp [hmode])
  obtain ⟨htop, hroomy⟩ := h.trap_top hboot
  have hbelow := hroomy.below
  have habove := hroomy.above
  have hbegun := Trap.begun (i := i) (t := .syscall) (c := s.core) (cpl_user hseg)
    (by rw [← htop] at hbelow; exact hbelow)
  have hsame : (load s.core.cpu.mem (i.tss + 4)).toNat = top s.sys (s.current i) := htop
  rw [hsame] at hbegun
  have hcr2 : (s.core.interrupt i.tss (Trap.syscall.gate i) none).cr2 = s.cr2 := by
    unfold Core.interrupt
    split <;> rfl
  generalize hτ : s.core.interrupt i.tss (Trap.syscall.gate i) none = τ at hcr2
  have hsub : ({ s.core.interrupt i.tss (Trap.syscall.gate i) Trap.syscall.code with
      cr2 := Trap.syscall.cr2 s.core.cr2 } : Core) = τ := by
    rw [← hτ]
    rw [← hτ] at hcr2
    exact congrArg
      (fun v => ({ s.core.interrupt i.tss (Trap.syscall.gate i) none with cr2 := v } : Core))
      hcr2.symm
  rw [hsub] at hbegun
  have hesp := hbegun.esp
  have hreturning : Trap.Returning τ (userOf s.core) := by
    refine ⟨cpl_kernel hbegun.cs, hseg, fun r hcs hss => ?_⟩
    rw [hbegun.data r hcs hss]
    exact (congrFun hseg r).trans (userSeg_data hcs)
  have hout := hbegun.out
  simp only [Trap.code, Option.toList, List.length_nil] at hesp hout
  have heq := Trap.syscallFault_eq (i := i) hreturning hbegun.words (by omega) hbegun.reg
  refine ⟨τ.cpu.mem, ?_, ?_⟩
  · exact Own.of_stack hout fun n hlo hhi => hroomy.stack n (by omega) hhi
  · rw [heq]
    have hcr3 := hbegun.cr3
    simp only [restore, hcr2, hcr3]
    rfl

theorem Inv.left (h : Inv i boot s) (hmode : s.mode (s.current i) = .trapped trap u)
    (hreturned : Returned i s trap u) :
    trap.leave i s.core = restore (trap.outcome u (s.sys.cpu.reg .eax)) s.core := by
  have hsaved := h.saved _ _ _ hmode
  obtain ⟨hcs, hss⟩ := h.ring0 (by simp [hmode])
  have hboot := h.notBoot (t := s.current i) (by simp [hmode])
  obtain ⟨_, hroomy⟩ := h.trap_top hboot
  have hbelow := hroomy.below
  have habove := hroomy.above
  have hesp := hreturned.esp
  have hsize : trap.size ≤ 72 ∧ 56 ≤ trap.size := by
    cases trap <;> simp [Trap.size]
  have hwords : trap.size = 4 + 4 * (trap.given u).length + trap.kept := by
    cases trap <;> rfl
  have hholds : Trap.Holds i trap s.core u := by
    refine ⟨⟨cpl_kernel hcs, hsaved.seg, ?_⟩, ?_, ?_, fun _ => hreturned.ebp⟩
    · exact h.data ⟨_, by rw [hmode]; simp⟩
    · have hat : (s.core.cpu.reg .esp).toNat + 4 * (trap.given u).length =
          top s.sys (s.current i) - trap.kept := by
        have hcore : (s.core.cpu.reg .esp).toNat = top s.sys (s.current i) - trap.size + 4 := hesp
        omega
      rw [hat]
      exact hsaved.words
    · have hcore : (s.core.cpu.reg .esp).toNat = top s.sys (s.current i) - trap.size + 4 := hesp
      omega
  exact Trap.leave_eq hholds

theorem Inv.started (h : Inv i boot s) (hmode : s.mode (s.current i) = .kernel)
    (hcalled : Called i s eip esp) :
    ∃ m, Own i s.sys { s.sys.cpu with mem := m } ∧ enterRing3 i s.core =
      restore (Trap.started s.sys.cpu.reg eip esp)
          { s.core with cpu := { s.sys.cpu with mem := m } } := by
  obtain ⟨hcs, hss⟩ := h.ring0 (by simp [hmode])
  obtain ⟨back, hwords⟩ := hcalled.words
  obtain ⟨m, heq, hout⟩ := Trap.enterRing3_eq (i := i) (c := s.core)
    (cpl_kernel hcs) hcalled.room hcalled.bound
    hwords
  refine ⟨m, ?_, heq⟩
  exact Own.of_stack hout hcalled.stack

theorem forget_eq {mode : UInt32 → Mode} {a : ContextSwitch.Action} (h : forget mode a t = m)
    (hm : m ≠ .kernel) :
    mode t = m ∧ a ≠ .reap t := by
  cases a with
  | exec cpu => exact ⟨h, by simp⟩
  | create tcb kstack args => exact ⟨h, by simp⟩
  | yield returned => exact ⟨h, by simp⟩
  | reap tcb =>
    have hne : t ≠ tcb := by
      intro heq
      apply hm
      rw [← h]
      exact if_pos heq
    have hkept : forget mode (.reap tcb) t = mode t := if_neg hne
    rw [← hkept]
    exact ⟨h, by simpa using hne.symm⟩

theorem forget_kernel {mode : UInt32 → Mode} {a : ContextSwitch.Action} (h : mode t = .kernel) :
    forget mode a t = .kernel := by
  by_contra hne
  exact hne ((forget_eq rfl hne).1.symm.trans h)

theorem Inv.kernel (h : Inv i boot s) {a : ContextSwitch.Action} {sys : System}
    (hmode : s.mode (s.current i) ≠ .user) (hstep : ContextSwitch.Step i.kernel s.sys a sys)
    (hcode : KernelCode i s a) : Inv i boot { s with sys := sys, mode := forget s.mode a } := by
  have hground := h.ground.step hstep hcode.toOrderly
  have huser : ∀ t, forget s.mode a t ≠ .user := by
    intro t ht
    have hold := (forget_eq ht (by simp)).1
    rw [h.one t hold] at hold
    exact hmode hold
  refine ⟨hground, forget_kernel h.boot, fun t ht => ?_, fun t ht => absurd ht (huser t),
    fun _ => h.ring0 hmode, fun hsome => ?_, fun heq => absurd heq (huser _), fun t trap u ht => ?_⟩
  · obtain ⟨hold, hreap⟩ := forget_eq rfl ht
    exact (hstep.thread h.ground.sane (h.alive t fun heq => ht (hold.symm.trans heq)) hreap).1
  · obtain ⟨t, ht⟩ := hsome
    exact h.data ⟨t, fun heq => ht (forget_kernel heq)⟩
  · obtain ⟨hold, hreap⟩ := forget_eq ht (by simp)
    have hsaved := h.saved t trap u hold
    have hroomy := h.ground.roomy t hsaved.aside.mem (h.notBoot (by simp [hold]))
    apply hsaved.step h.ground.sane hroomy hstep
    by_cases hcurrent : s.current i = t
    · have hkeeps := hcode.keeps
      have hkeep : s.keep t = reserved s.sys t trap := by
        unfold Os.keep
        rw [hold]
      rw [hcurrent, hkeep] at hkeeps
      exact hkeeps
    · exact keeps_of_ne hcurrent hreap

theorem Inv.of_booted (h : Booted i boot s) : Inv i boot s := by
  have hthreads := h.booted.threads
  have hcurrent : s.sys.current i.kernel = boot := h.boot
  have hnone : ∀ t m, s.mode t = m → m = .kernel := fun t m ht => ht.symm.trans (h.mode t)
  refine ⟨⟨h.booted.sane, h.tss, h.fits, h.ss0, fun hne => absurd hcurrent hne, fun t ht hne => ?_⟩,
    h.mode boot,
    fun t ht => absurd (h.mode t) ht, fun t ht => ?_, fun _ => ⟨h.cs, h.ss⟩, fun hsome => ?_,
      fun heq => ?_,
    fun t trap u ht => ?_⟩
  · rw [hthreads, hcurrent] at ht
    exact absurd (List.mem_singleton.mp ht) hne
  · cases hnone t _ ht
  · obtain ⟨t, ht⟩ := hsome
    exact absurd (h.mode t) ht
  · cases hnone _ _ heq
  · cases hnone t _ ht

end Steps

/-! Every step is one of the programs. -/

section Programs
variable {i : Image} {boot t eip esp : UInt32} {s s' : Os} {a : Act} {c : Core}
    {m : Mode} {u : User}
  {as : List Act}

theorem Mode.program_congr (h : m ≠ .user) (c c' : Core) : m.program c = m.program c' := by
  cases m with
  | kernel => rfl
  | user => exact absurd rfl h
  | trapped trap u => rfl

theorem Inv.program_own (h : Inv i boot s) (c : Core) (m : Mode) :
    ((s.withCore c).setMode (s.current i) m).program = s.program.set (s.current i)
    (m.program c) := by
  funext t
  by_cases hself : t = s.current i
  · subst hself
    unfold Os.program
    rw [setMode_self, Programs.set, if_pos rfl]
    rfl
  · unfold Os.program
    rw [setMode_other hself, Programs.set, if_neg hself]
    exact Mode.program_congr (fun heq => hself (h.one t heq)) _ _

theorem program_user (hmode : s.mode t = .user) : s.program t = some (userOf s.core) := by
  unfold Os.program
  rw [hmode]
  rfl

theorem set_same {p : Programs} : p.set t (p t) = p := by
  funext t'
  unfold Programs.set
  split_ifs with heq
  · rw [heq]
  · rfl

theorem Inv.step (h : Inv i boot s) (hstep : Step i boot s a s') :
    Inv i boot s' ∧ Virtual s.program (event i s a) s'.program := by
  cases hstep with
  | @instruction cpu hmode hcpu =>
    refine ⟨h.instruction hmode hcpu, ?_⟩
    have hprogram := h.program_own { s.core with cpu := cpu } .user
    rw [setMode_same] at hprogram
    · rw [hprogram]
      exact .own (program_user hmode) rfl
    · exact hmode
  | @trap t hmode hserved =>
    refine ⟨h.trapped hmode hserved, ?_⟩
    rw [h.program_own]
    have hsame : Mode.program (.trapped t (userOf s.core))
        (t.enter i s.core) = s.program (s.current i) :=
      (program_user hmode).symm
    rw [hsame, set_same]
    exact .idle
  | refuse hmode hnumber =>
    obtain ⟨m, hown, hc⟩ := h.refused hmode
    obtain ⟨hseg, hflags⟩ := h.ring3 hmode
    have hinv := h.returned (h.notBoot (by simp [hmode])) hown hseg hflags hc
    have hprogram := h.program_own
      (syscallFault i (s.core.interrupt i.tss (Trap.syscall.gate i) none)) .user
    rw [setMode_same] at hinv hprogram
    · refine ⟨hinv, ?_⟩
      rw [hprogram, hc]
      exact .result (program_user hmode)
    · exact hmode
    · exact hmode
  | @kernel action sys hmode hstep hcode =>
    refine ⟨h.kernel hmode hstep hcode, ?_⟩
    have hcongr : ∀ t, (s.mode t).program
      (Os.core { s with sys := sys, mode := forget s.mode action }) =
        s.program t := by
      intro t
      refine Mode.program_congr (fun heq => hmode ?_) _ _
      rw [← h.one t heq]
      exact heq
    cases action with
    | exec cpu =>
      have hsame : Os.program { s with sys := sys, mode := forget s.mode (.exec cpu) } =
        s.program := funext hcongr
      rw [hsame]
      exact .idle
    | create tcb kstack args =>
      have hsame : Os.program
          { s with sys := sys, mode := forget s.mode (.create tcb kstack args) } = s.program :=
        funext hcongr
      rw [hsame]
      exact .idle
    | yield returned =>
      have hsame : Os.program { s with sys := sys, mode := forget s.mode (.yield returned) } =
          s.program :=
        funext hcongr
      rw [hsame]
      exact .idle
    | reap tcb =>
      have hset : Os.program { s with sys := sys, mode := forget s.mode (.reap tcb) } =
          s.program.set tcb none := by
        funext t
        by_cases heq : t = tcb
        · simp only [Os.program, forget, Programs.set, if_pos heq]
          rfl
        · have hold := hcongr t
          simp only [Os.program, forget, Programs.set, if_neg heq] at hold ⊢
          exact hold
      rw [hset]
      exact .finish
  | @leave trap u hmode hreturned =>
    have heq := h.left hmode hreturned
    have hsaved := h.saved _ _ _ hmode
    have hown : Own i s.sys { s.sys.cpu with mem := s.sys.cpu.mem } := fun n hne => absurd rfl hne
    have hprogram := h.program_own (trap.leave i s.core) .user
    have hold : s.program (s.current i) = some u := by
      unfold Os.program
      rw [hmode]
      rfl
    have hflags : (trap.outcome u (s.sys.cpu.reg .eax)).eflags = u.eflags := by
      cases trap <;> rfl
    have hseg : (trap.outcome u (s.sys.cpu.reg .eax)).seg = u.seg := by
      cases trap <;> rfl
    refine ⟨h.returned (h.notBoot (by simp [hmode])) hown (hseg.trans hsaved.seg)
      (hflags ▸ hsaved.eflags) heq, ?_⟩
    rw [hprogram, heq]
    have hevent : event i s .leave = match Mode.trapped trap u with
        | .trapped .syscall _ => .result (s.current i) (s.sys.cpu.reg .eax)
        | _ => .idle := by
      simp only [event, hmode]
    rw [hevent]
    cases trap with
    | syscall => exact .result hold
    | timer =>
      have hsame : Mode.program .user (restore u s.core) = s.program (s.current i) := hold.symm
      have hkept := set_same (p := s.program) (t := s.current i)
      rw [← hsame] at hkept
      simp only [Trap.outcome]
      rw [hkept]
      exact .idle
    | pageFault code addr =>
      have hsame : Mode.program .user (restore u s.core) = s.program (s.current i) := hold.symm
      have hkept := set_same (p := s.program) (t := s.current i)
      rw [← hsame] at hkept
      simp only [Trap.outcome]
      rw [hkept]
      exact .idle
  | @start eip esp hmode hboot hcalled =>
    obtain ⟨m, hown, hc⟩ := h.started hmode hcalled
    refine ⟨h.returned hboot hown rfl ?_ hc, ?_⟩
    · have hflags : (Eflags.ofImage 0x0202).image &&& 0x3200 = 0x200 := by decide
      exact hflags
    · rw [h.program_own, hc]
      refine .begin ?_
      unfold Os.program
      rw [hmode]
      rfl

theorem Inv.of_run (hboot : Booted i boot s) (hrun : Run (Step i boot) s as s') : Inv i boot s' :=
  hrun.invariant _ (fun _ _ _ h hstep => (h.step hstep).1) (Inv.of_booted hboot)

/-- Nothing happens to the program of the thread. -/
def Quiet (i : Image) (t : UInt32) (s : Os) (a : Act) : Prop := (event i s a).thread ≠ some t

theorem Inv.quiet {bs : List Act} (h : Inv i boot s)
    (hrun : Run (Guarded (Step i boot) (Quiet i t)) s bs s') :
    s'.program t = s.program t := by
  have hend := hrun.invariant (fun s₁ => Inv i boot s₁ ∧ s₁.program t = s.program t) ?_ ⟨h, rfl⟩
  · exact hend.2
  · rintro s₁ a s₂ ⟨hinv, hprogram⟩ ⟨hquiet, hstep⟩
    obtain ⟨hnext, hvirtual⟩ := hinv.step hstep
    exact ⟨hnext, (hvirtual.other hquiet).trans hprogram⟩

end Programs

/-! A boot that creates a thread, which starts a program. -/

def smallImage : Image where
  gScheduler := 0xFF8
  tss := 0x1FFC
  schedulerPick := 0x3000
  pickBack := 0x3100
  irq00 := 0x3200
  schedulerTick := 0x3300
  tickBack := 0x3210
  int0EStub := 0x3400
  int0E := 0x3500
  int0EBack := 0x3420
  syscall := 0x3600
  syscallTable := 0x4000
  syscallBack := 0x3660

def smallPlace (n : Nat) : Place :=
  if 0x1000 ≤ n ∧ n < 0x1004 then .current
  else if 0x2000 ≤ n ∧ n < 0x2008 then .tss
  else if 0x5000 ≤ n ∧ n < 0x5000 + contextSize then .context 0x5000
  else if 0x6000 ≤ n ∧ n < 0x7000 then .stack 0x5000
  else .other

def smallBoot : Os where
  sys :=
    { cpu := ⟨fun r => if r = .esp then 0x6800 else 0, .ofImage 0x202, 0, 0,
        store (store (fun _ => 0) 0x1000 0x5000) 0x2004 SEG_DATA32_0⟩
      place := smallPlace
      threads := [0x5000] }
  seg r := if r = .cs then SEG_CODE32_0.toUInt16 else SEG_DATA32_0.toUInt16
  cr2 := 0
  mode _ := .kernel

def smallArgs : TcbArgs := ⟨0, 0, 2, 16, 4096, 0x100, 0x200, 0x300⟩

/-- `enter_ring3` is called, with the entry point and the stack of the program. -/
def smallCall (σ : Cpu) : Cpu := (σ.set .esp 0x9E00).pushes [0xB0000000, 0x40000000, 0x110]

theorem smallBoot_current : smallBoot.current smallImage = 0x5000 := by
  have hone : (0x2004 : UInt32).toNat = 0x2004 := rfl
  have htwo : (0x1000 : UInt32).toNat = 0x1000 := rfl
  have hfirst : load (store (store (fun _ => 0) 0x1000 0x5000) 0x2004 SEG_DATA32_0) 0x1000 =
      load (store (fun _ => 0) 0x1000 0x5000) 0x1000 := load_store_of_disjoint (by omega)
  exact hfirst.trans load_store_self

theorem smallBoot_booted : Booted smallImage 0x5000 smallBoot := by
  have hsize : contextSize = 44 := rfl
  have hcurrent := smallBoot_current
  have hmain : (0x5000 : UInt32).toNat = 0x5000 := rfl
  have htss : smallImage.tss.toNat = 0x1FFC := rfl
  have hkernel : smallBoot.sys.current smallImage.kernel = 0x5000 := hcurrent
  have hplace : ∀ n, 0x2000 ≤ n → n < 0x2008 → smallBoot.sys.place n = .tss := by
    intro n hlo hhi
    simp only [smallBoot, smallPlace]
    rw [if_neg (by omega), if_pos (by omega)]
  refine ⟨⟨?_, fun n hlo hhi => ?_, fun n hlo hhi => ?_, ?_, fun n hlo hhi => ?_⟩, hcurrent,
    fun n hlo hhi => hplace n (by omega) (by omega), by decide, load_store_self,
    fun _ => rfl, rfl, rfl⟩
  · rw [hkernel]
    rfl
  · have hword : smallImage.kernel.current.toNat = 0x1000 := rfl
    exact if_pos (by omega)
  · have hword : smallImage.kernel.tssEsp0.toNat = 0x2000 := rfl
    exact hplace n (by omega) (by omega)
  · rw [hkernel]
    decide
  · rw [hkernel] at hlo hhi ⊢
    simp only [smallBoot, smallPlace]
    rw [if_neg (by omega), if_neg (by omega), if_pos (by omega)]

theorem smallBoot_create : ContextSwitch.Step smallImage.kernel smallBoot.sys
    (.create 0x8000 0x9000 smallArgs)
    (smallBoot.sys.create 0x8000 0x9000 smallArgs) := by
  have hsize : contextSize = 44 := rfl
  have htcbSize : tcbSize = 84 := rfl
  have htcb : (0x8000 : UInt32).toNat = 0x8000 := rfl
  have hkstack : (0x9000 : UInt32).toNat = 0x9000 := rfl
  have hlen : smallArgs.kstackSize.toNat = 4096 := rfl
  refine Step.create ⟨by decide, by decide, by decide, by decide⟩ (by decide) (fun n hlo hhi => ?_)
    (fun n hlo hhi => ?_) <;>
  · simp only [smallBoot, smallPlace]
    rw [if_neg (by omega), if_neg (by omega), if_neg (by omega), if_neg (by omega)]

theorem smallBoot_runs : ∃ as s, Run (Step smallImage 0x5000) smallBoot as s ∧
    s.current smallImage = 0x8000 ∧ s.mode 0x8000 = .user ∧ top s.sys 0x8000 = 0x9FD0 ∧
    ∃ r, s.program 0x8000 = some (Trap.started r 0x40000000 0xB0000000) := by
  have hsane := smallBoot_booted.booted.sane
  have hcreated := smallBoot_create
  generalize hs₁ : smallBoot.sys.create 0x8000 0x9000 smallArgs = s₁ at hcreated
  have hfresh : Fresh 0x8000 0x9000 smallArgs := ⟨by decide, by decide, by decide, by decide⟩
  have hkernel : smallBoot.sys.current smallImage.kernel = 0x5000 := smallBoot_current
  have hcurrent₁ : s₁.current smallImage.kernel = 0x5000 := by
    rw [hcreated.current_kept hsane fun _ heq => by cases heq]
    exact hkernel
  have hsane₁ := hsane.step hcreated
  have hthread : (0x8000 : UInt32) ∈ s₁.threads := by
    rw [← hs₁]
    exact List.mem_cons_self
  have htop₁ : contextAt s₁.cpu.mem 0x8000 .esp0 = 0x9FD0 := by
    rw [← hs₁]
    refine (congrFun (contextAt_tcbInit hfresh) .esp0).trans ?_
    decide
  have hplace₁ : ∀ n, 0x9000 ≤ n → n < 0xA000 → s₁.place n = .stack 0x8000 := by
    intro n hlo hhi
    rw [← hs₁]
    exact newPlace_stack hfresh hlo hhi
  have hroom : Room smallImage.kernel s₁ := by
    have hesp : (s₁.cpu.reg .esp).toNat = 0x6800 := by
      rw [← hs₁]
      rfl
    refine ⟨by omega, by omega, fun n hlo hhi => ?_⟩
    have hold : smallBoot.sys.place n = .stack 0x5000 := by
      have hsize : contextSize = 44 := rfl
      simp only [smallBoot, smallPlace]
      rw [if_neg (by omega), if_neg (by omega), if_neg (by omega), if_pos (by omega)]
    have hother := smallBoot_create
    rw [hcurrent₁, ← hs₁]
    cases hother with
    | create _ hnew htcb hstack =>
      exact (create_other hfresh htcb hstack (by simp [hold])).1.trans hold
  have hpicked := picked_pickReturn (k := smallImage.kernel) hthread
  have hyielded : ContextSwitch.Step smallImage.kernel s₁
      (.yield (pickReturn smallImage.kernel s₁ 0x8000)) _ :=
    .yield hroom hpicked
  have hcurrent₂ := hsane₁.current_yield hroom hpicked
  have hplace₂ := (hsane₁.switched hyielded).place
  have htop₂ := (top_kept hsane₁ hyielded hthread).trans htop₁
  generalize hs₂ :
    ({ s₁ with cpu := loadContext smallImage.kernel (pickReturn smallImage.kernel s₁ 0x8000) } :
    System) = s₂ at hyielded hcurrent₂ hplace₂ htop₂
  have hcurrent₂ : s₂.current smallImage.kernel = 0x8000 := hcurrent₂
  have hsp : ((s₂.cpu.set .esp 0x9E00).reg .esp).toNat = 0x9E00 := rfl
  have hout : ∀ n, n < 0x9DF4 ∨ 0x9E00 ≤ n → (smallCall s₂.cpu).mem n = s₂.cpu.mem n := by
    intro n hn
    refine (Cpu.pushes_out ?_ ?_).trans rfl
    · rw [hsp]
      decide
    · rw [hsp]
      simp only [List.length_cons, List.length_nil]
      omega
  have hown : Own smallImage s₂ (smallCall s₂.cpu) := by
    refine Own.of_stack hout fun n hlo hhi => ?_
    rw [hplace₂, hcurrent₂]
    exact hplace₁ n (by omega) (by omega)
  have hexec := hown.step
  have hrunning : (0x8000 : UInt32) ∈ s₂.threads := hcurrent₂ ▸ (hsane₁.step hyielded).running
  have htop₃ := (top_kept (hsane₁.step hyielded) hexec hrunning).trans htop₂
  have hcurrent₃ := (hexec.current_kept (hsane₁.step hyielded) fun _ heq => by cases heq).trans
    hcurrent₂
  generalize hs₃ : ({ s₂ with cpu := smallCall s₂.cpu } : System) = s₃ at hexec hcurrent₃ htop₃
  have hlist : (s₂.cpu.set .esp 0x9E00).reg .esp = 0x9E00 := rfl
  have hroom₃ : 4 * [(0xB0000000 : UInt32), 0x40000000, 0x110].length ≤
      ((s₂.cpu.set .esp 0x9E00).reg .esp).toNat := by
    rw [hsp]
    decide
  have hesp₃ : (s₃.cpu.reg .esp).toNat = 0x9DF4 := by
    rw [← hs₃]
    exact Cpu.pushes_esp hroom₃
  have hwords₃ : Words s₃.cpu.mem 0x9DF4 [0x110, 0x40000000, 0xB0000000] := by
    rw [← hs₃]
    exact Cpu.pushes_words hroom₃
  have hplace₃ : ∀ n, 0x9000 ≤ n → n < 0xA000 → s₃.place n = .stack 0x8000 := by
    intro n hlo hhi
    rw [← hs₃]
    exact (congrFun hplace₂ n).trans (hplace₁ n hlo hhi)
  have hcalled : Called smallImage { smallBoot with sys := s₃ } 0x40000000 0xB0000000 := by
    refine ⟨⟨0x110, ?_⟩, ?_, ?_, fun n hlo hhi => ?_⟩
    · simp only [hesp₃]
      exact hwords₃
    · simp only [hesp₃]
      decide
    · simp only [hesp₃]
      decide
    · simp only [hesp₃] at hlo hhi
      exact (hplace₃ n (by omega) (by omega)).trans (congrArg Place.stack hcurrent₃.symm)
  -- the four steps
  have hfirst : Step smallImage 0x5000 smallBoot (.kernel (.create 0x8000 0x9000 smallArgs))
      { smallBoot with sys := s₁ } := by
    refine Step.kernel (by simp [smallBoot]) hcreated ⟨⟨nofun, fun _ _ _ heq => ?_⟩, trivial⟩
    cases heq
    rfl
  have hsecond : Step smallImage 0x5000 { smallBoot with sys := s₁ } (.kernel (.yield _))
      { smallBoot with sys := s₂ } :=
    Step.kernel (by simp [smallBoot]) hyielded ⟨⟨nofun, nofun⟩, fun _ n hn => hn.elim⟩
  have hthird : Step smallImage 0x5000 { smallBoot with sys := s₂ }
    (.kernel (.exec (smallCall s₂.cpu)))
      { smallBoot with sys := s₃ } :=
    Step.kernel (by simp [smallBoot]) hexec ⟨hown.orderly, fun _ n hn => hn.elim⟩
  have hboot₃ : Os.current smallImage { smallBoot with sys := s₃ } ≠ 0x5000 := by
    have hcurrent : Os.current smallImage { smallBoot with sys := s₃ } = 0x8000 := hcurrent₃
    rw [hcurrent]
    decide
  have hfourth := Step.start rfl hboot₃ hcalled
  have hrun := ((Run.single hfirst).snoc hsecond).snoc hthird
  have hinv := Inv.of_run smallBoot_booted hrun
  obtain ⟨m, hown₄, hc⟩ := hinv.started rfl hcalled
  obtain ⟨hkept, htop⟩ := hown₄.kept hinv
  have hthis : Os.current smallImage { smallBoot with sys := s₃ } = 0x8000 := hcurrent₃
  have hprogram := hinv.program_own
    (enterRing3 smallImage (Os.core { smallBoot with sys := s₃ })) .user
  rw [hthis] at hkept htop hprogram hfourth
  refine ⟨_, _, hrun.snoc hfourth, ?_, setMode_self, ?_, s₃.cpu.reg, ?_⟩
  · rw [hc]
    exact hkept
  · rw [hc]
    exact htop.trans (congrArg UInt32.toNat htop₃)
  · rw [hprogram, Programs.set, if_pos rfl, hc]
    rfl

/-- The handler in C is entered as a call from its stub, on the kernel stack of the thread. -/
theorem trap_calls_its_handler {i : Image} {boot : UInt32} {s₀ s s' : Os} {as : List Act} {t : Trap}
    (hboot : Booted i boot s₀) (hrun : Run (Step i boot) s₀ as s)
    (hstep : Step i boot s (.trap t) s') :
    s'.sys.cpu.eip = t.handler i s.core ∧ s'.sys.cpu.eflags.interrupts = false ∧
    s'.core.cpl = 0 ∧ s'.seg .ss = SEG_DATA32_0.toUInt16 ∧
    (s'.sys.cpu.reg .esp).toNat = top s.sys (s.current i) - t.size ∧
    Words s'.sys.cpu.mem (s'.sys.cpu.reg .esp).toNat (t.back i :: t.given (userOf s.core)) ∧
    ∀ n, s.sys.place n ≠ .stack (s.current i) → s'.sys.cpu.mem n = s.sys.cpu.mem n := by
  have hinv := Inv.of_run hboot hrun
  cases hstep with
  | trap hmode hserved =>
    obtain ⟨sp, hentered⟩ := hinv.entered hmode hserved
    obtain ⟨_, hroomy⟩ := hinv.trap_top (hinv.notBoot (by simp [hmode]))
    have hsize : t.size ≤ 72 := by
      cases t <;> simp [Trap.size]
    refine ⟨hentered.eip, hentered.interrupts, cpl_kernel hentered.cs, ?_, hentered.esp, ?_,
      fun n hn => ?_⟩
    · exact hentered.ss.trans (congrArg UInt32.toUInt16 hinv.ground.ss0)
    · have hall : Words (t.enter i s.core).cpu.mem ((t.enter i s.core).cpu.reg .esp).toNat
        ((t.back i :: t.given (userOf s.core)) ++ t.saved sp (userOf s.core)) := hentered.words
      exact (words_append.mp hall).1
    · apply hentered.out
      by_contra hin
      exact hn (hroomy.stack n (by omega) (by omega))

theorem trap_calls_its_handler_small : ∃ s s', Step smallImage 0x5000 s
    (.trap (.pageFault 4 0xB0000000)) s' ∧
    s'.sys.cpu.eip = 0x3500 ∧
    Words s'.sys.cpu.mem (s'.sys.cpu.reg .esp).toNat [0x3420, 4, 0xB0000000, s.sys.cpu.eip] := by
  obtain ⟨as, s, hrun, hcurrent, hmode, _⟩ := smallBoot_runs
  rw [← hcurrent] at hmode
  have hstep : Step smallImage 0x5000 s (.trap (.pageFault 4 0xB0000000)) _ := .trap hmode nofun
  obtain ⟨heip, _, _, _, _, hwords, _⟩ := trap_calls_its_handler smallBoot_booted hrun hstep
  exact ⟨s, _, hstep, heip, hwords⟩

end OsdevCourse.Traps
