import OsdevCourse.ContextSwitch
import OsdevCourse.Reachability

/-!
# Context switches are transparent to the threads

Every byte of memory has one use: it belongs to the context or to the stack of a thread, to the
scheduler, or to none of them. The current thread runs its own code, creates and frees
other threads, and calls `scheduler_yield`; in between `scheduler_pick` returns
some TCB. While a thread is away, nobody writes its context, nor its stack from
the saved stack pointer on.
-/

namespace OsdevCourse.ContextSwitch

set_option autoImplicit false

open I686

inductive Place where
  | context (tcb : UInt32)
  | fields (tcb : UInt32)
  | stack (tcb : UInt32)
  | scheduler
  | current
  | tss
  | other
  deriving DecidableEq, Repr

structure System where
  cpu : Cpu
  place : Nat → Place
  threads : List UInt32

/-- The thread that `g_scheduler.current` points to. -/
def System.current (k : Kernel) (s : System) : UInt32 := load s.cpu.mem k.current

/-- The current thread neither writes a context nor the stack of another thread. -/
def Foreign (c : UInt32) : Place → Prop
  | .context _ => True
  | .stack t => t ≠ c
  | .current => True
  | .fields _ | .scheduler | .tss | .other => False

/-- `scheduler_pick` follows the calling convention, returns a TCB, and writes the data of the
scheduler and the stack below the caller's stack pointer. -/
structure Picked (k : Kernel) (s : System) (called returned : Cpu) : Prop where
  target : returned.reg .eax ∈ s.threads
  esp : returned.reg .esp = called.reg .esp + UInt32.ofNat 4
  saved : ∀ r ∈ [Reg.ebx, .ebp, .esi, .edi], returned.reg r = called.reg r
  eip : returned.eip = k.back
  cr3 : returned.cr3 = called.cr3
  writes : ∀ n, returned.mem n ≠ called.mem n → s.place n = .scheduler ∨ s.place n = .current ∨
    (∃ t, s.place n = .fields t) ∨
    (s.place n = .stack (s.current k) ∧ n < (returned.reg .esp).toNat)

/-- The stack has room for what `scheduler_yield` pushes below its return address. -/
structure Room (k : Kernel) (s : System) : Prop where
  below : 8 ≤ (s.cpu.reg .esp).toNat
  above : (s.cpu.reg .esp).toNat + 4 ≤ 2 ^ 32
  stack : ∀ n, (s.cpu.reg .esp).toNat - 8 ≤ n → n < (s.cpu.reg .esp).toNat + 4 →
    s.place n = .stack (s.current k)

inductive Action where
  | exec (cpu : Cpu)
  | create (tcb kstack : UInt32) (args : TcbArgs)
  | reap (tcb : UInt32)
  | yield (returned : Cpu)

/-- The TCB and the stack of a new thread were free memory. -/
def newPlace (place : Nat → Place) (tcb kstack : UInt32) (args : TcbArgs) (n : Nat) : Place :=
  if tcb.toNat ≤ n ∧ n < tcb.toNat + contextSize then .context tcb
  else if tcb.toNat ≤ n ∧ n < tcb.toNat + tcbSize then .fields tcb
  else if kstack.toNat ≤ n ∧ n < kstack.toNat + args.kstackSize.toNat then .stack tcb
  else place n

def freedPlace (place : Nat → Place) (tcb : UInt32) (n : Nat) : Place :=
  if place n = .context tcb ∨ place n = .fields tcb ∨ place n = .stack tcb then .other else place n

def System.create (s : System) (tcb kstack : UInt32) (args : TcbArgs) : System where
  cpu := { s.cpu with mem := (tcbInit s.cpu.mem tcb args (some kstack)).2 }
  place := newPlace s.place tcb kstack args
  threads := tcb :: s.threads

inductive Step (k : Kernel) : System → Action → System → Prop where
  | exec {s : System} {cpu : Cpu} :
    (∀ n, Foreign (s.current k) (s.place n) → cpu.mem n = s.cpu.mem n) →
    Step k s (.exec cpu) { s with cpu := cpu }
  | create {s : System} {tcb kstack : UInt32} {args : TcbArgs} :
    Fresh tcb kstack args → tcb ∉ s.threads →
    (∀ n, tcb.toNat ≤ n → n < tcb.toNat + tcbSize → s.place n = .other) →
    (∀ n, kstack.toNat ≤ n → n < kstack.toNat + args.kstackSize.toNat → s.place n = .other) →
    Step k s (.create tcb kstack args) (s.create tcb kstack args)
  | reap {s : System} {tcb : UInt32} : tcb ≠ s.current k →
    Step k s (.reap tcb)
      { s with place := freedPlace s.place tcb, threads := s.threads.filter (· ≠ tcb) }
  | yield {s : System} {returned : Cpu} : Room k s → Picked k s (saveContext k s.cpu) returned →
    Step k s (.yield returned) { s with cpu := loadContext k returned }

/-- A thread that is not running has a context from which it can be resumed. -/
structure Parked (s : System) (t : UInt32) : Prop where
  below : 4 ≤ (contextAt s.cpu.mem t .esp).toNat
  above : (contextAt s.cpu.mem t .esp).toNat + 4 ≤ 2 ^ 32
  stack : ∀ n, (contextAt s.cpu.mem t .esp).toNat - 4 ≤ n →
    n < (contextAt s.cpu.mem t .esp).toNat + 4 → s.place n = .stack t

structure Sane (k : Kernel) (s : System) : Prop where
  current : ∀ n, k.current.toNat ≤ n → n < k.current.toNat + 4 → s.place n = .current
  tss : ∀ n, k.tssEsp0.toNat ≤ n → n < k.tssEsp0.toNat + 4 → s.place n = .tss
  running : s.current k ∈ s.threads
  bound : ∀ t ∈ s.threads, t.toNat + contextSize ≤ 2 ^ 32
  context : ∀ t ∈ s.threads, ∀ n, t.toNat ≤ n → n < t.toNat + contextSize → s.place n = .context t
  parked : ∀ t ∈ s.threads, t ≠ s.current k → Parked s t

/-- The state in which `scheduler_init` leaves the boot thread running. -/
structure Booted (k : Kernel) (s : System) : Prop where
  threads : s.threads = [s.current k]
  current : ∀ n, k.current.toNat ≤ n → n < k.current.toNat + 4 → s.place n = .current
  tss : ∀ n, k.tssEsp0.toNat ≤ n → n < k.tssEsp0.toNat + 4 → s.place n = .tss
  bound : (s.current k).toNat + contextSize ≤ 2 ^ 32
  context : ∀ n, (s.current k).toNat ≤ n → n < (s.current k).toNat + contextSize →
    s.place n = .context (s.current k)

theorem Booted.sane {k : Kernel} {s : System} (h : Booted k s) : Sane k s := by
  have hone : ∀ t ∈ s.threads, t = s.current k := by
    intro t ht
    rw [h.threads] at ht
    exact List.mem_singleton.mp ht
  refine ⟨h.current, h.tss, ?_, fun t ht => ?_, fun t ht => ?_,
    fun t ht hne => absurd (hone t ht) hne⟩
  · rw [h.threads]
    exact List.mem_cons_self
  · rw [hone t ht]
    exact h.bound
  · rw [hone t ht]
    exact h.context

theorem apart_of_place {place : Nat → Place} {p q : Place} {a b c d : Nat}
    (hab : a < b) (hcd : c < d)
    (hp : ∀ n, a ≤ n → n < b → place n = p) (hq : ∀ n, c ≤ n → n < d → place n = q) (hpq : p ≠ q) :
    b ≤ c ∨ d ≤ a := by
  by_contra hnot
  apply hpq
  rw [← hp (max a c) (by omega) (by omega)]
  exact hq (max a c) (by omega) (by omega)

theorem out_of_place (place : Nat → Place) (p : Place) {a b n : Nat}
    (hp : ∀ n, a ≤ n → n < b → place n = p) (hn : place n ≠ p) : n < a ∨ b ≤ n := by
  by_contra hnot
  exact hn (hp n (by omega) (by omega))

section Yield
variable {k : Kernel} {s s' : System} {returned : Cpu} {t : UInt32} {n : Nat}

theorem Sane.entry (h : Sane k s) (hroom : Room k s) : Entry k s.cpu (s.current k) := by
  have hbelow := hroom.below
  have hstack : ∀ n, (s.cpu.reg .esp).toNat - 8 ≤ n → n < (s.cpu.reg .esp).toNat →
      s.place n = .stack (s.current k) := fun n hlo hhi => hroom.stack n hlo (by omega)
  refine ⟨rfl, h.bound _ h.running, hbelow, ?_, ?_⟩
  · exact apart_of_place (by simp [contextSize]) (by omega) (h.context _ h.running) hstack (by simp)
  · exact apart_of_place (by omega) (by omega) h.current hstack (by simp)

/-- The context that a thread is given by the switch. -/
def nextContext (k : Kernel) (s : System) (t : UInt32) : Field → UInt32 :=
  if t = s.current k then entryContext s.cpu t else contextAt s.cpu.mem t

theorem Sane.contextAt_returned (h : Sane k s) (hroom : Room k s)
    (hpicked : Picked k s (saveContext k s.cpu) returned) (ht : t ∈ s.threads) :
    contextAt returned.mem t = nextContext k s t := by
  have hentry := h.entry hroom
  have hbelow := hroom.below
  have hpick : contextAt returned.mem t = contextAt (saveContext k s.cpu).mem t := by
    apply contextAt_congr (h.bound t ht)
    intro n hlo hhi
    by_contra hne
    have hplace := h.context t ht n hlo hhi
    rcases hpicked.writes n hne with hn | hn | ⟨u, hn⟩ | ⟨hn, _⟩ <;>
    · rw [hplace] at hn
      simp at hn
  unfold nextContext
  by_cases hc : t = s.current k
  · rw [hpick, if_pos hc, hc]
    exact hentry.saved
  · rw [hpick, if_neg hc]
    apply contextAt_congr (h.bound t ht)
    intro n hlo hhi
    have hplace := h.context t ht n hlo hhi
    apply hentry.saved_out
    · refine out_of_place s.place (.stack (s.current k)) ?_ (by simp [hplace])
      intro i hi hi'
      exact hroom.stack i hi (by omega)
    · refine out_of_place s.place (.context (s.current k)) (h.context _ h.running) ?_
      rw [hplace]
      simpa using hc

/-- Bytes of a stack that the yielding thread does not own, or not below its stack pointer. -/
theorem Sane.stack_returned (h : Sane k s) (hroom : Room k s)
    (hpicked : Picked k s (saveContext k s.cpu) returned) (hn : s.place n = .stack t)
    (hown : t = s.current k → (s.cpu.reg .esp).toNat ≤ n) : returned.mem n = s.cpu.mem n := by
  have hentry := h.entry hroom
  have hesp : returned.reg .esp = s.cpu.reg .esp := by
    rw [hpicked.esp, saveContext_eq hentry]
    exact UInt32.sub_add_cancel _ _
  have hpick : returned.mem n = (saveContext k s.cpu).mem n := by
    by_contra hne
    rcases hpicked.writes n hne with hw | hw | ⟨u, hw⟩ | ⟨hw, hlt⟩
    · simp [hn] at hw
    · simp [hn] at hw
    · simp [hn] at hw
    · have heq : t = s.current k := by
        rw [hn] at hw
        exact Place.stack.inj hw
      have hle := hown heq
      rw [hesp] at hlt
      omega
  rw [hpick]
  apply hentry.saved_out
  · by_cases hc : t = s.current k
    · exact Or.inr (hown hc)
    · refine out_of_place s.place (.stack (s.current k)) ?_ ?_
      · intro i hi hi'
        exact hroom.stack i hi (by omega)
      · rw [hn]
        simpa using hc
  · refine out_of_place s.place (.context (s.current k)) (h.context _ h.running) ?_
    rw [hn]
    simp

theorem Sane.target_stack (h : Sane k s) (hroom : Room k s) (ht : t ∈ s.threads) :
    4 ≤ (nextContext k s t .esp).toNat ∧ (nextContext k s t .esp).toNat + 4 ≤ 2 ^ 32 ∧
    (t = s.current k → nextContext k s t .esp = s.cpu.reg .esp) ∧
    ∀ n, (nextContext k s t .esp).toNat - 4 ≤ n → n < (nextContext k s t .esp).toNat + 4 →
      s.place n = .stack t := by
  have hbelow := hroom.below
  unfold nextContext
  by_cases hc : t = s.current k
  · rw [if_pos hc]
    simp only [entryContext]
    refine ⟨by omega, hroom.above, fun _ => trivial, fun n hlo hhi => ?_⟩
    rw [hc]
    exact hroom.stack n (by omega) hhi
  · rw [if_neg hc]
    have hparked := h.parked _ ht hc
    exact ⟨hparked.below, hparked.above, fun heq => absurd heq hc, hparked.stack⟩

theorem Sane.exit (h : Sane k s) (hroom : Room k s)
    (hpicked : Picked k s (saveContext k s.cpu) returned) :
    Exit k returned (returned.reg .eax) := by
  have ht := hpicked.target
  have hcontext := h.contextAt_returned hroom hpicked ht
  obtain ⟨hlow, hhigh, _, hplace⟩ := h.target_stack hroom ht
  rw [← hcontext] at hlow hhigh hplace
  refine ⟨rfl, h.bound _ ht, hlow, hhigh, ?_, ?_, ?_, ?_, ?_⟩
  · exact apart_of_place (by simp [contextSize]) (by omega) (h.context _ ht) hplace (by simp)
  · exact apart_of_place (by omega) (by simp [contextSize]) h.current (h.context _ ht) (by simp)
  · exact apart_of_place (by omega) (by simp [contextSize]) h.tss (h.context _ ht) (by simp)
  · exact apart_of_place (by omega) (by omega) h.current hplace (by simp)
  · exact apart_of_place (by omega) (by omega) h.tss hplace (by simp)

theorem Sane.current_yield (h : Sane k s) (hroom : Room k s)
    (hpicked : Picked k s (saveContext k s.cpu) returned) :
    System.current k { s with cpu := loadContext k returned } = returned.reg .eax := by
  have hexit := h.exit hroom hpicked
  have hlow := hexit.room
  have htop : (contextAt returned.mem (returned.reg .eax) .esp - UInt32.ofNat 4).toNat =
      (contextAt returned.mem (returned.reg .eax) .esp).toNat - 4 := toNat_sub_offset hlow
  have hapart : k.current.toNat + 4 ≤ k.tssEsp0.toNat ∨ k.tssEsp0.toNat + 4 ≤ k.current.toNat :=
    apart_of_place (by omega) (by omega) h.current h.tss (by simp)
  have hstack := hexit.currentApart
  simp only [System.current, loadContext_eq hexit]
  rw [load_store_of_disjoint (by omega), load_store_of_disjoint (by omega)]
  exact load_store_self

/-- What `scheduler_yield` writes after the return of `scheduler_pick`. -/
theorem Sane.loaded_out (h : Sane k s) (hroom : Room k s)
    (hpicked : Picked k s (saveContext k s.cpu) returned) (hcurrent : s.place n ≠ .current)
    (htss : s.place n ≠ .tss)
    (hrange : n < (contextAt returned.mem (returned.reg .eax) .esp).toNat - 4 ∨
      (contextAt returned.mem (returned.reg .eax) .esp).toNat ≤ n) :
    (loadContext k returned).mem n = returned.mem n := by
  have hexit := h.exit hroom hpicked
  have hlow := hexit.room
  have htop : (contextAt returned.mem (returned.reg .eax) .esp - UInt32.ofNat 4).toNat =
      (contextAt returned.mem (returned.reg .eax) .esp).toNat - 4 := toNat_sub_offset hlow
  have hone := out_of_place s.place .current h.current hcurrent
  have htwo := out_of_place s.place .tss h.tss htss
  rw [loadContext_eq hexit]
  simp only
  rw [store_out (by omega), store_out htwo, store_out hone]

/-- One execution of `scheduler_yield`, from the call to the return in the target. -/
structure Switched (k : Kernel) (s s' : System) : Prop where
  threads : s'.threads = s.threads
  place : s'.place = s.place
  target : s'.current k ∈ s.threads
  reg : s'.cpu.reg = contextReg (nextContext k s (s'.current k))
  eflags : s'.cpu.eflags = .ofImage (nextContext k s (s'.current k) .eflags)
  eip : s'.cpu.eip = load s.cpu.mem (nextContext k s (s'.current k) .esp)
  cr3 : s'.cpu.cr3 = switchedCr3 s.cpu.cr3 (nextContext k s (s'.current k) .pagedir)
  tss : load s'.cpu.mem k.tssEsp0 = nextContext k s (s'.current k) .esp0
  context : ∀ t ∈ s.threads, contextAt s'.cpu.mem t = nextContext k s t
  stack : ∀ t n, s.place n = .stack t → (t = s.current k → (s.cpu.reg .esp).toNat ≤ n) →
    (t = s'.current k → (nextContext k s t .esp).toNat ≤ n) → s'.cpu.mem n = s.cpu.mem n

theorem Sane.switched (h : Sane k s) (hstep : Step k s (.yield returned) s') : Switched k s s' := by
  cases hstep with
  | yield hroom hpicked =>
    have hexit := h.exit hroom hpicked
    have ht := hpicked.target
    have hcontext := h.contextAt_returned hroom hpicked ht
    have hload := loadContext_eq hexit
    have hentry := h.entry hroom
    obtain ⟨_, _, hself, hplace⟩ := h.target_stack hroom ht
    rw [← hcontext] at hself hplace
    have hlow := hexit.room
    have htop : (contextAt returned.mem (returned.reg .eax) .esp - UInt32.ofNat 4).toNat =
        (contextAt returned.mem (returned.reg .eax) .esp).toNat - 4 := toNat_sub_offset hlow
    have htssStack := hexit.tssApart
    have hcurrent := h.current_yield hroom hpicked
    have hout := fun n => h.loaded_out (n := n) hroom hpicked
    generalize hu : returned.reg .eax = u at *
    refine ⟨rfl, rfl, hcurrent.symm ▸ ht, ?_, ?_, ?_, ?_, ?_, fun t hmem => ?_,
      fun t n hn hown hnext => ?_⟩
    · rw [hcurrent, ← hcontext, hload]
    · rw [hcurrent, ← hcontext, hload]
    · rw [hcurrent, ← hcontext, hload]
      simp only
      apply load_congr
      intro n hlo hhi
      apply h.stack_returned hroom hpicked (hplace n (by omega) hhi)
      intro heq
      rw [← hself heq]
      exact hlo
    · rw [hcurrent, ← hcontext, hload]
      simp only
      rw [hpicked.cr3, saveContext_eq hentry]
    · rw [hcurrent, ← hcontext]
      simp only [hload]
      rw [load_store_of_disjoint (by omega)]
      exact load_store_self
    · rw [← h.contextAt_returned hroom hpicked hmem]
      apply contextAt_congr (h.bound t hmem)
      intro n hlo hhi
      have hown := h.context t hmem n hlo hhi
      apply hout n (by simp [hown]) (by simp [hown])
      refine out_of_place s.place (.stack u) (fun i hi hi' => hplace i hi (by omega)) ?_
      simp [hown]
    · rw [← h.stack_returned hroom hpicked hn hown]
      apply hout n (by simp [hn]) (by simp [hn])
      by_cases htu : t = u
      · subst htu
        rw [hcontext]
        exact Or.inr (hnext hcurrent.symm)
      · refine out_of_place s.place (.stack u) (fun i hi hi' => hplace i hi (by omega)) ?_
        rw [hn]
        simpa using htu

end Yield

section Steps
variable {k : Kernel} {s s' : System} {a : Action} {t tcb kstack : UInt32}
    {args : TcbArgs} {n : Nat}

/-- The memory and its use change only where a new thread is put. -/
theorem create_other (hfresh : Fresh tcb kstack args)
    (htcb : ∀ n, tcb.toNat ≤ n → n < tcb.toNat + tcbSize → s.place n = .other)
    (hstack : ∀ n, kstack.toNat ≤ n → n < kstack.toNat + args.kstackSize.toNat → s.place n = .other)
    (hn : s.place n ≠ .other) :
    newPlace s.place tcb kstack args n = s.place n ∧
      (tcbInit s.cpu.mem tcb args (some kstack)).2 n = s.cpu.mem n := by
  have hone := out_of_place s.place .other htcb hn
  have htwo := out_of_place s.place .other hstack hn
  have hsize := hfresh.size
  have hle : contextSize ≤ tcbSize := by decide
  refine ⟨?_, tcbInit_out hfresh hone (by omega)⟩
  unfold newPlace
  rw [if_neg (by omega), if_neg (by omega), if_neg (by omega)]

theorem newPlace_stack (hfresh : Fresh tcb kstack args) (hlo : kstack.toNat ≤ n)
    (hhi : n < kstack.toNat + args.kstackSize.toNat) :
    newPlace s.place tcb kstack args n = .stack tcb := by
  have hapart := hfresh.apart
  have hle : contextSize ≤ tcbSize := by decide
  unfold newPlace
  rw [if_neg (by omega), if_neg (by omega), if_pos (by omega)]

theorem newPlace_context (hlo : tcb.toNat ≤ n) (hhi : n < tcb.toNat + contextSize) :
    newPlace s.place tcb kstack args n = .context tcb := by
  unfold newPlace
  exact if_pos ⟨hlo, hhi⟩

theorem newPlace_stack_iff (hne : t ≠ tcb)
    (htcb : ∀ n, tcb.toNat ≤ n → n < tcb.toNat + tcbSize → s.place n = .other)
    (hstack : ∀ n, kstack.toNat ≤ n → n < kstack.toNat + args.kstackSize.toNat →
      s.place n = .other) :
    newPlace s.place tcb kstack args n = .stack t ↔ s.place n = .stack t := by
  have hsize : contextSize ≤ tcbSize := by decide
  unfold newPlace
  split_ifs with hone htwo hthree
  · have hother := htcb n hone.1 (by omega)
    simp [hother]
  · have hother := htcb n htwo.1 htwo.2
    simp [hother]
  · have hother := hstack n hthree.1 hthree.2
    simp [hother, Ne.symm hne]
  · exact Iff.rfl

theorem freedPlace_of_ne {p : Place} (hp : s.place n = p) (hcontext : p ≠ .context tcb)
    (hfields : p ≠ .fields tcb) (hstack : p ≠ .stack tcb) : freedPlace s.place tcb n = p := by
  unfold freedPlace
  rw [hp, if_neg]
  rintro (heq | heq | heq)
  · exact hcontext heq
  · exact hfields heq
  · exact hstack heq

theorem freedPlace_stack_iff (hne : t ≠ tcb) :
    freedPlace s.place tcb n = .stack t ↔ s.place n = .stack t := by
  constructor
  · unfold freedPlace
    split_ifs with hfreed
    · exact fun h => absurd h (by simp)
    · exact id
  · intro hn
    exact freedPlace_of_ne hn (by simp) (by simp) (by simpa using hne)

theorem current_congr (h : Sane k s)
    (hmem : ∀ n, s.place n = .current → s'.cpu.mem n = s.cpu.mem n) :
    s'.current k = s.current k := by
  apply load_congr
  intro n hlo hhi
  exact hmem n (h.current n hlo hhi)

theorem Sane.contextAt_congr (h : Sane k s) (ht : t ∈ s.threads)
    (hmem : ∀ n, s.place n = .context t → s'.cpu.mem n = s.cpu.mem n) :
    contextAt s'.cpu.mem t = contextAt s.cpu.mem t := by
  apply ContextSwitch.contextAt_congr (h.bound t ht)
  intro n hlo hhi
  exact hmem n (h.context t ht n hlo hhi)

theorem Parked.congr (h : Parked s t) (hcontext : contextAt s'.cpu.mem t = contextAt s.cpu.mem t)
    (hplace : ∀ n, s.place n = .stack t → s'.place n = .stack t) : Parked s' t := by
  refine ⟨?_, ?_, fun n hlo hhi => ?_⟩
  · rw [hcontext]
    exact h.below
  · rw [hcontext]
    exact h.above
  · rw [hcontext] at hlo hhi
    exact hplace n (h.stack n hlo hhi)

theorem firstContext_parked (hfresh : Fresh tcb kstack args)
    (hcontext : contextAt s'.cpu.mem tcb = firstContext kstack args)
    (hplace : ∀ n, kstack.toNat ≤ n → n < kstack.toNat + args.kstackSize.toNat →
    s'.place n = .stack tcb) :
    Parked s' tcb := by
  obtain ⟨_, _, _, hesp⟩ := hfresh.words
  have hsize := hfresh.size
  have hstack := hfresh.stack
  refine ⟨?_, ?_, fun n hlo hhi => ?_⟩
  · rw [hcontext]
    simp only [firstContext]
    omega
  · rw [hcontext]
    simp only [firstContext]
    omega
  · rw [hcontext] at hlo hhi
    simp only [firstContext] at hlo hhi
    exact hplace n (by omega) (by omega)

/-- What a step leaves of a thread that it does not free. -/
theorem Step.thread (h : Sane k s) (hstep : Step k s a s') (ht : t ∈ s.threads)
    (hreap : a ≠ .reap t) : t ∈ s'.threads ∧ ∀ n, s'.place n = .stack t ↔ s.place n = .stack t := by
  cases hstep with
  | exec hforeign => exact ⟨ht, fun n => Iff.rfl⟩
  | create hfresh hnew htcb hstack =>
    refine ⟨List.mem_cons_of_mem _ ht, fun n => newPlace_stack_iff ?_ htcb hstack⟩
    rintro rfl
    exact hnew ht
  | @reap tcb hne =>
    have hother : t ≠ tcb := by
      rintro rfl
      exact hreap rfl
    exact ⟨List.mem_filter.mpr ⟨ht, by simpa using hother⟩, fun n => freedPlace_stack_iff hother⟩
  | yield hroom hpicked =>
    have hswitched := h.switched (Step.yield hroom hpicked)
    exact ⟨hswitched.threads ▸ ht, fun n => by rw [hswitched.place]⟩

theorem Sane.step (h : Sane k s) (hstep : Step k s a s') : Sane k s' := by
  cases hstep with
  | @exec cpu hforeign =>
    have hcurrent : System.current k { s with cpu := cpu } = s.current k :=
      current_congr h fun n hn => hforeign n (by rw [hn]; trivial)
    have hcontext : ∀ t ∈ s.threads, contextAt ({ s with cpu := cpu } : System).cpu.mem t =
        contextAt s.cpu.mem t := fun t ht =>
      h.contextAt_congr ht fun n hn => hforeign n (by rw [hn]; trivial)
    refine ⟨h.current, h.tss, hcurrent.symm ▸ h.running, h.bound, h.context, fun t ht hne => ?_⟩
    exact (h.parked t ht (hcurrent ▸ hne)).congr (hcontext t ht) fun _ => id
  | @create tcb kstack args hfresh hnew htcb hstack =>
    have hkept : ∀ n, s.place n ≠ .other → newPlace s.place tcb kstack args n = s.place n ∧
        (tcbInit s.cpu.mem tcb args (some kstack)).2 n = s.cpu.mem n :=
      fun n => create_other hfresh htcb hstack
    have hcurrent : (s.create tcb kstack args).current k = s.current k :=
      current_congr h fun n hn => (hkept n (by simp [hn])).2
    refine ⟨fun n hlo hhi => ?_, fun n hlo hhi => ?_, ?_, fun t ht => ?_, fun t ht n hlo hhi => ?_,
      fun t ht hne => ?_⟩
    · have hn := h.current n hlo hhi
      exact (hkept n (by simp [hn])).1.trans hn
    · have hn := h.tss n hlo hhi
      exact (hkept n (by simp [hn])).1.trans hn
    · rw [hcurrent]
      exact List.mem_cons_of_mem tcb h.running
    · rcases List.mem_cons.mp ht with rfl | ht
      · exact hfresh.context
      · exact h.bound t ht
    · rcases List.mem_cons.mp ht with rfl | ht
      · exact newPlace_context hlo hhi
      · have hn := h.context t ht n hlo hhi
        exact (hkept n (by simp [hn])).1.trans hn
    · rcases List.mem_cons.mp ht with rfl | ht
      · exact firstContext_parked hfresh (contextAt_tcbInit hfresh) fun n => newPlace_stack hfresh
      · have hcontext : contextAt (s.create tcb kstack args).cpu.mem t = contextAt s.cpu.mem t :=
          h.contextAt_congr ht fun n hn => (hkept n (by simp [hn])).2
        refine (h.parked t ht (hcurrent ▸ hne)).congr hcontext fun n hn => ?_
        exact (hkept n (by simp [hn])).1.trans hn
  | @reap tcb hne =>
    have hmem : ∀ t ∈ s.threads.filter (· ≠ tcb), t ∈ s.threads ∧ t ≠ tcb := by
      intro t ht
      obtain ⟨ht, hdec⟩ := List.mem_filter.mp ht
      exact ⟨ht, by simpa using hdec⟩
    refine ⟨fun n hlo hhi => ?_, fun n hlo hhi => ?_, ?_, fun t ht => h.bound t (hmem t ht).1,
      fun t ht n hlo hhi => ?_, fun t ht hcur => ?_⟩
    · exact freedPlace_of_ne (h.current n hlo hhi) (by simp) (by simp) (by simp)
    · exact freedPlace_of_ne (h.tss n hlo hhi) (by simp) (by simp) (by simp)
    · have hrunning : s.current k ∈ s.threads.filter (· ≠ tcb) :=
        List.mem_filter.mpr ⟨h.running, by simpa using hne.symm⟩
      exact hrunning
    · obtain ⟨ht, htne⟩ := hmem t ht
      exact freedPlace_of_ne (h.context t ht n hlo hhi) (by simpa using htne) (by simp) (by simp)
    · obtain ⟨ht, htne⟩ := hmem t ht
      exact (h.parked t ht hcur).congr rfl fun n => (freedPlace_stack_iff htne).mpr
  | yield hroom hpicked =>
    have hswitched := h.switched (Step.yield hroom hpicked)
    generalize hs' : ({ s with cpu := loadContext k _ } : System) = s' at hswitched
    refine ⟨?_, ?_, ?_, ?_, ?_, fun t ht hne => ?_⟩
    · rw [hswitched.place]
      exact h.current
    · rw [hswitched.place]
      exact h.tss
    · rw [hswitched.threads]
      exact hswitched.target
    · rw [hswitched.threads]
      exact h.bound
    · rw [hswitched.threads, hswitched.place]
      exact h.context
    · rw [hswitched.threads] at ht
      obtain ⟨hlow, hhigh, _, hplace⟩ := h.target_stack hroom ht
      rw [← hswitched.context t ht] at hlow hhigh hplace
      refine ⟨hlow, hhigh, ?_⟩
      rw [hswitched.place]
      exact hplace

theorem Sane.of_run {as : List Action} (hboot : Booted k s)
    (hrun : Run (Step k) s as s') : Sane k s' :=
  hrun.invariant _ (fun _ _ _ h hstep => h.step hstep) hboot.sane

end Steps

/-! A thread that is away, and its return. -/

section Away
variable {k : Kernel} {s s' : System} {a : Action} {t : UInt32} {c : Field → UInt32} {m : Memory}
  {place : Nat → Place} {b : UInt32}

/-- The context of the thread, and its stack from the saved stack pointer on. -/
structure Held (t : UInt32) (c : Field → UInt32) (m : Memory) (place : Nat → Place)
    (s : System) : Prop where
  mem : t ∈ s.threads
  uses : ∀ n, s.place n = .stack t ↔ place n = .stack t
  stack : ∀ n, place n = .stack t → (c .esp).toNat ≤ n → s.cpu.mem n = m n

structure Asleep (k : Kernel) (t : UInt32) (c : Field → UInt32) (m : Memory) (place : Nat → Place)
    (s : System) : Prop where
  held : Held t c m place s
  away : s.current k ≠ t
  context : contextAt s.cpu.mem t = c

/-- The thread continues where its context says. -/
structure Resumed (k : Kernel) (t : UInt32) (c : Field → UInt32) (m : Memory) (place : Nat → Place)
    (s : System) : Prop where
  held : Held t c m place s
  current : s.current k = t
  reg : s.cpu.reg = contextReg c
  eflags : s.cpu.eflags = .ofImage (c .eflags)
  eip : s.cpu.eip = load m (c .esp)

/-- The thread is away, and is not freed. -/
def Away (k : Kernel) (t : UInt32) (s : System) (a : Action) : Prop := s.current k ≠ t ∧ a ≠ .reap t

/-- The stack of a thread that does not run is written by a switch to it at most. -/
theorem Step.stack_kept (h : Sane k s) (hstep : Step k s a s')
    (hcurrent : s.current k ≠ t) {n : Nat}
    (hn : s.place n = .stack t)
    (hnext : s'.current k = t → (contextAt s.cpu.mem t .esp).toNat ≤ n) :
    s'.cpu.mem n = s.cpu.mem n := by
  cases hstep with
  | exec hforeign =>
    apply hforeign
    rw [hn]
    exact hcurrent.symm
  | create hfresh hnew htcb hstack => exact (create_other hfresh htcb hstack (by simp [hn])).2
  | reap => rfl
  | yield hroom hpicked =>
    have hswitched := h.switched (Step.yield hroom hpicked)
    refine hswitched.stack t n hn (fun heq => absurd heq.symm hcurrent) fun heq => ?_
    rw [nextContext, if_neg hcurrent.symm]
    exact hnext heq.symm

theorem Step.context_kept (h : Sane k s) (hstep : Step k s a s') (ht : t ∈ s.threads)
    (hcurrent : s.current k ≠ t) : contextAt s'.cpu.mem t = contextAt s.cpu.mem t := by
  cases hstep with
  | exec hforeign => exact h.contextAt_congr ht fun n hn => hforeign n (by rw [hn]; trivial)
  | create hfresh hnew htcb hstack =>
    exact h.contextAt_congr ht fun n hn => (create_other hfresh htcb hstack (by simp [hn])).2
  | reap => rfl
  | yield hroom hpicked =>
    have hswitched := h.switched (Step.yield hroom hpicked)
    rw [hswitched.context t ht, nextContext, if_neg hcurrent.symm]

theorem Step.current_kept (h : Sane k s) (hstep : Step k s a s')
    (ha : ∀ returned, a ≠ .yield returned) :
    s'.current k = s.current k := by
  cases hstep with
  | exec hforeign => exact current_congr h fun n hn => hforeign n (by rw [hn]; trivial)
  | create hfresh hnew htcb hstack =>
    exact current_congr h fun n hn => (create_other hfresh htcb hstack (by simp [hn])).2
  | reap => rfl
  | yield hroom hpicked => exact absurd rfl (ha _)

theorem Asleep.step (h : Asleep k t c m place s) (hsane : Sane k s) (hstep : Step k s a s')
    (haway : Away k t s a) : Asleep k t c m place s' ∨ Resumed k t c m place s' := by
  obtain ⟨hcurrent, hreap⟩ := haway
  obtain ⟨hmem, hplace⟩ := hstep.thread hsane h.held.mem hreap
  have hheld : Held t c m place s' := by
    refine ⟨hmem, fun n => (hplace n).trans (h.held.uses n), fun n hn hle => ?_⟩
    rw [← h.held.stack n hn hle]
    apply hstep.stack_kept hsane hcurrent ((h.held.uses n).mpr hn)
    intro _
    rw [h.context]
    exact hle
  by_cases hnext : s'.current k = t
  · right
    cases hstep with
    | yield hroom hpicked =>
      have hswitched := hsane.switched (Step.yield hroom hpicked)
      have hcontext : nextContext k s t = c := by
        rw [nextContext, if_neg hcurrent.symm]
        exact h.context
      have hreg := hswitched.reg
      have heflags := hswitched.eflags
      have heip := hswitched.eip
      rw [hnext, hcontext] at hreg heflags heip
      refine ⟨hheld, hnext, hreg, heflags, ?_⟩
      rw [heip]
      apply load_congr
      intro n hlo hhi
      have hparked := hsane.parked t h.held.mem hcurrent.symm
      apply h.held.stack n ((h.held.uses n).mp (hparked.stack n ?_ ?_)) hlo
      · rw [h.context]
        omega
      · rw [h.context]
        omega
    | exec hforeign =>
      refine absurd (Step.current_kept hsane (Step.exec hforeign) ?_) ?_
      · intro _ heq
        cases heq
      · rw [hnext]
        exact hcurrent.symm
    | create hfresh hnew htcb hstack =>
      refine absurd (Step.current_kept hsane (Step.create hfresh hnew htcb hstack) ?_) ?_
      · intro _ heq
        cases heq
      · rw [hnext]
        exact hcurrent.symm
    | reap hne => exact absurd hnext hcurrent
  · left
    refine ⟨hheld, hnext, ?_⟩
    rw [hstep.context_kept hsane h.held.mem hcurrent]
    exact h.context

theorem Asleep.run {as : List Action} (h : Asleep k t c m place s ∨ Resumed k t c m place s)
    (hsane : Sane k s) (hrun : Run (Guarded (Step k) (Away k t)) s as s') :
    Asleep k t c m place s' ∨ Resumed k t c m place s' := by
  have hend := hrun.invariant
    (fun s => Sane k s ∧ (Asleep k t c m place s ∨ Resumed k t c m place s)) ?_ ⟨hsane, h⟩
  · exact hend.2
  · rintro s₁ a s₂ ⟨hsane, hasleep | hresumed⟩ ⟨haway, hstep⟩
    · exact ⟨hsane.step hstep, hasleep.step hsane hstep haway⟩
    · exact absurd hresumed.current haway.1

theorem Asleep.resumed {as : List Action} (h : Asleep k t c m place s ∨ Resumed k t c m place s)
    (hsane : Sane k s) (hrun : Run (Guarded (Step k) (Away k t)) s as s')
    (hcurrent : s'.current k = t) :
    Resumed k t c m place s' := by
  rcases Asleep.run h hsane hrun with hasleep | hresumed
  · exact absurd hcurrent hasleep.away
  · exact hresumed

/-- A thread that calls `scheduler_yield` goes to sleep, or is picked itself. -/
theorem Sane.yields (h : Sane k s) {returned : Cpu} (hstep : Step k s (.yield returned) s') :
    Asleep k (s.current k) (entryContext s.cpu (s.current k)) s.cpu.mem s.place s' ∨
    Resumed k (s.current k) (entryContext s.cpu (s.current k)) s.cpu.mem s.place s' := by
  have hswitched := h.switched hstep
  have hown : nextContext k s (s.current k) = entryContext s.cpu (s.current k) := if_pos rfl
  have hheld : Held (s.current k) (entryContext s.cpu (s.current k)) s.cpu.mem s.place s' := by
    refine ⟨hswitched.threads ▸ h.running, fun n => by rw [hswitched.place], fun n hn hle => ?_⟩
    apply hswitched.stack _ n hn (fun _ => hle)
    rw [hown]
    exact fun _ => hle
  by_cases hnext : s'.current k = s.current k
  · right
    have hreg := hswitched.reg
    have heflags := hswitched.eflags
    have heip := hswitched.eip
    rw [hnext, hown] at hreg heflags heip
    exact ⟨hheld, hnext, hreg, heflags, heip⟩
  · left
    refine ⟨hheld, hnext, ?_⟩
    rw [hswitched.context _ h.running, hown]

theorem Sane.created (h : Sane k s) {tcb kstack : UInt32} {args : TcbArgs}
    (hstep : Step k s (.create tcb kstack args) s') :
    Asleep k tcb (firstContext kstack args) s'.cpu.mem s'.place s' := by
  have hcurrent := hstep.current_kept h fun _ heq => by cases heq
  cases hstep with
  | create hfresh hnew htcb hstack =>
    refine ⟨⟨List.mem_cons_self, fun n => Iff.rfl, fun n _ _ => rfl⟩, fun heq => hnew ?_,
      contextAt_tcbInit hfresh⟩
    rw [← heq, hcurrent]
    exact h.running

/-! The first call of a new thread. -/

/-- What the thread leaves alone while it is in a function that was entered with the stack pointer
`b`: the return address, and the caller's frame after the one argument. -/
structure InCall (k : Kernel) (t b : UInt32) (m : Memory) (place : Nat → Place)
    (s : System) : Prop where
  mem : t ∈ s.threads
  uses : ∀ n, s.place n = .stack t ↔ place n = .stack t
  saved : s.current k ≠ t → (contextAt s.cpu.mem t .esp).toNat ≤ b.toNat
  frame : ∀ n, place n = .stack t → b.toNat ≤ n → (n < b.toNat + 4 ∨ b.toNat + 8 ≤ n) →
    s.cpu.mem n = m n

/-- The function follows the calling convention. -/
def Calling (k : Kernel) (t b : UInt32) (s : System) : Action → Prop
  | .exec cpu => s.current k = t → ∀ n, s.place n = .stack t → b.toNat ≤ n →
      (n < b.toNat + 4 ∨ b.toNat + 8 ≤ n) → cpu.mem n = s.cpu.mem n
  | .yield _ => s.current k = t → (s.cpu.reg .esp).toNat ≤ b.toNat
  | .reap u => u ≠ t
  | .create _ _ _ => True

theorem InCall.step (h : InCall k t b m place s) (hsane : Sane k s) (hstep : Step k s a s')
    (hcalling : Calling k t b s a) : InCall k t b m place s' := by
  have hreap : a ≠ .reap t := by
    rintro rfl
    exact hcalling rfl
  obtain ⟨hmem, hplace⟩ := hstep.thread hsane h.mem hreap
  have huses : ∀ n, s'.place n = .stack t ↔ place n = .stack t :=
    fun n => (hplace n).trans (h.uses n)
  by_cases hcurrent : s.current k = t
  · -- the thread itself runs, and keeps to the convention
    cases hstep with
    | exec hforeign =>
      have hsame := (Step.exec hforeign).current_kept hsane fun _ heq => by cases heq
      refine ⟨hmem, huses, fun hne => absurd (hsame.trans hcurrent) hne, fun n hn hlo hout => ?_⟩
      rw [← h.frame n hn hlo hout]
      exact hcalling hcurrent n ((h.uses n).mpr hn) hlo hout
    | create hfresh hnew htcb hstack =>
      have hsame := (Step.create hfresh hnew htcb hstack).current_kept hsane fun _
        heq => by cases heq
      refine ⟨hmem, huses, fun hne => absurd (hsame.trans hcurrent) hne, fun n hn hlo hout => ?_⟩
      rw [← h.frame n hn hlo hout]
      exact (create_other hfresh htcb hstack (by simp [(h.uses n).mpr hn])).2
    | reap => exact ⟨hmem, huses, fun hne => absurd hcurrent hne, h.frame⟩
    | yield hroom hpicked =>
      have hswitched := hsane.switched (Step.yield hroom hpicked)
      have hown : nextContext k s t .esp = s.cpu.reg .esp := by
        rw [nextContext, if_pos hcurrent.symm]
        rfl
      have hle : (s.cpu.reg .esp).toNat ≤ b.toNat := hcalling hcurrent
      refine ⟨hmem, huses, fun _ => ?_, fun n hn hlo hout => ?_⟩
      · rw [hswitched.context t h.mem, hown]
        exact hle
      · rw [← h.frame n hn hlo hout]
        apply hswitched.stack t n ((h.uses n).mpr hn)
        · intro _
          omega
        · rw [hown]
          intro _
          omega
  · have hsaved := h.saved hcurrent
    refine ⟨hmem, huses, fun _ => ?_, fun n hn hlo hout => ?_⟩
    · rw [hstep.context_kept hsane h.mem hcurrent]
      exact hsaved
    · rw [← h.frame n hn hlo hout]
      apply hstep.stack_kept hsane hcurrent ((h.uses n).mpr hn)
      intro _
      omega

theorem InCall.run {as : List Action} (h : InCall k t b m place s) (hsane : Sane k s)
    (hrun : Run (Guarded (Step k) (Calling k t b)) s as s') : InCall k t b m place s' := by
  have hend := hrun.invariant (fun s => Sane k s ∧ InCall k t b m place s) ?_ ⟨hsane, h⟩
  · exact hend.2
  · rintro s₁ a s₂ ⟨hsane, hcall⟩ ⟨hcalling, hstep⟩
    exact ⟨hsane.step hstep, hcall.step hsane hstep hcalling⟩

/-- A new thread that was picked for the first time. -/
structure Started (k : Kernel) (t top : UInt32) (args : TcbArgs) (s : System) : Prop where
  eip : s.cpu.eip = args.startfunc
  interrupts : s.cpu.eflags.interrupts = true
  esp : s.cpu.reg .esp = top - UInt32.ofNat 12
  back : load s.cpu.mem (s.cpu.reg .esp) = args.exitfunc
  argument : load s.cpu.mem (s.cpu.reg .esp + UInt32.ofNat 4) = args.ud
  after : load s.cpu.mem (s.cpu.reg .esp + UInt32.ofNat 8) = args.ud
  incall : InCall k t (s.cpu.reg .esp) s.cpu.mem s.place s
  frame : ∀ n, (s.cpu.reg .esp).toNat ≤ n → n < (s.cpu.reg .esp).toNat + 12 → s.place n = .stack t
  bound : (s.cpu.reg .esp).toNat + 12 ≤ 2 ^ 32

theorem Sane.started (h : Sane k s) {tcb kstack : UInt32} {args : TcbArgs} {s₁ : System}
    {as : List Action}
    (hstep : Step k s (.create tcb kstack args) s₁)
    (hrun : Run (Guarded (Step k) (Away k tcb)) s₁ as s')
    (hcurrent : s'.current k = tcb) : Started k tcb (kstack + args.kstackSize) args s' := by
  have hresumed := Asleep.resumed (Or.inl (h.created hstep)) (h.step hstep) hrun hcurrent
  cases hstep with
  | create hfresh hnew htcb hstack =>
    obtain ⟨hone, htwo, hthree, hfour⟩ := hfresh.words
    obtain ⟨hstart, hexit, hud, hud₂⟩ := tcbInit_words (m := s.cpu.mem) hfresh
    have htop := hfresh.top
    have hsize := hfresh.size
    have hesp : s'.cpu.reg .esp = kstack + args.kstackSize - UInt32.ofNat 4 - UInt32.ofNat 4 -
        UInt32.ofNat 4 := by
      rw [hresumed.reg]
      exact UInt32.sub_add_cancel _ _
    have hword : ∀ i : Nat, i ≤ 8 → (s'.cpu.reg .esp + UInt32.ofNat i).toNat =
        kstack.toNat + args.kstackSize.toNat - 12 + i := by
      intro i hi
      have hbound := (kstack + args.kstackSize).toNat_lt
      rw [toNat_add_offset (by rw [hesp]; omega), hesp, hthree]
    have hplace : ∀ n, kstack.toNat ≤ n → n < kstack.toNat + args.kstackSize.toNat →
        (s.create tcb kstack args).place n = .stack tcb := fun n => newPlace_stack hfresh
    -- the words above the start function are still those of `tcb_init`
    have hkept : ∀ a : UInt32, kstack.toNat + args.kstackSize.toNat - 12 ≤ a.toNat →
        a.toNat + 4 ≤ kstack.toNat + args.kstackSize.toNat →
        load s'.cpu.mem a = load (tcbInit s.cpu.mem tcb args (some kstack)).2 a := by
      intro a hlo hhi
      apply load_congr
      intro n hn hn'
      apply hresumed.held.stack n (hplace n (by omega) (by omega))
      simp only [firstContext]
      omega
    have haddr : ∀ a : UInt32, ∀ i : Nat, i ≤ 8 →
        a.toNat = kstack.toNat + args.kstackSize.toNat - 12 + i →
            s'.cpu.reg .esp + UInt32.ofNat i = a := by
      intro a i hi ha
      apply UInt32.toNat_inj.mp
      rw [hword i hi, ha]
    have hback : load s'.cpu.mem (s'.cpu.reg .esp) = args.exitfunc := by
      rw [hesp, hkept _ (by omega) (by omega)]
      exact hexit
    refine ⟨?_, ?_, ?_, hback, ?_, ?_, ?_, ?_, ?_⟩
    · rw [hresumed.eip]
      exact hstart
    · rw [hresumed.eflags]
      simp only [firstContext]
      decide
    · apply UInt32.toNat_inj.mp
      rw [hesp, hthree, toNat_sub_offset (by omega), htop]
    · rw [haddr _ 4 (by omega) (by rw [htwo]; omega), hkept _ (by omega) (by omega)]
      exact hud
    · rw [haddr _ 8 (by omega) (by rw [hone]; omega), hkept _ (by omega) (by omega)]
      exact hud₂
    · exact ⟨hresumed.held.mem, fun n => Iff.rfl, fun hne => absurd hresumed.current hne,
        fun n _ _ _ => rfl⟩
    · intro n hlo hhi
      rw [hesp, hthree] at hlo hhi
      exact (hresumed.held.uses n).mpr (hplace n (by omega) (by omega))
    · have hstack := hfresh.stack
      rw [hesp, hthree]
      omega

/-- When the start function returns, the exit function is entered with the same argument. -/
theorem Started.returns {top : UInt32} {args : TcbArgs} {as : List Action}
    (h : Started k t top args s)
    (hsane : Sane k s) (hrun : Run (Guarded (Step k) (Calling k t (s.cpu.reg .esp))) s as s')
    (hesp : s'.cpu.reg .esp = s.cpu.reg .esp) :
    s'.cpu.ret.eip = args.exitfunc ∧
      load s'.cpu.ret.mem (s'.cpu.ret.reg .esp + UInt32.ofNat 4) = args.ud := by
  have hcall := h.incall.run hsane hrun
  have hbound := h.bound
  have hret : s'.cpu.ret.reg .esp = s.cpu.reg .esp + UInt32.ofNat 4 := by
    rw [← hesp]
    rfl
  have height : s.cpu.reg .esp + UInt32.ofNat 4 + UInt32.ofNat 4 =
      s.cpu.reg .esp + UInt32.ofNat 8 := by
    rw [UInt32.add_assoc]
    rfl
  have htoNat : (s.cpu.reg .esp + UInt32.ofNat 8).toNat = (s.cpu.reg .esp).toNat + 8 :=
    toNat_add_offset (by omega)
  have hmem : s'.cpu.ret.mem = s'.cpu.mem := rfl
  have heip : s'.cpu.ret.eip = load s'.cpu.mem (s'.cpu.reg .esp) := rfl
  refine ⟨?_, ?_⟩
  · rw [heip, hesp, ← h.back]
    apply load_congr
    intro n hlo hhi
    exact hcall.frame n (h.frame n hlo (by omega)) hlo (Or.inl hhi)
  · rw [hret, height, hmem, ← h.after]
    apply load_congr
    intro n hlo hhi
    exact hcall.frame n (h.frame n (by omega) (by omega)) (by omega) (Or.inr (by omega))

end Away

theorem context_switch_transparent {k : Kernel} {s₀ s : System} {as : List Action}
    (hboot : Booted k s₀)
    (hrun : Run (Step k) s₀ as s) :
    (∀ returned s', Step k s (.yield returned) s' →
      load s'.cpu.mem k.tssEsp0 = contextAt s.cpu.mem (s'.current k) .esp0 ∧
      s'.cpu.cr3 = if contextAt s.cpu.mem (s'.current k) .pagedir = 0 then s.cpu.cr3
        else contextAt s.cpu.mem (s'.current k) .pagedir) ∧
    (∀ returned s₁ bs s', Step k s (.yield returned) s₁ →
      Run (Guarded (Step k) (Away k (s.current k))) s₁ bs s' → s'.current k = s.current k →
      (∀ r, r ≠ .esp → s'.cpu.reg r = s.cpu.reg r) ∧
      s'.cpu.reg .esp = s.cpu.reg .esp + UInt32.ofNat 4 ∧ s'.cpu.eflags = s.cpu.eflags ∧
      s'.cpu.eip = load s.cpu.mem (s.cpu.reg .esp) ∧
      ∀ n, s.place n = .stack (s.current k) → (s.cpu.reg .esp).toNat ≤ n →
        s'.cpu.mem n = s.cpu.mem n) ∧
    ∀ tcb kstack args s₁ bs s', Step k s (.create tcb kstack args) s₁ →
      Run (Guarded (Step k) (Away k tcb)) s₁ bs s' → s'.current k = tcb →
      (s'.cpu.eip = args.startfunc ∧ s'.cpu.eflags.interrupts = true ∧
        load s'.cpu.mem (s'.cpu.reg .esp + UInt32.ofNat 4) = args.ud) ∧
      ∀ cs s'', Run (Guarded (Step k) (Calling k tcb (s'.cpu.reg .esp))) s' cs s'' →
        s''.current k = tcb → s''.cpu.reg .esp = s'.cpu.reg .esp →
        s''.cpu.ret.eip = args.exitfunc ∧
        load s''.cpu.ret.mem (s''.cpu.ret.reg .esp + UInt32.ofNat 4) = args.ud := by
  have hsane := Sane.of_run hboot hrun
  refine ⟨fun returned s' hstep => ?_, fun returned s₁ bs s' hstep hbs hcurrent => ?_,
    fun tcb kstack args s₁ bs s' hstep hbs hcurrent => ?_⟩
  · have hswitched := hsane.switched hstep
    have hkept : nextContext k s (s'.current k) .esp0 = contextAt s.cpu.mem (s'.current k) .esp0 ∧
        nextContext k s (s'.current k) .pagedir = contextAt s.cpu.mem (s'.current k) .pagedir := by
      unfold nextContext
      split_ifs <;> exact ⟨rfl, rfl⟩
    rw [hswitched.tss, hswitched.cr3, hkept.1, hkept.2]
    exact ⟨rfl, rfl⟩
  · have hresumed := Asleep.resumed (hsane.yields hstep) (hsane.step hstep) hbs hcurrent
    refine ⟨fun r hr => ?_, ?_, ?_, hresumed.eip, hresumed.held.stack⟩
    · rw [hresumed.reg]
      cases r with
      | esp => exact absurd rfl hr
      | eax | ebx | ecx | edx | ebp | esi | edi => rfl
    · rw [hresumed.reg]
      rfl
    · rw [hresumed.eflags]
      exact Eflags.ofImage_image _
  · have hstarted := hsane.started hstep hbs hcurrent
    have hsane' : Sane k s' :=
      hbs.of_guarded.invariant _ (fun _ _ _ h hstep => h.step hstep) (hsane.step hstep)
    exact ⟨⟨hstarted.eip, hstarted.interrupts, hstarted.argument⟩,
      fun cs s'' hcs _ hesp => hstarted.returns hsane' hcs hesp⟩

/-! A boot thread that creates a thread and yields to it. -/

/-- A `scheduler_pick` that returns the given TCB and writes nothing. -/
def pickReturn (k : Kernel) (s : System) (t : UInt32) : Cpu :=
  { saveContext k s.cpu with
    reg := fun r => if r = .eax then t
      else if r = .esp then (saveContext k s.cpu).reg .esp + UInt32.ofNat 4
      else (saveContext k s.cpu).reg r,
    eip := k.back }

theorem picked_pickReturn {k : Kernel} {s : System} {t : UInt32} (ht : t ∈ s.threads) :
    Picked k s (saveContext k s.cpu) (pickReturn k s t) := by
  unfold pickReturn
  generalize saveContext k s.cpu = called
  refine ⟨ht, rfl, fun r hr => ?_, rfl, rfl, fun n hne => absurd rfl hne⟩
  simp only [List.mem_cons, List.not_mem_nil, or_false] at hr
  rcases hr with rfl | rfl | rfl | rfl <;> rfl

def smallKernel : Kernel := ⟨0x1000, 0x2000, 0x3000, 0x4000⟩

def smallPlace (n : Nat) : Place :=
  if 0x1000 ≤ n ∧ n < 0x1004 then .current
  else if 0x2000 ≤ n ∧ n < 0x2004 then .tss
  else if 0x5000 ≤ n ∧ n < 0x5000 + contextSize then .context 0x5000
  else if 0x6000 ≤ n ∧ n < 0x7000 then .stack 0x5000
  else .other

def smallSystem : System where
  cpu := ⟨fun r => if r = .esp then 0x6800 else 0, .ofImage 0x202, 0, 0,
    store (fun _ => 0) 0x1000 0x5000⟩
  place := smallPlace
  threads := [0x5000]

def smallArgs : TcbArgs := ⟨0, 0, 2, 16, 64, 0x100, 0x200, 0x300⟩

def smallCreated : System := smallSystem.create 0x8000 0x9000 smallArgs

def smallYielded : System :=
  { smallCreated with cpu := loadContext smallKernel (pickReturn smallKernel smallCreated 0x8000) }

theorem smallSystem_current : smallSystem.current smallKernel = 0x5000 := load_store_self

theorem smallSystem_booted : Booted smallKernel smallSystem := by
  have hsize : contextSize = 44 := rfl
  refine ⟨?_, fun n hlo hhi => ?_, fun n hlo hhi => ?_, ?_, fun n hlo hhi => ?_⟩
  · rw [smallSystem_current]
    rfl
  · have hcurrent : smallKernel.current.toNat = 0x1000 := rfl
    exact if_pos (by omega)
  · have htss : smallKernel.tssEsp0.toNat = 0x2000 := rfl
    simp only [smallSystem, smallPlace]
    rw [if_neg (by omega), if_pos (by omega)]
  · rw [smallSystem_current]
    decide
  · rw [smallSystem_current] at hlo hhi ⊢
    have hmain : (0x5000 : UInt32).toNat = 0x5000 := rfl
    simp only [smallSystem, smallPlace]
    rw [if_neg (by omega), if_neg (by omega), if_pos (by omega)]

theorem smallSystem_create : Step smallKernel smallSystem (.create 0x8000 0x9000 smallArgs)
    smallCreated := by
  have hsize : contextSize = 44 := rfl
  have htcbSize : tcbSize = 84 := rfl
  have htcb : (0x8000 : UInt32).toNat = 0x8000 := rfl
  have hkstack : (0x9000 : UInt32).toNat = 0x9000 := rfl
  have hlen : smallArgs.kstackSize.toNat = 64 := rfl
  refine Step.create ⟨by decide, by decide, by decide, by decide⟩ (by decide) (fun n hlo hhi => ?_)
    (fun n hlo hhi => ?_) <;>
  · simp only [smallSystem, smallPlace]
    rw [if_neg (by omega), if_neg (by omega), if_neg (by omega), if_neg (by omega)]

theorem smallSystem_created_current :
    smallCreated.current smallKernel = 0x5000 := by
  rw [smallSystem_create.current_kept smallSystem_booted.sane fun _ heq => by cases heq]
  exact smallSystem_current

theorem smallSystem_yield : Step smallKernel smallCreated
    (.yield (pickReturn smallKernel smallCreated 0x8000)) smallYielded := by
  have hesp : (smallCreated.cpu.reg .esp).toNat = 0x6800 := rfl
  refine Step.yield ⟨by decide, by decide, fun n hlo hhi => ?_⟩
    (picked_pickReturn List.mem_cons_self)
  rw [hesp] at hlo hhi
  have hold : smallSystem.place n = .stack 0x5000 := by
    have hsize : contextSize = 44 := rfl
    simp only [smallSystem, smallPlace]
    rw [if_neg (by omega), if_neg (by omega), if_neg (by omega), if_pos (by omega)]
  rw [smallSystem_created_current]
  cases smallSystem_create with
  | create hfresh hnew htcb hstack =>
    exact ((create_other hfresh htcb hstack (by simp [hold])).1).trans hold

theorem context_switch_transparent_small : ∃ s₁ s' bs,
    Step smallKernel smallSystem (.create 0x8000 0x9000 smallArgs) s₁ ∧
    Run (Guarded (Step smallKernel) (Away smallKernel 0x8000)) s₁ bs s' ∧
    s'.cpu.eip = 0x100 ∧ s'.cpu.eflags.interrupts = true ∧
    load s'.cpu.mem (s'.cpu.reg .esp + UInt32.ofNat 4) = 0x300 := by
  have hsane := smallSystem_booted.sane.step smallSystem_create
  have hroom : Room smallKernel smallCreated := by
    cases smallSystem_yield with
    | yield hroom _ => exact hroom
  have haway : Run (Guarded (Step smallKernel) (Away smallKernel 0x8000)) smallCreated
      [.yield (pickReturn smallKernel smallCreated 0x8000)] smallYielded := by
    refine Run.single ⟨⟨?_, ?_⟩, smallSystem_yield⟩
    · rw [smallSystem_created_current]
      decide
    · intro heq
      cases heq
  have hcurrent := hsane.current_yield hroom (picked_pickReturn (t := 0x8000) List.mem_cons_self)
  have hstarted := ((context_switch_transparent smallSystem_booted (.nil _)).2.2 _ _ _ _ _ _
    smallSystem_create haway hcurrent).1
  exact ⟨_, _, _, smallSystem_create, haway, hstarted⟩

end OsdevCourse.ContextSwitch
