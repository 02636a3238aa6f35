import OsdevCourse.ProcessCreate

/-!
# Process numbers

`process_create` numbers the processes in their order, and `kservice_getpid` goes from the current
TCB to its `PROCESS` and reads the number there. The main thread frees the `PROCESS` itself, in
`_process_exitfunc`, and runs on to `scheduler_exitthread`.
-/

namespace OsdevCourse.ProcessIds

set_option autoImplicit false

open ProcessCreate (Machine Code Process)
open ContextSwitch (Kernel System Sane Fresh contextSize tcbSize tcbInit)
open I686 (load store load_congr load_store_self load_store_of_disjoint toNat_add_offset)

/-- `tcb->process` -/
def processAt (m : Memory) (tcb : UInt32) : UInt32 := load m (tcb + UInt32.ofNat 72)

/-- A process whose `PROCESS` has not been freed, and the number that it was given. -/
structure Live where
  mainThread : UInt32
  process : UInt32
  pid : UInt32
  deriving DecidableEq

/-- The machine, with `pid` of the `PROCESS` at each address. -/
structure Ids where
  machine : Machine
  pid : UInt32 → UInt32
  live : List Live

def processCurrent (kc : Kernel) (s : Ids) : UInt32 :=
  processAt s.machine.threads.cpu.mem (s.machine.current kc)

def kserviceGetpid (kc : Kernel) (s : Ids) : UInt32 := s.pid (processCurrent kc s)

inductive Action where
  | machine (a : ProcessCreate.Action)
  | exit

/-- Only `process_create` sets a number. -/
def Ids.after (s : Ids) (σ : Machine) : ProcessCreate.Action → Ids
  | .create call tcb _ _ _ =>
    { machine := σ
      pid := fun a => if a = call.process then s.machine.nextProcessId else s.pid a
      live := ⟨tcb, call.process, s.machine.nextProcessId⟩ :: s.live }
  | .reap tcb => { s with machine := σ, live := s.live.filter (·.mainThread ≠ tcb) }
  | _ => { s with machine := σ }

/-- `exit` is `kfree(psd->process)` in the current thread. -/
inductive Step (c : Code) (kc : Kernel) (km : Mmu.Kernel) (handler : Nat → Mmu.Fault) :
    Ids → Action → Ids → Prop where
  | machine {s : Ids} {a : ProcessCreate.Action} {σ : Machine} :
    ProcessCreate.Step c kc km handler s.machine a σ →
      Step c kc km handler s (.machine a) (s.after σ a)
  | exit {s : Ids} :
    Step c kc km handler s .exit
      { s with live := s.live.filter (·.mainThread ≠ s.machine.current kc) }

/-- `kmalloc` returns no memory that is in use, and only `tcb_init` writes `tcb->process`. -/
def Allocated (s : Ids) : Action → Prop
  | .machine (.exec cpu) => ∀ p ∈ s.live,
    processAt cpu.mem p.mainThread = processAt s.machine.threads.cpu.mem p.mainThread
  | .machine (.yield returned) => ∀ p ∈ s.live,
    processAt returned.mem p.mainThread = processAt s.machine.threads.cpu.mem p.mainThread
  | .machine (.create call _ _ _ _) => ∀ p ∈ s.live, p.process ≠ call.process
  | .machine (.refuse _ tcb _ _) => ∀ p ∈ s.live,
    tcb.toNat + tcbSize ≤ p.mainThread.toNat ∨ p.mainThread.toNat + tcbSize ≤ tcb.toNat
  | _ => True

/-- The numbers of so many processes, the last one first. -/
def ids : Nat → List UInt32
  | 0 => []
  | n + 1 => UInt32.ofNat (n + 1) :: ids n

theorem mem_ids {n : Nat} {v : UInt32} : v ∈ ids n ↔ ∃ i < n, v = UInt32.ofNat (i + 1) := by
  induction n with
  | zero => simp [ids]
  | succ n ih =>
    rw [ids, List.mem_cons, ih]
    constructor
    · rintro (rfl | ⟨i, hi, rfl⟩)
      · exact ⟨n, Nat.lt_succ_self n, rfl⟩
      · exact ⟨i, Nat.lt_succ_of_lt hi, rfl⟩
    · rintro ⟨i, hi, rfl⟩
      rcases Nat.lt_succ_iff_lt_or_eq.mp hi with hlt | rfl
      · exact .inr ⟨i, hlt, rfl⟩
      · exact .inl rfl

theorem ids_nodup_iff (n : Nat) : (ids n).Nodup ↔ n ≤ 2 ^ 32 := by
  induction n with
  | zero => simp [ids]
  | succ n ih =>
    rw [ids, List.nodup_cons, ih, mem_ids]
    constructor
    · rintro ⟨hnew, hle⟩
      by_contra hlt
      have hlast : n = 2 ^ 32 := by omega
      exact hnew ⟨0, by omega, by rw [hlast]; rfl⟩
    · intro hle
      refine ⟨?_, by omega⟩
      rintro ⟨i, hi, heq⟩
      have hvalue := congrArg UInt32.toNat heq
      rw [UInt32.toNat_ofNat', UInt32.toNat_ofNat'] at hvalue
      omega

/-! ### The word in the TCB -/

/-- The bytes of the TCB behind the context are fields. -/
def Owned (s : System) (t : UInt32) : Prop :=
  t.toNat + tcbSize ≤ 2 ^ 32 ∧
    ∀ n, t.toNat + contextSize ≤ n → n < t.toNat + tcbSize → s.place n = .fields t

section Word
variable {kc : Kernel} {s s' : System} {returned : I686.Cpu} {m m' : Memory} {t tcb kstack : UInt32}
  {args : ContextSwitch.TcbArgs} {n : Nat}

theorem processAt_congr (ht : t.toNat + tcbSize ≤ 2 ^ 32)
    (hmem : ∀ n, t.toNat + contextSize ≤ n → n < t.toNat + tcbSize → m' n = m n) :
    processAt m' t = processAt m t := by
  have hsize : contextSize = 44 := rfl
  have htcbSize : tcbSize = 84 := rfl
  have hplace : (t + UInt32.ofNat 72).toNat = t.toNat + 72 := toNat_add_offset (by omega)
  apply load_congr
  intro n hlo hhi
  exact hmem n (by omega) (by omega)

theorem processAt_tcbInit (h : Fresh tcb kstack args) :
    processAt (tcbInit m tcb args (some kstack)).2 tcb = args.process := by
  have htcbSize : tcbSize = 84 := rfl
  have hprocess := h.field (k := 72) (by omega)
  have hkstack := h.field (k := 44) (by omega)
  have hpriority := h.field (k := 60) (by omega)
  have hquantum := h.field (k := 56) (by omega)
  have helapsed := h.field (k := 48) (by omega)
  have hnext := h.field (k := 76) (by omega)
  have hprevious := h.field (k := 80) (by omega)
  rw [processAt, ContextSwitch.tcbInit_eq h]
  unfold ContextSwitch.storeFields ContextSwitch.tcbFields
  simp only [List.foldl_cons, List.foldl_nil, -UInt32.reduceOfNat]
  rw [load_store_of_disjoint (by omega), load_store_of_disjoint (by omega),
    load_store_of_disjoint (by omega),
    load_store_of_disjoint (by omega), load_store_of_disjoint (by omega),
      load_store_of_disjoint (by omega)]
  exact load_store_self

theorem fields_saved (h : Sane kc s) (hroom : ContextSwitch.Room kc s)
    (hn : s.place n = .fields t) :
    (ContextSwitch.saveContext kc s.cpu).mem n = s.cpu.mem n := by
  apply (h.entry hroom).saved_out
  · refine ContextSwitch.out_of_place s.place (.stack (s.current kc)) ?_ (by simp [hn])
    intro i hlo hhi
    exact hroom.stack i hlo (by omega)
  · exact ContextSwitch.out_of_place s.place (.context (s.current kc)) (h.context _ h.running)
      (by simp [hn])

theorem fields_loaded (h : Sane kc s) (hroom : ContextSwitch.Room kc s)
    (hpicked : ContextSwitch.Picked kc s (ContextSwitch.saveContext kc s.cpu) returned)
    (hn : s.place n = .fields t) : (ContextSwitch.loadContext kc returned).mem n =
    returned.mem n := by
  obtain ⟨_, _, _, hplace⟩ := h.target_stack hroom hpicked.target
  rw [← h.contextAt_returned hroom hpicked hpicked.target] at hplace
  apply h.loaded_out hroom hpicked (by simp [hn]) (by simp [hn])
  refine ContextSwitch.out_of_place s.place (.stack (returned.reg .eax)) ?_ (by simp [hn])
  intro i hlo hhi
  exact hplace i hlo (by omega)

theorem Owned.create (h : Owned s t)
    (hstep : ContextSwitch.Step kc s (.create tcb kstack args) s') :
    Owned s' t ∧ processAt s'.cpu.mem t = processAt s.cpu.mem t := by
  obtain ⟨hbound, hfields⟩ := h
  cases hstep with
  | create hfresh hnew htcb hstack =>
    have hkept := fun n (hn : s.place n = .fields t) =>
      ContextSwitch.create_other hfresh htcb hstack (n := n) (by simp [hn])
    refine ⟨⟨hbound, fun n hlo hhi => ?_⟩, processAt_congr hbound fun n hlo hhi => ?_⟩
    · have hn := hfields n hlo hhi
      exact (hkept n hn).1.trans hn
    · exact (hkept n (hfields n hlo hhi)).2

theorem owned_created (hstep : ContextSwitch.Step kc s (.create tcb kstack args) s') :
    Owned s' tcb ∧ processAt s'.cpu.mem tcb = args.process := by
  cases hstep with
  | create hfresh hnew htcb hstack =>
    refine ⟨⟨hfresh.bound, fun n hlo hhi => ?_⟩, processAt_tcbInit hfresh⟩
    show ContextSwitch.newPlace s.place tcb kstack args n = _
    unfold ContextSwitch.newPlace
    rw [if_neg (by omega), if_pos (by omega)]

theorem Owned.reap (h : Owned s t) (hne : t ≠ tcb)
    (hstep : ContextSwitch.Step kc s (.reap tcb) s') :
    Owned s' t ∧ processAt s'.cpu.mem t = processAt s.cpu.mem t := by
  cases hstep with
  | reap =>
    refine ⟨⟨h.1, fun n hlo hhi => ?_⟩, rfl⟩
    exact ContextSwitch.freedPlace_of_ne (h.2 n hlo hhi) (by simp) (by simpa using hne) (by simp)

theorem Owned.exec (h : Owned s t) {cpu : I686.Cpu} (hstep : ContextSwitch.Step kc s (.exec cpu) s')
    (hkept : processAt cpu.mem t = processAt s.cpu.mem t) :
    Owned s' t ∧ processAt s'.cpu.mem t = processAt s.cpu.mem t := by
  cases hstep with
  | exec => exact ⟨h, hkept⟩

theorem Owned.yield (h : Owned s t) (hsane : Sane kc s)
    (hstep : ContextSwitch.Step kc s (.yield returned) s')
    (hkept : processAt returned.mem t = processAt s.cpu.mem t) :
    Owned s' t ∧ processAt s'.cpu.mem t = processAt s.cpu.mem t := by
  cases hstep with
  | yield hroom hpicked =>
    refine ⟨h, (processAt_congr h.1 fun n hlo hhi => ?_).trans hkept⟩
    exact fields_loaded hsane hroom hpicked (h.2 n hlo hhi)

end Word

/-! ### Runs -/

structure Inv (kc : Kernel) (s : Ids) : Prop where
  sane : Sane kc s.machine.threads
  owned : ∀ p ∈ s.live, Owned s.machine.threads p.mainThread
  word : ∀ p ∈ s.live, processAt s.machine.threads.cpu.mem p.mainThread = p.process
  stored : ∀ p ∈ s.live, s.pid p.process = p.pid
  next : s.machine.nextProcessId = UInt32.ofNat (s.machine.processes.length + 1)
  numbers : s.machine.processes.map Process.pid = ids s.machine.processes.length
  given : (s.live.map Live.pid).Sublist (s.machine.processes.map Process.pid)

section Runs
variable {c : Code} {kc : Kernel} {km : Mmu.Kernel} {handler : Nat → Mmu.Fault} {s s' : Ids}

theorem Inv.kept (h : Inv kc s) {σ : Machine} {live : List Live} (hlive : live.Sublist s.live)
    (hsane : Sane kc σ.threads) (hwords : ∀ p ∈ live, Owned σ.threads p.mainThread ∧
      processAt σ.threads.cpu.mem p.mainThread = processAt s.machine.threads.cpu.mem p.mainThread)
    (hnext : σ.nextProcessId = s.machine.nextProcessId)
    (hids : σ.processes.map Process.pid = s.machine.processes.map Process.pid) :
    Inv kc { s with machine := σ, live := live } := by
  have hlength : σ.processes.length = s.machine.processes.length := by
    have hcount := congrArg List.length hids
    rwa [List.length_map, List.length_map] at hcount
  refine ⟨hsane, fun p hp => (hwords p hp).1, fun p hp => ?_,
    fun p hp => h.stored p (hlive.subset hp), ?_, ?_, ?_⟩
  · exact (hwords p hp).2.trans (h.word p (hlive.subset hp))
  · simp only [hnext, hlength]
    exact h.next
  · simp only [hids, hlength]
    exact h.numbers
  · simp only [hids]
    exact (hlive.map Live.pid).trans h.given

theorem Inv.create (h : Inv kc s) {call : ProcessCreate.Call} {tcb kstack priority psd : UInt32}
    {threads : System} (hfresh : ∀ p ∈ s.live, p.process ≠ call.process)
    (hcreate : ContextSwitch.Step kc s.machine.threads
    (.create tcb kstack (call.args c priority psd)) threads) :
    Inv kc (s.after (s.machine.created call tcb threads)
      (.create call tcb kstack priority psd)) := by
  obtain ⟨howned, hword⟩ := owned_created hcreate
  refine ⟨h.sane.step hcreate, fun p hp => ?_, fun p hp => ?_, fun p hp => ?_, ?_, ?_, ?_⟩
  · rcases List.mem_cons.mp hp with rfl | hp
    · exact howned
    · exact ((h.owned p hp).create hcreate).1
  · rcases List.mem_cons.mp hp with rfl | hp
    · exact hword
    · exact ((h.owned p hp).create hcreate).2.trans (h.word p hp)
  · rcases List.mem_cons.mp hp with rfl | hp
    · exact if_pos rfl
    · exact (if_neg (hfresh p hp)).trans (h.stored p hp)
  · show s.machine.nextProcessId + 1 = UInt32.ofNat (s.machine.processes.length + 1 + 1)
    rw [h.next]
    exact (UInt32.ofNat_add _ 1).symm
  · show s.machine.nextProcessId :: s.machine.processes.map Process.pid =
      UInt32.ofNat (s.machine.processes.length + 1) :: ids s.machine.processes.length
    rw [h.next, h.numbers]
  · exact h.given.cons_cons s.machine.nextProcessId

theorem Inv.step (h : Inv kc s) {a : Action} (hok : Allocated s a)
    (hstep : Step c kc km handler s a s') :
    Inv kc s' := by
  cases hstep with
  | exit =>
    have hlive : (s.live.filter (·.mainThread ≠ s.machine.current kc)).Sublist s.live :=
      List.filter_sublist
    exact h.kept hlive h.sane (fun p hp => ⟨h.owned p (hlive.subset hp), rfl⟩) rfl rfl
  | machine hstep =>
    cases hstep with
    | exec hexec hcr3 =>
      exact h.kept (.refl _) (h.sane.step hexec)
        (fun p hp => (h.owned p hp).exec hexec (hok p hp)) rfl rfl
    | frames hop hframes => exact h.kept (.refl _) h.sane (fun p hp => ⟨h.owned p hp, rfl⟩) rfl rfl
    | clone hclone => exact h.kept (.refl _) h.sane (fun p hp => ⟨h.owned p hp, rfl⟩) rfl rfl
    | create hcall hcreate => exact h.create hok hcreate
    | refuse hcall hcpu hexec =>
      refine h.kept (.refl _) (h.sane.step hexec) (fun p hp => (h.owned p hp).exec hexec ?_) rfl rfl
      rw [hcpu]
      apply processAt_congr (h.owned p hp).1
      intro n hlo hhi
      have hapart := hok p hp
      apply Memory.writeBytes_out
      rw [List.length_replicate]
      omega
    | spawn hpagedir hcreate =>
      exact h.kept (.refl _) (h.sane.step hcreate)
        (fun p hp => (h.owned p hp).create hcreate) rfl rfl
    | @reap tcb threads hreap =>
      have hlive : (s.live.filter (·.mainThread ≠ tcb)).Sublist s.live := List.filter_sublist
      refine h.kept hlive (h.sane.step hreap) (fun p hp => ?_) rfl ?_
      · obtain ⟨hp, hne⟩ := List.mem_filter.mp hp
        exact (h.owned p hp).reap (of_decide_eq_true hne) hreap
      · show (List.map _ s.machine.processes).map Process.pid = _
        rw [List.map_map]
        apply List.map_congr_left
        intro p hp
        simp only [Function.comp_apply]
        split_ifs <;> rfl
    | yield hyield =>
      exact h.kept (.refl _) (h.sane.step hyield)
        (fun p hp => (h.owned p hp).yield h.sane hyield (hok p hp)) rfl rfl

/-- As long as its `PROCESS` is not freed, a process finds the number that it was given. The numbers
are 1, 2, 3 and so on, and so no two are the same until they wrap. -/
theorem getpid_is_own_number {threads : System} {state : Mmu.State} {pid : UInt32 → UInt32}
    (hboot : ContextSwitch.Booted kc threads)
    (hrun : Reachable (Guarded (Step c kc km handler) Allocated)
      ⟨ProcessCreate.start km threads state, pid, []⟩ s) :
    (∀ p ∈ s.live, p.mainThread = s.machine.current kc →
      processCurrent kc s = p.process ∧ kserviceGetpid kc s = p.pid) ∧
    s.machine.processes.map Process.pid = ids s.machine.processes.length ∧
    ((s.machine.processes.map Process.pid).Nodup ↔ s.machine.processes.length ≤ 2 ^ 32) ∧
    (s.machine.processes.length ≤ 2 ^ 32 → (s.live.map Live.pid).Nodup) := by
  have hstart : Inv kc ⟨ProcessCreate.start km threads state, pid, []⟩ :=
    ⟨hboot.sane, fun p hp => absurd hp List.not_mem_nil, fun p hp => absurd hp List.not_mem_nil,
      fun p hp => absurd hp List.not_mem_nil, rfl, rfl, .refl _⟩
  have hinv := hrun.invariant (Inv kc) (fun _ _ _ h hstep => h.step hstep.1 hstep.2) hstart
  have hnodup : (s.machine.processes.map Process.pid).Nodup ↔
      s.machine.processes.length ≤ 2 ^ 32 := by
    rw [hinv.numbers]
    exact ids_nodup_iff _
  refine ⟨fun p hp hcurrent => ?_, hinv.numbers, hnodup,
    fun hle => hinv.given.nodup (hnodup.mpr hle)⟩
  have hprocess : processCurrent kc s = p.process := by
    rw [processCurrent, ← hcurrent]
    exact hinv.word p hp
  refine ⟨hprocess, ?_⟩
  rw [kserviceGetpid, hprocess]
  exact hinv.stored p hp

end Runs

theorem pickReturn_kept {kc : Kernel} {s : System} {t u : UInt32} (h : Sane kc s)
    (hroom : ContextSwitch.Room kc s) (howned : Owned s t) :
    processAt (ContextSwitch.pickReturn kc s u).mem t = processAt s.cpu.mem t := by
  apply processAt_congr howned.1
  intro n hlo hhi
  rw [← fields_saved h hroom (howned.2 n hlo hhi)]
  unfold ContextSwitch.pickReturn
  generalize ContextSwitch.saveContext kc s.cpu = called
  rfl

theorem small_run {handler : Nat → Mmu.Fault} {depth : Nat} {pd : Word} {state cloned : Mmu.State}
    (hclone : Mmu.mmuClonePagedir (handler depth) Mmu.smallKernel state = some (pd, cloned)) :
    ∃ s : Ids, Reachable (Guarded
      (Step ProcessCreate.smallCode ContextSwitch.smallKernel Mmu.smallKernel
        handler) Allocated)
      ⟨ProcessCreate.start Mmu.smallKernel ProcessCreate.smallThreads state, fun _ => 0, []⟩ s ∧
    s.live = [⟨0x8000, 0x400, 1⟩] ∧ s.machine.current ContextSwitch.smallKernel = 0x8000 := by
  have hcreated := ProcessCreate.smallCreated_step pd
  have hyielded := ProcessCreate.smallYielded_step pd
  have hsane := ProcessCreate.smallThreads_booted.sane.step hcreated
  have hroom : ContextSwitch.Room ContextSwitch.smallKernel (ProcessCreate.smallCreated pd) := by
    cases hyielded with
    | yield hroom hpicked => exact hroom
  have hkept : processAt (ProcessCreate.smallReturned pd).mem 0x8000 =
      processAt (ProcessCreate.smallCreated pd).cpu.mem 0x8000 :=
    pickReturn_kept hsane hroom (owned_created hcreated).1
  let s₀ : Ids := ⟨ProcessCreate.start Mmu.smallKernel ProcessCreate.smallThreads state,
    fun _ => 0, []⟩
  let σ₁ : Machine := { s₀.machine with
    spaces := s₀.machine.spaces.afterClone pd cloned, calls := [⟨0x400, pd⟩] }
  let s₁ : Ids := { s₀ with machine := σ₁ }
  let σ₂ : Machine := σ₁.created ⟨0x400, pd⟩ 0x8000 (ProcessCreate.smallCreated pd)
  let s₂ : Ids := s₁.after σ₂ (.create ⟨0x400, pd⟩ 0x8000 0x9000 2 0x300)
  let σ₃ : Machine := σ₂.yielded ContextSwitch.smallKernel (ProcessCreate.smallYielded pd)
  have hone : Step ProcessCreate.smallCode ContextSwitch.smallKernel Mmu.smallKernel handler s₀
      (.machine (.clone 0x400)) s₁ := .machine (.clone hclone)
  have hany : Allocated s₀ (.machine (.clone 0x400)) := True.intro
  have htwo : Step ProcessCreate.smallCode ContextSwitch.smallKernel Mmu.smallKernel handler s₁
      (.machine (.create ⟨0x400, pd⟩ 0x8000 0x9000 2 0x300)) s₂ :=
    .machine (.create List.mem_cons_self hcreated)
  have hthree : Step ProcessCreate.smallCode ContextSwitch.smallKernel Mmu.smallKernel handler s₂
      (.machine (.yield (ProcessCreate.smallReturned pd))) { s₂ with machine := σ₃ } :=
    .machine (.yield hyielded)
  have hfresh : Allocated s₁ (.machine (.create ⟨0x400, pd⟩ 0x8000 0x9000 2 0x300)) :=
    fun p hp => absurd hp List.not_mem_nil
  have hpick : Allocated s₂ (.machine (.yield (ProcessCreate.smallReturned pd))) := by
    intro p hp
    rw [List.mem_singleton.mp hp]
    exact hkept
  exact ⟨{ s₂ with machine := σ₃ }, ⟨_, .cons ⟨hany, hone⟩ (.cons ⟨hfresh, htwo⟩
    (.single ⟨hpick, hthree⟩))⟩, rfl, (ProcessCreate.smallYielded_switched pd).1⟩

theorem getpid_is_own_number_small : ∃ s : Ids, s.live = [⟨0x8000, 0x400, 1⟩] ∧
    s.machine.current ContextSwitch.smallKernel = 0x8000 ∧
      kserviceGetpid ContextSwitch.smallKernel s = 1 := by
  have hcloned : Mmu.mmuClonePagedir (Mmu.pageFaultFed Mmu.smallKernel 4) Mmu.smallKernel
      Mmu.smallStart = some Mmu.smallClone := (Option.some_get _).symm
  obtain ⟨s, hrun, hlive, hcurrent⟩ := small_run hcloned
  obtain ⟨hown, _⟩ := getpid_is_own_number ProcessCreate.smallThreads_booted hrun
  refine ⟨s, hlive, hcurrent, (hown ⟨0x8000, 0x400, 1⟩ ?_ hcurrent.symm).2⟩
  rw [hlive]
  exact List.mem_cons_self

end OsdevCourse.ProcessIds
