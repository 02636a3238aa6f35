import OsdevCourse.ContextSwitchRuns
import OsdevCourse.MmuCloneExact
import OsdevCourse.MmuCr3

/-!
# The address spaces of the processes

`process_create` clones a directory for the process and starts its main thread in it. The threads
are those of the context switch, with their contexts in memory; the directories are those of the
memory manager; CR3 is in both. `scheduler_yield` loads the directory in the context of the
thread it goes to and takes zero for "keep the directory", which is also what
`mmu_clone_pagedir` returns where it has failed: `process_create` does not look.
-/

namespace OsdevCourse.ProcessCreate

set_option autoImplicit false

open Mmu (Spaces Role Roles Pool)

/-- The addresses of `_process_startfunc` and `_process_exitfunc`. -/
structure Code where
  startfunc : UInt32
  exitfunc : UInt32

/-- A call of `process_create` after `process->pagedir = mmu_clone_pagedir()`. -/
structure Call where
  process : UInt32
  pagedir : Word
  deriving DecidableEq

/-- The arguments of its `tcb_init`; 10 is `SCHEDULE_QUANTUM_NORMAL`. -/
def Call.args (c : Code) (call : Call) (priority psd : UInt32) : ContextSwitch.TcbArgs where
  process := call.process
  pagedir := ⟨call.pagedir⟩
  priority := priority
  quantum := 10
  kstackSize := 4096
  startfunc := c.startfunc
  exitfunc := c.exitfunc
  ud := psd

/-- A `PROCESS` that `process_create` has returned. Its main thread is gone once the zombie
cleaner has freed it. -/
structure Process where
  pid : UInt32
  pagedir : Word
  mainThread : Option UInt32
  deriving DecidableEq

structure Machine where
  threads : ContextSwitch.System
  spaces : Spaces
  nextProcessId : UInt32
  calls : List Call
  processes : List Process

namespace Machine

def current (kc : ContextSwitch.Kernel) (σ : Machine) : UInt32 := σ.threads.current kc

/-- The directory in the context of a thread. -/
def pagedir (σ : Machine) (t : UInt32) : UInt32 :=
  ContextSwitch.contextAt σ.threads.cpu.mem t .pagedir

/-- `process_create` once `tcb_init` has succeeded. -/
def created (σ : Machine) (call : Call) (tcb : UInt32) (threads : ContextSwitch.System) : Machine :=
  { σ with
    threads := threads
    nextProcessId := σ.nextProcessId + 1
    calls := σ.calls.erase call
    processes := ⟨σ.nextProcessId, call.pagedir, some tcb⟩ :: σ.processes }

/-- The zombie cleaner frees a TCB. -/
def reaped (σ : Machine) (tcb : UInt32) (threads : ContextSwitch.System) : Machine :=
  { σ with
    threads := threads
    processes := σ.processes.map fun p =>
      if p.mainThread = some tcb then { p with mainThread := none } else p }

/-- The memory manager sees the directory that `scheduler_yield` has loaded. -/
def yielded (kc : ContextSwitch.Kernel) (σ : Machine) (threads : ContextSwitch.System) : Machine :=
  let pagedir := ContextSwitch.contextAt threads.cpu.mem (threads.current kc) .pagedir
  { σ with
    threads := threads
    spaces := if pagedir = 0 then σ.spaces
      else { σ.spaces with state := σ.spaces.state.loadCr3 pagedir.toBitVec } }

end Machine

inductive Action where
  | exec (cpu : I686.Cpu)
  | frames (op : Spaces.Op)
  | clone (process : UInt32)
  | create (call : Call) (tcb kstack priority psd : UInt32)
  | refuse (call : Call) (tcb priority psd : UInt32)
  | spawn (tcb kstack : UInt32) (args : ContextSwitch.TcbArgs)
  | reap (tcb : UInt32)
  | yield (returned : I686.Cpu)

/-- The steps of the memory manager that allocate and free pages. -/
def Allocates : Spaces.Op → Prop
  | .mark .. | .unmap .. | .fault _ | .store .. => True
  | .clone | .switch _ => False

/-- Code of the current thread, an allocation of pages, a call of `process_create` up to
`mmu_clone_pagedir` and from there on, the start of a kernel thread, which has no directory of its
own, the end of a thread, and a context switch to some thread. -/
inductive Step (c : Code) (kc : ContextSwitch.Kernel) (km : Mmu.Kernel)
    (handler : Nat → Mmu.Fault) :
    Machine → Action → Machine → Prop where
  | exec {σ : Machine} {cpu : I686.Cpu} {threads : ContextSwitch.System} :
    ContextSwitch.Step kc σ.threads (.exec cpu) threads → cpu.cr3 = σ.threads.cpu.cr3 →
    Step c kc km handler σ (.exec cpu) { σ with threads := threads }
  | frames {σ : Machine} {op : Spaces.Op} {spaces : Spaces} :
    Allocates op → Spaces.Step km handler σ.spaces op spaces →
    Step c kc km handler σ (.frames op) { σ with spaces := spaces }
  | clone {σ : Machine} {process : UInt32} {depth : Nat} {pd : Word} {s : Mmu.State} :
    Mmu.mmuClonePagedir (handler depth) km σ.spaces.state = some (pd, s) →
    Step c kc km handler σ (.clone process)
      { σ with spaces := σ.spaces.afterClone pd s, calls := ⟨process, pd⟩ :: σ.calls }
  | create {σ : Machine} {call : Call} {tcb kstack priority psd : UInt32}
      {threads : ContextSwitch.System} :
    call ∈ σ.calls →
    ContextSwitch.Step kc σ.threads (.create tcb kstack (call.args c priority psd)) threads →
    Step c kc km handler σ (.create call tcb kstack priority psd) (σ.created call tcb threads)
  | refuse {σ : Machine} {call : Call} {tcb priority psd : UInt32} {cpu : I686.Cpu}
      {threads : ContextSwitch.System} :
    call ∈ σ.calls → cpu = { σ.threads.cpu with
      mem := (ContextSwitch.tcbInit σ.threads.cpu.mem tcb (call.args c priority psd) none).2 } →
    ContextSwitch.Step kc σ.threads (.exec cpu) threads →
    Step c kc km handler σ (.refuse call tcb priority psd)
      { σ with threads := threads, calls := σ.calls.erase call }
  | spawn {σ : Machine} {tcb kstack : UInt32} {args : ContextSwitch.TcbArgs}
      {threads : ContextSwitch.System} :
    args.pagedir = 0 → ContextSwitch.Step kc σ.threads (.create tcb kstack args) threads →
    Step c kc km handler σ (.spawn tcb kstack args) { σ with threads := threads }
  | reap {σ : Machine} {tcb : UInt32} {threads : ContextSwitch.System} :
    ContextSwitch.Step kc σ.threads (.reap tcb) threads →
    Step c kc km handler σ (.reap tcb) (σ.reaped tcb threads)
  | yield {σ : Machine} {returned : I686.Cpu} {threads : ContextSwitch.System} :
    ContextSwitch.Step kc σ.threads (.yield returned) threads →
    Step c kc km handler σ (.yield returned) (σ.yielded kc threads)

/-- Every process has a directory, a directory of its own, and runs in it. -/
structure Separate (kc : ContextSwitch.Kernel) (σ : Machine) : Prop where
  nonzero : ∀ p ∈ σ.processes, p.pagedir ≠ 0#32
  distinct : (σ.processes.map Process.pagedir).Nodup
  running : ∀ p ∈ σ.processes, p.mainThread = some (σ.current kc) →
    σ.threads.cpu.cr3.toBitVec = p.pagedir

/-- Pages are allocated with discipline, and `mmu_clone_pagedir` finds a frame and its window. -/
def Fed (km : Mmu.Kernel) (outside : Word → Prop) (σ : Machine) : Action → Prop
  | .frames op => Spaces.Allowed km outside σ.spaces op
  | .clone _ => 0 < σ.spaces.state.framesIndex ∧
      Mmu.translate σ.spaces.state Mmu.kaddrClondpd = none
  | _ => True

/-- `kmain` with no process yet. -/
def start (km : Mmu.Kernel) (threads : ContextSwitch.System) (s : Mmu.State) : Machine where
  threads := threads
  spaces := Spaces.start km s
  nextProcessId := 1
  calls := []
  processes := []

/-- The directories that calls of `process_create` and processes have got. -/
def granted (σ : Machine) : List Word :=
  σ.calls.map Call.pagedir ++ σ.processes.map Process.pagedir

/-! ### The invariant -/

/-- The directories that have been given out are clones, each given out once; a thread has one of
them or none, and the main thread of a process that of the process. -/
structure Apart (kc : ContextSwitch.Kernel) {km : Mmu.Kernel} (L : Pool km)
    (σ : Machine) : Prop where
  sane : ContextSwitch.Sane kc σ.threads
  roles : ∃ role, Roles L role σ.spaces
  cr3 : σ.threads.cpu.cr3.toBitVec = σ.spaces.state.cr3
  contexts : ∀ t ∈ σ.threads.threads, σ.pagedir t = 0 ∨ (σ.pagedir t).toBitVec ∈ σ.spaces.clones
  distinct : (granted σ).Nodup
  cloned : ∀ pd ∈ granted σ, pd ∈ σ.spaces.clones
  main : ∀ p ∈ σ.processes, ∀ t, p.mainThread = some t →
    t ∈ σ.threads.threads ∧ (σ.pagedir t).toBitVec = p.pagedir
  running : ∀ p ∈ σ.processes, p.mainThread = some (σ.current kc) →
    σ.threads.cpu.cr3.toBitVec = p.pagedir

section Steps
variable {c : Code} {kc : ContextSwitch.Kernel} {km : Mmu.Kernel} {L : Pool km} {σ : Machine}

theorem mem_granted {p : Process} (hp : p ∈ σ.processes) : p.pagedir ∈ granted σ :=
  List.mem_append_right _ (List.mem_map_of_mem hp)

theorem forgets_main {tcb t : UInt32} {threads : ContextSwitch.System} {p : Process}
    (hp : p ∈ (σ.reaped tcb threads).processes) (ht : p.mainThread = some t) :
    t ≠ tcb ∧ p ∈ σ.processes := by
  obtain ⟨q, hq, heq⟩ := List.mem_map.1 hp
  cases Classical.em (q.mainThread = some tcb) with
  | inl hand =>
    rw [if_pos hand] at heq
    rw [← heq] at ht
    exact absurd ht (by simp)
  | inr hne =>
    rw [if_neg hne] at heq
    rw [← heq] at ht ⊢
    refine ⟨fun hsame => hne ?_, hq⟩
    rw [ht, hsame]

namespace Apart
variable (h : Apart kc L σ)
include h

theorem nonzero {pd : Word} (hpd : pd ∈ granted σ) : pd ≠ 0#32 := by
  obtain ⟨role, hroles⟩ := h.roles
  exact L.ne_zero (hroles.named.clone pd (h.cloned pd hpd)).2

theorem separate : Separate kc σ where
  nonzero := fun _ hp => h.nonzero (mem_granted hp)
  distinct := (List.nodup_append.1 h.distinct).2.1
  running := h.running

/-- A step of the threads without a switch. A thread that it starts has a clone or no directory,
and it frees no main thread. -/
theorem threads_kept {a : ContextSwitch.Action} {threads : ContextSwitch.System}
    (hstep : ContextSwitch.Step kc σ.threads a threads) (hyield : ∀ returned, a ≠ .yield returned)
    (hcr3 : threads.cpu.cr3 = σ.threads.cpu.cr3)
    (hnew : ∀ t ∈ threads.threads, t ∉ σ.threads.threads →
      ContextSwitch.contextAt threads.cpu.mem t .pagedir = 0 ∨
        (ContextSwitch.contextAt threads.cpu.mem t .pagedir).toBitVec ∈ σ.spaces.clones)
    (hold : ∀ t ∈ threads.threads, a ≠ .reap t)
    (hmain : ∀ p ∈ σ.processes, ∀ t, p.mainThread = some t → a ≠ .reap t) :
    Apart kc L { σ with threads := threads } := by
  have hcurrent := hstep.current_kept h.sane hyield
  have hkept : ∀ t ∈ σ.threads.threads, a ≠ .reap t →
      ContextSwitch.contextAt threads.cpu.mem t .pagedir = σ.pagedir t := by
    intro t ht hreap
    have hcontext : ContextSwitch.contextAt threads.cpu.mem t =
        ContextSwitch.contextAt σ.threads.cpu.mem t := by
      cases hstep with
      | exec hforeign =>
        exact h.sane.contextAt_congr ht fun n hn => hforeign n (by rw [hn]; trivial)
      | create hfresh _ htcb hstack =>
        refine h.sane.contextAt_congr ht fun n hn => ?_
        exact (ContextSwitch.create_other hfresh htcb hstack (by simp [hn])).2
      | reap _ => rfl
      | yield _ _ => exact absurd rfl (hyield _)
    exact congrFun hcontext _
  refine ⟨h.sane.step hstep, h.roles, ?_, ?_, h.distinct, h.cloned, ?_, ?_⟩
  · rw [hcr3]
    exact h.cr3
  · intro t ht
    cases Classical.em (t ∈ σ.threads.threads) with
    | inr hnot => exact hnew t ht hnot
    | inl hmem =>
      have hpagedir : Machine.pagedir { σ with threads := threads } t = σ.pagedir t :=
        hkept t hmem (hold t ht)
      rw [hpagedir]
      exact h.contexts t hmem
  · intro p hp t ht
    obtain ⟨hmem, hpagedir⟩ := h.main p hp t ht
    have hreap := hmain p hp t ht
    refine ⟨(hstep.thread h.sane hmem hreap).1, ?_⟩
    rw [← hpagedir]
    exact congrArg UInt32.toBitVec (hkept t hmem hreap)
  · intro p hp hmainThread
    rw [hcr3]
    apply h.running p hp
    rw [hmainThread]
    exact congrArg some hcurrent

theorem refused (call : Call) : Apart kc L { σ with calls := σ.calls.erase call } := by
  have hsub : List.Sublist (granted { σ with calls := σ.calls.erase call }) (granted σ) :=
    (List.erase_sublist.map _).append (List.Sublist.refl _)
  exact ⟨h.sane, h.roles, h.cr3, h.contexts, h.distinct.sublist hsub,
    fun pd hpd => h.cloned pd (hsub.subset hpd), h.main, h.running⟩

theorem granted_created {call : Call} (hcall : call ∈ σ.calls) {tcb : UInt32}
    (htcb : tcb ∈ σ.threads.threads) (hpagedir : (σ.pagedir tcb).toBitVec = call.pagedir)
    (haway : tcb ≠ σ.current kc) : Apart kc L (σ.created call tcb σ.threads) := by
  have hperm : (granted (σ.created call tcb σ.threads)).Perm (granted σ) := by
    unfold granted Machine.created
    simp only [List.map_cons]
    refine List.perm_middle.trans ?_
    rw [← List.cons_append]
    refine List.Perm.append_right _ ?_
    rw [← List.map_cons]
    exact ((List.perm_cons_erase hcall).map _).symm
  refine ⟨h.sane, h.roles, h.cr3, h.contexts, hperm.nodup_iff.2 h.distinct,
    fun pd hpd => h.cloned pd (hperm.subset hpd), ?_, ?_⟩
  · intro p hp t ht
    cases List.mem_cons.1 hp with
    | inr hmem => exact h.main p hmem t ht
    | inl heq =>
      rw [heq] at ht ⊢
      rw [← Option.some.inj ht]
      exact ⟨htcb, hpagedir⟩
  · intro p hp hmainThread
    cases List.mem_cons.1 hp with
    | inr hmem => exact h.running p hmem hmainThread
    | inl heq =>
      rw [heq] at hmainThread
      exact absurd (Option.some.inj hmainThread) haway

theorem forgotten (tcb : UInt32) : Apart kc L (σ.reaped tcb σ.threads) := by
  have hmap : (σ.reaped tcb σ.threads).processes.map Process.pagedir =
      σ.processes.map Process.pagedir := by
    unfold Machine.reaped
    simp only [List.map_map]
    apply List.map_congr_left
    intro p _
    simp only [Function.comp_apply]
    split <;> rfl
  have hgranted : granted (σ.reaped tcb σ.threads) = granted σ :=
    congrArg (σ.calls.map Call.pagedir ++ ·) hmap
  refine ⟨h.sane, h.roles, h.cr3, h.contexts, ?_, ?_, ?_, ?_⟩
  · rw [hgranted]
    exact h.distinct
  · rw [hgranted]
    exact h.cloned
  · intro p hp t ht
    exact h.main p (forgets_main hp ht).2 t ht
  · intro p hp hmainThread
    exact h.running p (forgets_main hp hmainThread).2 hmainThread

/-! ### A step keeps it -/

theorem frames {op : Spaces.Op} (hop : Allocates op) {spaces : Spaces}
    (hallowed : Spaces.Allowed km L.outside σ.spaces op)
    (hstep : Spaces.Step km (Mmu.pageFaultFed km) σ.spaces op spaces) :
    Apart kc L { σ with spaces := spaces } := by
  obtain ⟨role, hroles⟩ := h.roles
  have hcr3 : spaces.state.cr3 = σ.spaces.state.cr3 := by
    apply hstep.cr3_kept (Mmu.pageFaultFed_cr3 km)
    intro pd heq
    rw [heq] at hop
    exact hop
  have hclones : spaces.clones = σ.spaces.clones := by
    cases hstep with
    | mark _ => rfl
    | unmap _ => rfl
    | fault _ _ => rfl
    | store _ => rfl
    | clone _ => exact hop.elim
    | switch _ => rfl
  refine ⟨h.sane, hstep.roles hallowed hroles, h.cr3.trans hcr3.symm, ?_, h.distinct, ?_, h.main,
    h.running⟩
  · rw [hclones]
    exact h.contexts
  · rw [hclones]
    exact h.cloned

theorem clone {depth : Nat} {pd : Word} {s : Mmu.State} (process : UInt32)
    (hclone : Mmu.mmuClonePagedir (Mmu.pageFaultFed km depth) km σ.spaces.state = some (pd, s))
    (hfed : 0 < σ.spaces.state.framesIndex ∧
      Mmu.translate σ.spaces.state Mmu.kaddrClondpd = none) :
    Apart kc L { σ with
      spaces := σ.spaces.afterClone pd s, calls := ⟨process, pd⟩ :: σ.calls } := by
  obtain ⟨role, hroles⟩ := h.roles
  obtain ⟨hsucceeds, hfresh⟩ := hroles.clone_succeeds_iff hclone
  have hne := hsucceeds.2 hfed
  have hclones : (σ.spaces.afterClone pd s).clones = σ.spaces.clones ++ [pd] := if_neg hne
  have hsub : σ.spaces.clones ⊆ (σ.spaces.afterClone pd s).clones := by
    rw [hclones]
    exact List.subset_append_left ..
  have hcr3 : s.cr3 = σ.spaces.state.cr3 :=
    Mmu.mmuClonePagedir_cr3 (Mmu.pageFaultFed_cr3 km depth) hclone
  refine ⟨h.sane, hroles.clone_roles hclone, h.cr3.trans hcr3.symm, ?_, ?_, ?_, h.main, h.running⟩
  · intro t ht
    exact (h.contexts t ht).imp_right fun hmem => hsub hmem
  · refine List.nodup_cons.2 ⟨fun hmem => ?_, h.distinct⟩
    exact hfresh hne (List.mem_cons_of_mem _ (h.cloned pd hmem))
  · intro pd' hpd
    cases List.mem_cons.1 hpd with
    | inr hmem => exact hsub (h.cloned pd' hmem)
    | inl heq =>
      rw [heq, hclones]
      exact List.mem_append_right _ (List.mem_singleton.2 rfl)

theorem yield {returned : I686.Cpu} {threads : ContextSwitch.System}
    (hstep : ContextSwitch.Step kc σ.threads (.yield returned) threads) :
    Apart kc L (σ.yielded kc threads) := by
  have hswitched := h.sane.switched hstep
  have hkept : ∀ t ∈ σ.threads.threads,
      ContextSwitch.contextAt threads.cpu.mem t .pagedir = σ.pagedir t := by
    intro t ht
    rw [hswitched.context t ht]
    unfold ContextSwitch.nextContext
    split <;> rfl
  have htarget := hkept _ hswitched.target
  have hloaded : threads.cpu.cr3 =
      ContextSwitch.switchedCr3 σ.threads.cpu.cr3 (σ.pagedir (threads.current kc)) := by
    rw [hswitched.cr3]
    congr 1
    unfold ContextSwitch.nextContext
    split <;> rfl
  have hclones : (σ.yielded kc threads).spaces.clones = σ.spaces.clones := by
    unfold Machine.yielded
    simp only
    split <;> rfl
  refine ⟨h.sane.step hstep, ?_, ?_, ?_, h.distinct, ?_, ?_, ?_⟩
  · obtain ⟨role, hroles⟩ := h.roles
    unfold Machine.yielded
    simp only [htarget]
    split
    · exact ⟨role, hroles⟩
    · rename_i hne
      refine ⟨role, hroles.switch (List.mem_cons_of_mem _ ?_)⟩
      exact (h.contexts _ hswitched.target).resolve_left hne
  · unfold Machine.yielded
    simp only [htarget]
    rw [hloaded]
    unfold ContextSwitch.switchedCr3
    split
    · exact h.cr3
    · rfl
  · intro t ht
    have hmem : t ∈ σ.threads.threads := hswitched.threads ▸ ht
    have hpagedir : (σ.yielded kc threads).pagedir t = σ.pagedir t := hkept t hmem
    rw [hpagedir, hclones]
    exact h.contexts t hmem
  · rw [hclones]
    exact h.cloned
  · intro p hp t ht
    obtain ⟨hmem, hpagedir⟩ := h.main p hp t ht
    refine ⟨hswitched.threads.symm ▸ hmem, ?_⟩
    rw [← hpagedir]
    exact congrArg UInt32.toBitVec (hkept t hmem)
  · intro p hp hmainThread
    have hpagedir := (h.main p hp _ hmainThread).2
    have hcurrent : (σ.yielded kc threads).current kc = threads.current kc := rfl
    rw [hcurrent] at hpagedir
    have hne : σ.pagedir (threads.current kc) ≠ 0 := by
      intro hzero
      apply h.nonzero (mem_granted hp)
      rw [← hpagedir, hzero]
      rfl
    have hcr3 : (σ.yielded kc threads).threads.cpu.cr3 = threads.cpu.cr3 := rfl
    rw [hcr3, hloaded, ContextSwitch.switchedCr3, if_neg hne, hpagedir]

theorem step {a : Action} {σ' : Machine} (hfed : Fed km L.outside σ a)
    (hstep : Step c kc km (Mmu.pageFaultFed km) σ a σ') : Apart kc L σ' := by
  cases hstep with
  | exec hexec hcr3 =>
    refine h.threads_kept hexec (fun _ heq => by cases heq) ?_ ?_ (fun _ _ heq => by cases heq)
      (fun _ _ _ _ heq => by cases heq)
    · cases hexec
      exact hcr3
    · intro t ht hnot
      cases hexec
      exact absurd ht hnot
  | frames hop hframes => exact h.frames hop hfed hframes
  | clone hclone => exact h.clone _ hclone hfed
  | @create call tcb kstack priority psd threads hcall hcreate =>
    have hcurrent := hcreate.current_kept h.sane fun _ heq => by cases heq
    have hcontext := (h.sane.created hcreate).context
    have hpagedir : ContextSwitch.contextAt threads.cpu.mem tcb .pagedir = ⟨call.pagedir⟩ := by
      rw [hcontext]
      rfl
    have hmem : call.pagedir ∈ granted σ :=
      List.mem_append_left _ (List.mem_map_of_mem hcall)
    have hkept : Apart kc L { σ with threads := threads } := by
      refine h.threads_kept hcreate (fun _ heq => by cases heq) ?_ ?_
        (fun _ _ heq => by cases heq) (fun _ _ _ _ heq => by cases heq)
      · cases hcreate
        rfl
      · intro t ht hnot
        have heq : t = tcb := by
          cases hcreate
          cases List.mem_cons.1 ht with
          | inl heq => exact heq
          | inr hold => exact absurd hold hnot
        rw [heq, hpagedir]
        exact .inr (h.cloned _ hmem)
    refine hkept.granted_created hcall ?_ (congrArg UInt32.toBitVec hpagedir) ?_
    · cases hcreate
      exact List.mem_cons_self
    · intro heq
      have hnot : tcb ∉ σ.threads.threads := by
        cases hcreate
        assumption
      have hold : tcb = σ.threads.current kc := heq.trans hcurrent
      apply hnot
      rw [hold]
      exact h.sane.running
  | @refuse call tcb priority psd cpu threads hcall hcpu hexec =>
    have hkept : Apart kc L { σ with threads := threads } := by
      refine h.threads_kept hexec (fun _ heq => by cases heq) ?_ ?_ (fun _ _ heq => by cases heq)
        (fun _ _ _ _ heq => by cases heq)
      · cases hexec
        rw [hcpu]
      · intro t ht hnot
        cases hexec
        exact absurd ht hnot
    exact hkept.refused call
  | @spawn tcb kstack args threads hzero hcreate =>
    have hcontext := (h.sane.created hcreate).context
    refine h.threads_kept hcreate (fun _ heq => by cases heq) ?_ ?_ (fun _ _ heq => by cases heq)
      (fun _ _ _ _ heq => by cases heq)
    · cases hcreate
      rfl
    · intro t ht hnot
      have heq : t = tcb := by
        cases hcreate
        cases List.mem_cons.1 ht with
        | inl heq => exact heq
        | inr hold => exact absurd hold hnot
      left
      rw [heq, hcontext]
      exact hzero
  | @reap tcb threads hreap =>
    have hforgotten := h.forgotten tcb
    have hother : ∀ p ∈ (σ.reaped tcb σ.threads).processes, ∀ t, p.mainThread = some t →
        ContextSwitch.Action.reap tcb ≠ .reap t := by
      intro p hp t ht heq
      exact (forgets_main hp ht).1 (ContextSwitch.Action.reap.inj heq).symm
    refine hforgotten.threads_kept hreap (fun _ heq => by cases heq) ?_ ?_ ?_ hother
    · cases hreap
      rfl
    · intro t ht hnot
      cases hreap
      exact absurd (List.mem_filter.1 ht).1 hnot
    · intro t ht heq
      cases hreap
      have hne := (List.mem_filter.1 ht).2
      rw [← ContextSwitch.Action.reap.inj heq] at hne
      simp at hne
  | yield hyield => exact h.yield hyield

end Apart

end Steps

section Runs
variable {c : Code} {kc : ContextSwitch.Kernel} {km : Mmu.Kernel} {ram : Mmu.Memory}
  {map : List Mmu.Region} {depth : Nat} {s : Mmu.State}
    {threads : ContextSwitch.System} {σ : Machine}

theorem processes_separate (hdistinct : (Mmu.usableFrames km map).Nodup)
    (hinit : Mmu.mmuInit km (Mmu.pageFault km depth) map (Mmu.bootState km ram) = some s)
    (hboot : ContextSwitch.Booted kc threads) (hcr3 : threads.cpu.cr3.toBitVec = s.cr3)
    (hmain : ContextSwitch.contextAt threads.cpu.mem (threads.current kc) .pagedir = 0)
    (hrun : Reachable (Guarded (Step c kc km (Mmu.pageFaultFed km)) (Fed km fun _ => True))
      (start km threads s) σ) :
    Separate kc σ ∧ ∀ depth pd s',
      Mmu.mmuClonePagedir (Mmu.pageFaultFed km depth) km σ.spaces.state = some (pd, s') →
        (pd ≠ 0#32 ↔ 0 < σ.spaces.state.framesIndex ∧
          Mmu.translate σ.spaces.state Mmu.kaddrClondpd = none) := by
  obtain ⟨ptIndex, hfilling, hlow⟩ := Mmu.mmuInit_filling hdistinct hinit
  have hpool : ∀ f ∈ Mmu.usableFrames km map, Mmu.PoolFrame km f := Mmu.usableFrames_poolFrame
  let L := hfilling.left hpool hdistinct hlow fun _ => True
  have hstart : Apart kc L (start km threads s) := by
    refine ⟨hboot.sane, ?_, hcr3, ?_, List.nodup_nil, ?_, ?_, ?_⟩
    · exact hfilling.start_roles hpool hdistinct hlow _ fun _ _ => True.intro
    · intro t ht
      left
      have hone : t = threads.current kc := by
        have hmem : t ∈ threads.threads := ht
        rw [hboot.threads] at hmem
        exact List.mem_singleton.1 hmem
      rw [hone]
      exact hmain
    · intro pd hpd
      exact absurd hpd List.not_mem_nil
    · intro p hp
      exact absurd hp List.not_mem_nil
    · intro p hp
      exact absurd hp List.not_mem_nil
  have happart : Apart kc L σ :=
    hrun.invariant (Apart kc L) (fun _ _ _ h hstep => h.step hstep.1 hstep.2) hstart
  refine ⟨happart.separate, ?_⟩
  intro depth pd s' hclone
  obtain ⟨role, hroles⟩ := happart.roles
  exact (hroles.clone_succeeds_iff hclone).1

end Runs

/-! ### A small machine -/

def smallCode : Code := ⟨0x100, 0x200⟩

/-- The boot thread of the small system, in the directory of the image. -/
def smallThreads : ContextSwitch.System :=
  { ContextSwitch.smallSystem with
    cpu := { ContextSwitch.smallSystem.cpu with cr3 := 0x101000 } }

theorem smallThreads_booted : ContextSwitch.Booted ContextSwitch.smallKernel smallThreads :=
  have h := ContextSwitch.smallSystem_booted
  ⟨h.threads, h.current, h.tss, h.bound, h.context⟩

theorem smallThreads_current : smallThreads.current ContextSwitch.smallKernel = 0x5000 :=
  ContextSwitch.smallSystem_current

theorem smallThreads_main : ContextSwitch.contextAt smallThreads.cpu.mem
    (smallThreads.current ContextSwitch.smallKernel) .pagedir = 0 := by
  rw [smallThreads_current]
  decide

/-- The threads after `tcb_init` and `scheduler_run` of a main thread at 0x8000. -/
def smallCreated (pd : Word) : ContextSwitch.System :=
  smallThreads.create 0x8000 0x9000 (Call.args smallCode ⟨0x400, pd⟩ 2 0x300)

theorem smallCreated_step (pd : Word) : ContextSwitch.Step ContextSwitch.smallKernel smallThreads
    (.create 0x8000 0x9000 (Call.args smallCode ⟨0x400, pd⟩ 2 0x300)) (smallCreated pd) := by
  have hsize : ContextSwitch.contextSize = 44 := rfl
  have htcbSize : ContextSwitch.tcbSize = 84 := rfl
  have htcb : (0x8000 : UInt32).toNat = 0x8000 := rfl
  have hkstack : (0x9000 : UInt32).toNat = 0x9000 := rfl
  have hlen : (Call.args smallCode ⟨0x400, pd⟩ 2 0x300).kstackSize.toNat = 4096 := rfl
  have hplace : ∀ n, 0x8000 ≤ n → smallThreads.place n = .other := by
    intro n hn
    simp only [smallThreads, ContextSwitch.smallSystem, ContextSwitch.smallPlace]
    rw [if_neg (by omega), if_neg (by omega), if_neg (by omega), if_neg (by omega)]
  refine ContextSwitch.Step.create ⟨?_, ?_, ?_, ?_⟩ (by decide) ?_ ?_
  · omega
  · omega
  · omega
  · omega
  · intro n hlo hhi
    exact hplace n (by omega)
  · intro n hlo hhi
    exact hplace n (by omega)

/-- The boot thread yields to it. -/
def smallReturned (pd : Word) : I686.Cpu :=
  ContextSwitch.pickReturn ContextSwitch.smallKernel (smallCreated pd) 0x8000

def smallYielded (pd : Word) : ContextSwitch.System :=
  { smallCreated pd with
    cpu := ContextSwitch.loadContext ContextSwitch.smallKernel (smallReturned pd) }

theorem smallYielded_step (pd : Word) : ContextSwitch.Step ContextSwitch.smallKernel
    (smallCreated pd) (.yield (smallReturned pd)) (smallYielded pd) := by
  have hesp : ((smallCreated pd).cpu.reg .esp).toNat = 0x6800 := rfl
  have hcurrent : (smallCreated pd).current ContextSwitch.smallKernel = 0x5000 := by
    rw [(smallCreated_step pd).current_kept smallThreads_booted.sane fun _ heq => by cases heq]
    exact smallThreads_current
  refine ContextSwitch.Step.yield ⟨?_, ?_, fun n hlo hhi => ?_⟩
    (ContextSwitch.picked_pickReturn List.mem_cons_self)
  · omega
  · omega
  · rw [hesp] at hlo hhi
    have hold : smallThreads.place n = .stack 0x5000 := by
      have hsize : ContextSwitch.contextSize = 44 := rfl
      simp only [smallThreads, ContextSwitch.smallSystem, ContextSwitch.smallPlace]
      rw [if_neg (by omega), if_neg (by omega), if_neg (by omega), if_pos (by omega)]
    rw [hcurrent]
    cases smallCreated_step pd with
    | create hfresh hnew htcb hstack =>
      exact ((ContextSwitch.create_other hfresh htcb hstack (by simp [hold])).1).trans hold

theorem smallYielded_switched (pd : Word) :
    (smallYielded pd).current ContextSwitch.smallKernel = 0x8000 ∧
      (smallYielded pd).cpu.cr3 = ContextSwitch.switchedCr3 0x101000 ⟨pd⟩ := by
  have hsane := smallThreads_booted.sane.step (smallCreated_step pd)
  have hswitched := hsane.switched (smallYielded_step pd)
  have hcurrent : (smallYielded pd).current ContextSwitch.smallKernel = 0x8000 := by
    cases smallYielded_step pd with
    | yield hroom hpicked => exact hsane.current_yield hroom hpicked
  refine ⟨hcurrent, ?_⟩
  rw [hswitched.cr3, hcurrent]
  have hasleep := smallThreads_booted.sane.created (smallCreated_step pd)
  have hcontext : ContextSwitch.nextContext ContextSwitch.smallKernel (smallCreated pd) 0x8000 =
      ContextSwitch.contextAt (smallCreated pd).cpu.mem 0x8000 :=
    if_neg hasleep.away.symm
  rw [hcontext, hasleep.context]
  rfl

/-- One process, in its main thread. -/
def smallProcess (σ : Machine) (pd : Word) (s : Mmu.State) : Machine :=
  let cloned : Machine :=
    { σ with spaces := σ.spaces.afterClone pd s, calls := ⟨0x400, pd⟩ :: σ.calls }
  (cloned.created ⟨0x400, pd⟩ 0x8000 (smallCreated pd)).yielded ContextSwitch.smallKernel
    (smallYielded pd)

theorem smallProcess_run (Cond : Machine → Action → Prop) {handler : Nat → Mmu.Fault} {σ : Machine}
    (hthreads : σ.threads = smallThreads) {depth : Nat} {pd : Word} {s : Mmu.State}
    (hclone : Mmu.mmuClonePagedir (handler depth) Mmu.smallKernel σ.spaces.state = some (pd, s))
    (hcond : Cond σ (.clone 0x400)) (hcreate : ∀ σ call tcb kstack priority psd,
      Cond σ (.create call tcb kstack priority psd))
        (hyield : ∀ σ returned, Cond σ (.yield returned)) :
    Reachable (Guarded (Step smallCode ContextSwitch.smallKernel Mmu.smallKernel handler) Cond) σ
      (smallProcess σ pd s) := by
  refine ⟨[.clone 0x400, .create ⟨0x400, pd⟩ 0x8000 0x9000 2 0x300, .yield (smallReturned pd)],
    .cons ⟨hcond, .clone hclone⟩ (.cons ⟨hcreate .., .create List.mem_cons_self ?_⟩
      (.single ⟨hyield .., .yield (smallYielded_step pd)⟩))⟩
  rw [hthreads]
  exact smallCreated_step pd

theorem processes_separate_small : ∃ σ : Machine,
    σ.processes = [⟨1, Mmu.smallClone.1, some (σ.current ContextSwitch.smallKernel)⟩] ∧
      Separate ContextSwitch.smallKernel σ := by
  let σ₀ := start Mmu.smallKernel smallThreads Mmu.smallStart
  have hinit : Mmu.smallInit [Mmu.smallRam 4] = some Mmu.smallStart := (Option.some_get _).symm
  have hcloned : Mmu.mmuClonePagedir (Mmu.pageFaultFed Mmu.smallKernel 4) Mmu.smallKernel
      Mmu.smallStart = some Mmu.smallClone := (Option.some_get _).symm
  have hclone : Mmu.mmuClonePagedir (Mmu.pageFaultFed Mmu.smallKernel 4) Mmu.smallKernel
      σ₀.spaces.state = some (Mmu.smallClone.1, Mmu.smallClone.2) := hcloned
  have hroom : 0 < Mmu.smallStart.framesIndex := by decide +kernel
  have hwindow : Mmu.translate Mmu.smallStart Mmu.kaddrClondpd = none := by decide +kernel
  have hcr3 : smallThreads.cpu.cr3.toBitVec = Mmu.smallStart.cr3 := by decide +kernel
  have hrun := smallProcess_run (Fed Mmu.smallKernel fun _ => True) (σ := σ₀) rfl hclone
    ⟨hroom, hwindow⟩ (fun _ _ _ _ _ _ => True.intro) (fun _ _ => True.intro)
  obtain ⟨hcurrent, _⟩ := smallYielded_switched Mmu.smallClone.1
  have hmain : (smallProcess σ₀ Mmu.smallClone.1 Mmu.smallClone.2).current
      ContextSwitch.smallKernel = 0x8000 := hcurrent
  refine ⟨smallProcess σ₀ Mmu.smallClone.1 Mmu.smallClone.2, ?_, ?_⟩
  · rw [hmain]
    rfl
  · exact (processes_separate (by decide +kernel) hinit smallThreads_booted hcr3
      smallThreads_main hrun).1

/-- With the one frame of the machine gone to a page table `process_create` returns a process
without a directory, and its main thread runs in that of the boot thread. -/
theorem exhausted_pool_shares_directory : Mmu.smallInit [Mmu.smallRam 1] = some Mmu.scarceStart ∧
    ContextSwitch.Booted ContextSwitch.smallKernel smallThreads ∧
    smallThreads.cpu.cr3.toBitVec = Mmu.scarceStart.cr3 ∧
    ∃ σ : Machine, Reachable (Step smallCode ContextSwitch.smallKernel Mmu.smallKernel
        (Mmu.pageFault Mmu.smallKernel)) (start Mmu.smallKernel smallThreads Mmu.scarceStart) σ ∧
      σ.processes = [⟨1, 0#32, some (σ.current ContextSwitch.smallKernel)⟩] ∧
      σ.threads.cpu.cr3.toBitVec = Mmu.smallKernel.pd ∧
      ¬ Separate ContextSwitch.smallKernel σ := by
  let σ₀ := start Mmu.smallKernel smallThreads Mmu.scarceStart
  let σ₁ : Machine :=
    { σ₀ with spaces := { σ₀.spaces with state := Mmu.scarceFirst.2 } }
  have hmark : Step smallCode ContextSwitch.smallKernel Mmu.smallKernel
      (Mmu.pageFault Mmu.smallKernel) σ₀ (.frames (.mark 0x400000 0#32 Mmu.mmuProtRw)) σ₁ :=
    .frames True.intro Mmu.step_scarceFirst
  have hempty : σ₁.spaces.state.framesIndex = 0 := by decide +kernel
  have hclone : Mmu.mmuClonePagedir (Mmu.pageFault Mmu.smallKernel 4) Mmu.smallKernel
      σ₁.spaces.state = some (0#32, σ₁.spaces.state) := by
    unfold Mmu.mmuClonePagedir
    simp only [Mmu.mmuAlloc_empty hempty, Option.bind_eq_bind, Option.bind_some, if_true]
  obtain ⟨bs, hrun⟩ := smallProcess_run (fun _ _ => True) (σ := σ₁) rfl hclone True.intro
    (fun _ _ _ _ _ _ => True.intro) (fun _ _ => True.intro)
  obtain ⟨hcurrent, hcr3⟩ := smallYielded_switched 0#32
  have hmain : (smallProcess σ₁ 0#32 σ₁.spaces.state).current ContextSwitch.smallKernel = 0x8000 :=
    hcurrent
  refine ⟨(Option.some_get _).symm, smallThreads_booted, by decide +kernel,
    smallProcess σ₁ 0#32 σ₁.spaces.state, ⟨_, .cons hmark hrun.of_guarded⟩, ?_, ?_, ?_⟩
  · rw [hmain]
    rfl
  · have hthreads : (smallProcess σ₁ 0#32 σ₁.spaces.state).threads = smallYielded 0#32 := rfl
    rw [hthreads, hcr3]
    rfl
  · intro h
    exact h.nonzero ⟨1, 0#32, some 0x8000⟩ List.mem_cons_self rfl

end OsdevCourse.ProcessCreate
