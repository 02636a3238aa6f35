import OsdevCourse.MmuFrugal
import OsdevCourse.Scheduler

/-!
# A process that cannot be created

`process_create` takes five things: the block of the process, a page directory, the start data,
the TCB and its kernel stack. It looks at none of the results but the last, by that of
`tcb_init`; where the kernel stack is not to be had it frees the three blocks and returns NULL.
The page directory is a frame of the pool, and nothing gives it back.

The blocks are on pages of the kernel heap, which are mapped on demand: an access to one may be a
page fault, and so may an access to a block that is NULL.
-/

namespace OsdevCourse.ProcessFailure

set_option autoImplicit false

open Memory
open Mmu (Fault ActiveSpace Kept)
open Handlers (halting Steady Tame Frugal)

/-- The image: its kernel heap, its memory manager, and the two functions of a process. -/
structure Image where
  layout : Kmalloc.Layout
  kernel : Mmu.Kernel
  same : layout.kernelEnd = 0xF0000000 + kernel.kernelEnd
  startfunc : Nat
  exitfunc : Nat

structure System where
  heap : Kmalloc.Kernel
  /-- The blocks that have been allocated and not freed. -/
  live : List Nat
  mmu : Mmu.State
  scheduler : Scheduler.State
  /-- `_next_process_id` -/
  nextProcessId : UInt32

def touch (fault : Fault) (addr : Nat) (s : Mmu.State) : Option Mmu.State := do
  let (_, s) ← Mmu.access fault addr s
  some s

def touchAll (fault : Fault) : List Nat → Mmu.State → Option Mmu.State
  | [], s => some s
  | addr :: addrs, s => do
    let s ← touch fault addr s
    touchAll fault addrs s

/-- The pages of `n` bytes. -/
def pagesOf (addr n : Nat) : List Nat :=
  (List.range ((addr + n + 4095) / 4096 - addr / 4096)).map fun i => 4096 * (addr / 4096 + i)

/-- The nodes that the search of the large list looks at. -/
def visited (size : Nat) : Nat → Nat → Memory → List Nat
  | 0, _, _ => []
  | fuel + 1, parent, mem =>
    let node := Kmalloc.nextField mem parent
    if node = 0 then []
    else if size ≤ Kmalloc.sizeField mem node then [node]
    else node :: visited size fuel node mem

/-- The nodes that `kmalloc` looks at; the heads of the lists are in the image. -/
def nodesRead (l : Kmalloc.Layout) (fuel n : Nat) (mem : Memory) : List Nat :=
  let (list, size) := Kmalloc.requestClass n
  if size ≤ 1024 then
    if Kmalloc.nextField mem (l.node list) = 0 then [] else [Kmalloc.nextField mem (l.node list)]
  else visited size fuel (l.node list) mem

/-! ### The calls -/

section Calls
variable (im : Image) (fuel : Nat) (fault : Fault)

/-- `kmalloc`, with the pages it maps and those it touches. -/
def kmalloc (n : Nat) (σ : System) : Option (Nat × System) := do
  let (heap, ptr) ← Kmalloc.kmalloc im.layout fuel n σ.heap
  let mmu ← touchAll fault (nodesRead im.layout fuel n σ.heap.mem) σ.mmu
  let mmu ← Mmu.mapAll fault (heap.mapped.drop σ.heap.mapped.length) mmu
  -- The size of a new block is stored in its node.
  let mmu ← if ptr = 0 then some mmu else touch fault (Kmalloc.nodeOf ptr) mmu
  some (ptr, { σ with
    heap := heap, mmu := mmu, live := if ptr = 0 then σ.live else ptr :: σ.live })

def kfree (ptr : Nat) (σ : System) : Option System :=
  if ptr = 0 then some σ
  else do
    let mmu ← touch fault (Kmalloc.nodeOf ptr) σ.mmu
    some { σ with heap := Kmalloc.kfree im.layout ptr σ.heap, mmu := mmu, live := σ.live.erase ptr }

/-- `__builtin_memset(ptr, 0, n)` -/
def memset (ptr n : Nat) (σ : System) : Option System := do
  let mmu ← touchAll fault (pagesOf ptr n) σ.mmu
  let mem := writeBytes σ.heap.mem ptr (List.replicate n 0)
  some { σ with heap := { σ.heap with mem := mem }, mmu := mmu }

def load (addr : Nat) (σ : System) : Option (Nat × System) := do
  let mmu ← touch fault addr σ.mmu
  some (read32 σ.heap.mem addr, { σ with mmu := mmu })

def store (addr w : Nat) (σ : System) : Option System := do
  let mmu ← touch fault addr σ.mmu
  some { σ with heap := { σ.heap with mem := write32 σ.heap.mem addr w }, mmu := mmu }

def storeAll : List (Nat × Nat) → System → Option System
  | [], σ => some σ
  | (addr, w) :: words, σ => do
    let σ ← store fault addr w σ
    storeAll words σ

def clonePagedir (σ : System) : Option (Word × System) := do
  let (pagedir, mmu) ← Mmu.mmuClonePagedir fault im.kernel σ.mmu
  some (pagedir, { σ with mmu := mmu })

/-- The words that `tcb_init` stores, in their order. -/
def tcbWords (tcb process pagedir priority quantum kstackSize startfunc exitfunc ud kstack : Nat) :
    List (Nat × Nat) :=
  let esp := kstack + kstackSize
  [(esp - 4, ud), (esp - 8, ud), (esp - 12, exitfunc), (esp - 16, startfunc),
    (tcb + 40, pagedir), (tcb + 32, 0x202), (tcb + 20, esp - 16), (tcb + 36, esp - 16 - 32),
    (tcb + 72, process), (tcb + 44, kstack), (tcb + 60, priority), (tcb + 56, quantum),
    (tcb + 48, 0), (tcb + 76, 0), (tcb + 80, 0)]

/-- `tcb_init` -/
def tcbInit (tcb process pagedir priority quantum kstackSize startfunc exitfunc ud : Nat)
    (σ : System) : Option (Bool × System) := do
  let σ ← memset fault tcb 84 σ
  let (kstack, σ) ← kmalloc im fuel fault kstackSize σ
  if kstack = 0 then some (false, σ)
  else
    let σ ← storeAll fault (tcbWords tcb process pagedir priority quantum kstackSize startfunc
      exitfunc ud kstack) σ
    some (true, σ)

/-- `scheduler_run`, for the TCB that `tcb_init` has filled in. -/
def schedulerRun (tcb priority quantum kstack : Nat) (σ : System) : System :=
  let s := σ.scheduler.modify (.thread tcb) fun _ => Scheduler.tcbInit priority quantum kstack
  { σ with scheduler := Scheduler.schedulerRun s (.thread tcb) }

/-- `process_create`; 10 is `SCHEDULE_QUANTUM_NORMAL`. -/
def processCreate (program priority : Nat) (σ : System) : Option (Nat × System) := do
  let (process, σ) ← kmalloc im fuel fault 28 σ
  let σ ← memset fault process 28 σ
  let (pagedir, σ) ← clonePagedir im fault σ
  let σ ← store fault (process + 4) pagedir.toNat σ
  let (psd, σ) ← kmalloc im fuel fault 8 σ
  let σ ← store fault psd process σ
  let σ ← store fault (psd + 4) program σ
  let (tcb, σ) ← kmalloc im fuel fault 84 σ
  let (pagedir, σ) ← load fault (process + 4) σ
  let (ok, σ) ← tcbInit im fuel fault tcb process pagedir priority 10 4096 im.startfunc im.exitfunc
    psd σ
  if ok then
    let pid := σ.nextProcessId
    let σ ← store fault process pid.toNat { σ with nextProcessId := pid + 1 }
    let σ ← store fault (process + 24) tcb σ
    let (kstack, σ) ← load fault (tcb + 44) σ
    some (process, schedulerRun tcb priority 10 kstack σ)
  else
    let σ ← kfree im fault tcb σ
    let σ ← kfree im fault psd σ
    let σ ← kfree im fault process σ
    some (0, σ)

end Calls

/-! ### Where an allocation fails -/

section Points
variable (im : Image) (fuel : Nat) (fault : Fault) (program : Nat)

inductive Point where
  | process | pagedir | startData | tcb | kstack

structure Taken where
  process : Nat
  psd : Nat
  tcb : Nat
  pagedir : Nat
  kstack : Nat

/-- `process_create` up to `mmu_clone_pagedir`. -/
def takePagedir (σ : System) : Option ((Nat × Word) × System) := do
  let (process, σ) ← kmalloc im fuel fault 28 σ
  let σ ← memset fault process 28 σ
  let (pagedir, σ) ← clonePagedir im fault σ
  some ((process, pagedir), σ)

/-- `process_create` up to the `kmalloc` of the start data. -/
def takeStartData (σ : System) : Option ((Nat × Nat) × System) := do
  let ((process, pagedir), σ) ← takePagedir im fuel fault σ
  let σ ← store fault (process + 4) pagedir.toNat σ
  let (psd, σ) ← kmalloc im fuel fault 8 σ
  some ((process, psd), σ)

/-- `process_create` up to the `kmalloc` of the TCB. -/
def takeTcb (σ : System) : Option ((Nat × Nat × Nat) × System) := do
  let ((process, psd), σ) ← takeStartData im fuel fault σ
  let σ ← store fault psd process σ
  let σ ← store fault (psd + 4) program σ
  let (tcb, σ) ← kmalloc im fuel fault 84 σ
  some ((process, psd, tcb), σ)

/-- `process_create` up to the `kmalloc` in `tcb_init`. -/
def takeStack (σ : System) : Option (Taken × System) := do
  let ((process, psd, tcb), σ) ← takeTcb im fuel fault program σ
  let (pagedir, σ) ← load fault (process + 4) σ
  let σ ← memset fault tcb 84 σ
  let (kstack, σ) ← kmalloc im fuel fault 4096 σ
  some (⟨process, psd, tcb, pagedir, kstack⟩, σ)

/-- The allocation at the point fails. -/
def FailsAt (σ : System) : Point → Prop
  | .process => ∃ σ', kmalloc im fuel fault 28 σ = some (0, σ')
  | .pagedir => ∃ process σ', takePagedir im fuel fault σ = some ((process, 0#32), σ')
  | .startData => ∃ process σ', takeStartData im fuel fault σ = some ((process, 0), σ')
  | .tcb => ∃ process psd σ', takeTcb im fuel fault program σ = some ((process, psd, 0), σ')
  | .kstack => ∃ t σ', takeStack im fuel fault program σ = some (t, σ') ∧ t.kstack = 0

/-- `process_create` from the stores of `tcb_init` on. -/
def finish (priority : Nat) (t : Taken) (σ : System) : Option (Nat × System) := do
  let σ ← storeAll fault
    (tcbWords t.tcb t.process t.pagedir priority 10 4096 im.startfunc im.exitfunc t.psd t.kstack) σ
  let pid := σ.nextProcessId
  let σ ← store fault t.process pid.toNat { σ with nextProcessId := pid + 1 }
  let σ ← store fault (t.process + 24) t.tcb σ
  let (kstack, σ) ← load fault (t.tcb + 44) σ
  some (t.process, schedulerRun t.tcb priority 10 kstack σ)

/-- `process_create` from the failure of `tcb_init` on. -/
def undo (t : Taken) (σ : System) : Option (Nat × System) := do
  let σ ← kfree im fault t.tcb σ
  let σ ← kfree im fault t.psd σ
  let σ ← kfree im fault t.process σ
  some (0, σ)

end Points

/-- The call returns NULL, and the frame pool, the blocks, the counter and the queues are as they
were. -/
def LeavesNothing (im : Image) (σ : System) (r : Option (Nat × System)) : Prop :=
  ∃ σ', r = some (0, σ') ∧ Mmu.pool im.kernel σ'.mmu = Mmu.pool im.kernel σ.mmu ∧
    σ'.live = σ.live ∧ σ'.nextProcessId = σ.nextProcessId ∧ σ'.scheduler = σ.scheduler

/-- Every page the call comes to is present, and the kernel stack is not to be had. -/
def StackGivesUp (im : Image) (fuel program : Nat) (σ : System) : Prop :=
  FailsAt im fuel halting program σ .kstack

/-- The kernel between two calls. -/
structure Sane (im : Image) (role : Word → Mmu.Role) (σ : System) : Prop where
  space : ActiveSpace im.kernel role σ.mmu
  frames : 0#32 ∉ Mmu.pool im.kernel σ.mmu
  flag : σ.heap.heap.flag = 0

/-! ### Calls that meet no page fault -/

section Unaided
variable {im : Image} {fuel : Nat} {f g : Fault} (hfg : Mmu.Within f g) (σ : System)
include hfg

theorem touch_steady (addr : Nat) (s : Mmu.State) : Steady f g fun h => touch h addr s :=
  .bind (fun _ hr => Mmu.access_within hfg hr) fun _ => .plain _

theorem touchAll_steady (addrs : List Nat) (s : Mmu.State) :
    Steady f g fun h => touchAll h addrs s := by
  induction addrs generalizing s with
  | nil => exact .plain _
  | cons addr addrs ih => exact .bind (touch_steady hfg addr s) fun s' => ih s'

theorem kmalloc_steady (n : Nat) : Steady f g fun h => kmalloc im fuel h n σ := by
  refine .bind (.plain _) fun r => .bind (touchAll_steady hfg _ _) fun s₁ => ?_
  refine .bind (Mmu.mapAll_steady hfg _ _) fun s₂ => .ite (.bind (.plain _) fun _ => .plain _) ?_
  exact .bind (touch_steady hfg _ _) fun _ => .plain _

theorem memset_steady (ptr n : Nat) : Steady f g fun h => memset h ptr n σ :=
  .bind (touchAll_steady hfg _ _) fun _ => .plain _

theorem load_steady (addr : Nat) : Steady f g fun h => load h addr σ :=
  .bind (touch_steady hfg _ _) fun _ => .plain _

theorem store_steady (addr w : Nat) : Steady f g fun h => store h addr w σ :=
  .bind (touch_steady hfg _ _) fun _ => .plain _

theorem clonePagedir_steady : Steady f g fun h => clonePagedir im h σ :=
  .bind (fun _ hr => Mmu.mmuClonePagedir_within hfg hr) fun _ => .plain _

theorem takePagedir_steady : Steady f g fun h => takePagedir im fuel h σ := by
  refine .bind (kmalloc_steady hfg σ 28) fun r => .bind (memset_steady hfg r.2 r.1 28) fun σ₁ => ?_
  exact .bind (clonePagedir_steady hfg σ₁) fun _ => .plain _

theorem takeTcb_steady (program : Nat) : Steady f g fun h => takeTcb im fuel h program σ := by
  have hstart : Steady f g fun h => takeStartData im fuel h σ := by
    refine .bind (takePagedir_steady hfg σ) fun r => .bind (store_steady hfg r.2 _ _) fun σ₁ => ?_
    exact .bind (kmalloc_steady hfg σ₁ 8) fun _ => .plain _
  refine .bind hstart fun r => ?_
  refine .bind (store_steady hfg r.2 _ _) fun σ₁ => .bind (store_steady hfg σ₁ _ _) fun σ₂ => ?_
  exact .bind (kmalloc_steady hfg σ₂ 84) fun _ => .plain _

theorem takeStack_steady (program : Nat) : Steady f g fun h => takeStack im fuel h program σ := by
  refine .bind (takeTcb_steady hfg σ program) fun r => .bind (load_steady hfg r.2 _) fun r₁ => ?_
  refine .bind (memset_steady hfg r₁.2 _ _) fun σ₂ => ?_
  exact .bind (kmalloc_steady hfg σ₂ 4096) fun _ => .plain _

end Unaided

/-! ### What the calls take from the pool -/

section Costs
variable {im : Image} {fuel : Nat} {h : Fault} (hh : Mmu.Spends h) (σ : System)
include hh

theorem touch_tame (addr : Nat) (s : Mmu.State) :
    Tame h s.framesIndex Mmu.State.framesIndex fun f => touch f addr s :=
  Tame.bind (Mmu.access_tame hh addr s) fun _ => .pure rfl

theorem touchAll_tame (addrs : List Nat) (s : Mmu.State) :
    Tame h s.framesIndex Mmu.State.framesIndex fun f => touchAll f addrs s := by
  induction addrs generalizing s with
  | nil => exact .pure rfl
  | cons addr addrs ih => exact Tame.bind (touch_tame hh addr s) fun s' => ih s'

theorem kmalloc_tame (n : Nat) :
    Tame h σ.mmu.framesIndex (fun r => r.2.mmu.framesIndex) fun f => kmalloc im fuel f n σ := by
  refine Tame.bind (n := fun _ => σ.mmu.framesIndex) (.plain fun _ _ => rfl) ?_
  intro r
  refine Tame.bind (touchAll_tame hh _ _) ?_
  intro s₁
  refine Tame.bind (Mmu.mapAll_tame hh _ _) ?_
  intro s₂
  refine Tame.ite (Tame.bind (.pure rfl) ?_) (Tame.bind (touch_tame hh _ _) ?_)
  · exact fun _ => .pure rfl
  · exact fun _ => .pure rfl

theorem memset_tame (ptr n : Nat) :
    Tame h σ.mmu.framesIndex (fun σ' => σ'.mmu.framesIndex) fun f => memset f ptr n σ :=
  Tame.bind (touchAll_tame hh _ _) fun _ => .pure rfl

theorem load_tame (addr : Nat) :
    Tame h σ.mmu.framesIndex (fun r => r.2.mmu.framesIndex) fun f => load f addr σ :=
  Tame.bind (touch_tame hh _ _) fun _ => .pure rfl

theorem store_tame (addr w : Nat) :
    Tame h σ.mmu.framesIndex (fun σ' => σ'.mmu.framesIndex) fun f => store f addr w σ :=
  Tame.bind (touch_tame hh _ _) fun _ => .pure rfl

theorem kfree_tame (ptr : Nat) :
    Tame h σ.mmu.framesIndex (fun σ' => σ'.mmu.framesIndex) fun f => kfree im f ptr σ :=
  Tame.ite (.pure rfl) (Tame.bind (touch_tame hh _ _) fun _ => .pure rfl)

theorem undo_tame (t : Taken) :
    Tame h σ.mmu.framesIndex (fun r => r.2.mmu.framesIndex) fun f => undo im f t σ := by
  refine Tame.bind (kfree_tame hh σ t.tcb) ?_
  intro σ₁
  refine Tame.bind (kfree_tame hh σ₁ t.psd) ?_
  intro σ₂
  exact Tame.bind (kfree_tame hh σ₂ t.process) fun _ => .pure rfl

theorem takePagedir_frugal :
    Frugal h σ.mmu.framesIndex (fun r => r.2.mmu.framesIndex) fun f => takePagedir im fuel f σ := by
  refine Frugal.bind (.of_tame (kmalloc_tame hh σ 28)) ?_
  intro r
  refine Frugal.bind (.of_tame (memset_tame hh r.2 r.1 28)) ?_
  intro σ₁
  refine Frugal.bind (Frugal.bind (Mmu.mmuClonePagedir_frugal hh im.kernel σ₁.mmu)
    (p := fun r => r.2.mmu.framesIndex) ?_) ?_
  · exact fun _ => .of_tame (.pure rfl)
  · exact fun _ => .of_tame (.pure rfl)

theorem takeStartData_frugal :
    Frugal h σ.mmu.framesIndex (fun r => r.2.mmu.framesIndex) fun f =>
      takeStartData im fuel f σ := by
  refine Frugal.bind (takePagedir_frugal hh σ) ?_
  intro r
  refine Frugal.bind (.of_tame (store_tame hh r.2 _ _)) ?_
  intro σ₁
  exact Frugal.bind (.of_tame (kmalloc_tame hh σ₁ 8)) fun _ => .of_tame (.pure rfl)

theorem takeTcb_frugal (program : Nat) :
    Frugal h σ.mmu.framesIndex (fun r => r.2.mmu.framesIndex)
      fun f => takeTcb im fuel f program σ := by
  refine Frugal.bind (takeStartData_frugal hh σ) ?_
  intro r
  refine Frugal.bind (.of_tame (store_tame hh r.2 _ _)) ?_
  intro σ₁
  refine Frugal.bind (.of_tame (store_tame hh σ₁ _ _)) ?_
  intro σ₂
  exact Frugal.bind (.of_tame (kmalloc_tame hh σ₂ 84)) fun _ => .of_tame (.pure rfl)

theorem takeStack_frugal (program : Nat) :
    Frugal h σ.mmu.framesIndex (fun r => r.2.mmu.framesIndex)
      fun f => takeStack im fuel f program σ := by
  refine Frugal.bind (takeTcb_frugal hh σ program) ?_
  intro r
  refine Frugal.bind (.of_tame (load_tame hh r.2 _)) ?_
  intro r₁
  refine Frugal.bind (.of_tame (memset_tame hh r₁.2 _ _)) ?_
  intro σ₂
  exact Frugal.bind (.of_tame (kmalloc_tame hh σ₂ 4096)) fun _ => .of_tame (.pure rfl)

theorem storeAll_tame (words : List (Nat × Nat)) :
    Tame h σ.mmu.framesIndex (fun σ' => σ'.mmu.framesIndex) fun f => storeAll f words σ := by
  induction words generalizing σ with
  | nil => exact .pure rfl
  | cons word words ih => exact Tame.bind (store_tame hh σ word.1 word.2) fun σ' => ih σ'

theorem finish_tame (priority : Nat) (t : Taken) :
    Tame h σ.mmu.framesIndex (fun r => r.2.mmu.framesIndex) fun f => finish im f priority t σ := by
  refine Tame.bind (storeAll_tame hh σ _) ?_
  intro σ₁
  refine Tame.bind (store_tame hh { σ₁ with nextProcessId := σ₁.nextProcessId + 1 } _ _) ?_
  intro σ₂
  refine Tame.bind (store_tame hh σ₂ _ _) ?_
  intro σ₃
  exact Tame.bind (load_tame hh σ₃ _) fun _ => .pure rfl

end Costs

/-! ### What the calls do without a page fault -/

def acquire (p : Nat) (ps : List Nat) : List Nat := if p = 0 then ps else p :: ps

/-- The blocks `ps` have been allocated since `σ`, and nothing else has been taken. -/
structure Holding (im : Image) (role : Word → Mmu.Role) (σ σ' : System) (ps : List Nat) : Prop where
  sane : Sane im role σ'
  kept : Kept im.kernel σ.mmu σ'.mmu
  nodes : ∀ p ∈ ps, p ≠ 0 →
    PageEntry.present (Mmu.entry σ'.mmu (Kmalloc.nodeOf p)) = true
  live : σ'.live = ps.foldr acquire σ.live
  counter : σ'.nextProcessId = σ.nextProcessId
  queues : σ'.scheduler = σ.scheduler

theorem touch_halting {addr : Nat} {s s' : Mmu.State} (hr : touch halting addr s = some s') :
    s' = s ∧ PageEntry.present (Mmu.entry s addr) = true := by
  simp only [touch, Option.bind_eq_bind, Option.bind_eq_some_iff, Option.some.injEq] at hr
  obtain ⟨r, haccess, hr⟩ := hr
  obtain ⟨hsame, hpresent⟩ := Mmu.access_halting haccess
  exact ⟨hr.symm.trans hsame, hpresent⟩

theorem touchAll_halting {addrs : List Nat} {s s' : Mmu.State}
    (hr : touchAll halting addrs s = some s') : s' = s := by
  induction addrs generalizing s with
  | nil => exact (Option.some.inj hr).symm
  | cons addr addrs ih =>
    simp only [touchAll, Option.bind_eq_bind, Option.bind_eq_some_iff] at hr
    obtain ⟨s₁, htouch, hr⟩ := hr
    exact (ih hr).trans (touch_halting htouch).1

theorem touch_present {addr : Nat} {s : Mmu.State}
    (h : PageEntry.present (Mmu.entry s addr) = true) (fault : Fault) :
    touch fault addr s = some s := by
  obtain ⟨place, hplace⟩ := Mmu.access_present h fault
  unfold touch
  rw [hplace]
  rfl

theorem kmalloc_mappings {l : Kmalloc.Layout} {fuel n p : Nat} {k k' : Kmalloc.Kernel}
    (hr : Kmalloc.kmalloc l fuel n k = some (k', p)) :
    k'.heap.flag = k.heap.flag ∧
      ∀ m ∈ k'.mapped.drop k.mapped.length, m.flag = k.heap.flag &&& 0xFFFF := by
  have hnone : ∀ m : Kmalloc.Mapping, m ∈ k.mapped.drop k.mapped.length →
      m.flag = k.heap.flag &&& 0xFFFF := by
    intro m hm
    rw [List.drop_length] at hm
    exact absurd hm List.not_mem_nil
  have hmap : ∀ size, ∀ m ∈ (k.mapped ++ Kmalloc.heapMap k.heap size).drop k.mapped.length,
      m.flag = k.heap.flag &&& 0xFFFF := by
    intro size m hm
    rw [List.drop_left] at hm
    unfold Kmalloc.heapMap at hm
    simp only at hm
    split at hm
    · split at hm
      · rw [List.mem_singleton.1 hm]
      · exact absurd hm List.not_mem_nil
    · exact absurd hm List.not_mem_nil
  unfold Kmalloc.kmalloc at hr
  simp only at hr
  split at hr
  · exact absurd hr (by simp)
  · unfold Kmalloc.heapAlloc at hr
    split at hr
    · split at hr
      · simp only [if_true, Option.some.injEq, Prod.mk.injEq] at hr
        rw [← hr.1]
        exact ⟨rfl, hnone⟩
      · simp only at hr
        split at hr
        · rw [← (Prod.mk.inj (Option.some.inj hr)).1]
          exact ⟨rfl, hmap _⟩
        · rw [← (Prod.mk.inj (Option.some.inj hr)).1]
          exact ⟨rfl, hmap _⟩
    · rw [← (Prod.mk.inj (Option.some.inj hr)).1]
      exact ⟨rfl, hnone⟩

namespace Holding
variable {im : Image} {role : Word → Mmu.Role} {σ σ₁ σ' : System} {ps : List Nat} {fuel n p : Nat}

theorem refl (h : Sane im role σ) : Holding im role σ σ [] :=
  ⟨h, .refl im.kernel σ.mmu, fun _ hp => absurd hp List.not_mem_nil, rfl, rfl, rfl⟩

theorem stored (h : Holding im role σ σ₁ ps) (mem : Memory) :
    Holding im role σ { σ₁ with heap := { σ₁.heap with mem := mem } } ps :=
  ⟨⟨h.sane.space, h.sane.frames, h.sane.flag⟩, h.kept, h.nodes, h.live, h.counter, h.queues⟩

theorem memset (h : Holding im role σ σ₁ ps) {ptr : Nat}
    (hr : ProcessFailure.memset halting ptr n σ₁ = some σ') : Holding im role σ σ' ps := by
  simp only [ProcessFailure.memset, Option.bind_eq_bind, Option.bind_eq_some_iff,
    Option.some.injEq] at hr
  obtain ⟨s, htouch, hr⟩ := hr
  rw [← hr, touchAll_halting htouch]
  exact h.stored _

theorem store (h : Holding im role σ σ₁ ps) {addr w : Nat}
    (hr : ProcessFailure.store halting addr w σ₁ = some σ') : Holding im role σ σ' ps := by
  simp only [ProcessFailure.store, Option.bind_eq_bind, Option.bind_eq_some_iff,
    Option.some.injEq] at hr
  obtain ⟨s, htouch, hr⟩ := hr
  rw [← hr, (touch_halting htouch).1]
  exact h.stored _

theorem load (h : Holding im role σ σ₁ ps) {addr w : Nat}
    (hr : ProcessFailure.load halting addr σ₁ = some (w, σ')) : Holding im role σ σ' ps := by
  simp only [ProcessFailure.load, Option.bind_eq_bind, Option.bind_eq_some_iff, Option.some.injEq,
    Prod.mk.injEq] at hr
  obtain ⟨s, htouch, _, hr⟩ := hr
  rw [← hr, (touch_halting htouch).1]
  exact h

theorem kmalloc (h : Holding im role σ σ₁ ps)
    (hr : ProcessFailure.kmalloc im fuel halting n σ₁ = some (p, σ')) :
    Holding im role σ σ' (p :: ps) := by
  unfold ProcessFailure.kmalloc at hr
  simp only [Option.bind_eq_bind, Option.bind_eq_some_iff] at hr
  obtain ⟨⟨heap, ptr⟩, hkmalloc, s₁, htouch, s₂, hmap, hr⟩ := hr
  obtain ⟨hflag, hmappings⟩ := kmalloc_mappings hkmalloc
  rw [touchAll_halting htouch] at hmap
  have hdemand : ∀ m ∈ heap.mapped.drop σ₁.heap.mapped.length,
      BitVec.ofNat 32 m.flag &&& Mmu.mmuPageNoalloc = 0#32 := by
    intro m hm
    rw [hmappings m hm, h.sane.flag, Nat.zero_and, BitVec.zero_and]
  obtain ⟨hspace, hkept⟩ := h.sane.space.mapAll_kept hdemand hmap
  have hframes : 0#32 ∉ Mmu.pool im.kernel s₂ := by
    rw [hkept.pool]
    exact h.sane.frames
  have hnodes : ∀ q ∈ ps, q ≠ 0 →
      PageEntry.present (Mmu.entry s₂ (Kmalloc.nodeOf q)) = true := by
    intro q hq hne
    rw [hkept.entries]
    exact h.nodes q hq hne
  simp only at hr
  split at hr
  · rename_i hnull
    simp only [Option.bind_some, Option.some.injEq, Prod.mk.injEq] at hr
    obtain ⟨hptr, hr⟩ := hr
    rw [← hr, ← hptr, hnull]
    refine ⟨⟨hspace, hframes, hflag.trans h.sane.flag⟩, h.kept.trans hkept, ?_, h.live, h.counter,
      h.queues⟩
    intro q hq hne
    rcases List.mem_cons.1 hq with heq | hmem
    · exact absurd heq hne
    · exact hnodes q hmem hne
  · rename_i hne
    simp only [Option.bind_eq_some_iff, Option.some.injEq, Prod.mk.injEq] at hr
    obtain ⟨s₃, hnode, hptr, hr⟩ := hr
    obtain ⟨hsame, hpresent⟩ := touch_halting hnode
    rw [← hr, ← hptr, hsame]
    refine ⟨⟨hspace, hframes, hflag.trans h.sane.flag⟩, h.kept.trans hkept, ?_, ?_, h.counter,
      h.queues⟩
    · intro q hq hneq
      rcases List.mem_cons.1 hq with heq | hmem
      · rw [heq]
        exact hpresent
      · exact hnodes q hmem hneq
    · rw [List.foldr_cons, acquire, if_neg hne, ← h.live]

theorem clonePagedir (h : Holding im role σ σ₁ ps) (hrefused : Mmu.CloneRefused σ.mmu)
    {pagedir : Word}
    (hr : ProcessFailure.clonePagedir im halting σ₁ = some (pagedir, σ')) :
    pagedir = 0#32 ∧ Holding im role σ σ' ps := by
  have hrefused₁ : Mmu.CloneRefused σ₁.mmu := by
    rcases hrefused with hempty | hwindow
    · exact .inl (h.kept.index.trans hempty)
    · exact .inr ((h.kept.entries _).trans hwindow)
  obtain ⟨s, hclone, hspace, hkept⟩ :=
    h.sane.space.clone_refused h.sane.frames hrefused₁ halting
  unfold ProcessFailure.clonePagedir at hr
  rw [hclone] at hr
  simp only [Option.bind_eq_bind, Option.bind_some, Option.some.injEq, Prod.mk.injEq] at hr
  obtain ⟨hzero, hr⟩ := hr
  rw [← hr]
  refine ⟨hzero.symm, ⟨hspace, ?_, h.sane.flag⟩, h.kept.trans hkept, ?_, h.live, h.counter,
    h.queues⟩
  · rw [hkept.pool]
    exact h.sane.frames
  · intro p hp hne
    rw [hkept.entries]
    exact h.nodes p hp hne

theorem null (h : Holding im role σ σ₁ (p :: ps)) (hnull : p = 0) : Holding im role σ σ₁ ps := by
  have hlive := h.live
  rw [List.foldr_cons, acquire, if_pos hnull] at hlive
  exact ⟨h.sane, h.kept, fun q hq => h.nodes q (List.mem_cons_of_mem p hq), hlive, h.counter,
    h.queues⟩

theorem kfree (h : Holding im role σ σ₁ (p :: ps)) (fault : Fault) :
    ∃ σ', ProcessFailure.kfree im fault p σ₁ = some σ' ∧ Holding im role σ σ' ps := by
  unfold ProcessFailure.kfree
  split
  · rename_i hnull
    exact ⟨σ₁, rfl, h.null hnull⟩
  · rename_i hne
    have hlive := h.live
    rw [List.foldr_cons, acquire, if_neg hne] at hlive
    rw [touch_present (h.nodes p List.mem_cons_self hne)]
    refine ⟨_, rfl, ⟨h.sane.space, h.sane.frames, ?_⟩, h.kept,
      fun q hq => h.nodes q (List.mem_cons_of_mem p hq), ?_, h.counter, h.queues⟩
    · unfold Kmalloc.kfree
      split
      · exact h.sane.flag
      · exact h.sane.flag
    · simp only [hlive, List.erase_cons_head]

end Holding

/-! ### `process_create` -/

section Create
variable {im : Image} {role : Word → Mmu.Role} {σ σ' : System} {fuel program priority : Nat}

theorem refused_of_take (h : Sane im role σ) {x : Nat × Word}
    (hr : takePagedir im fuel halting σ = some (x, σ'))
    (hindex : σ.mmu.framesIndex ≤ σ'.mmu.framesIndex) : Mmu.CloneRefused σ.mmu := by
  simp only [takePagedir, Option.bind_eq_bind, Option.bind_eq_some_iff, Option.some.injEq,
    Prod.mk.injEq] at hr
  obtain ⟨⟨process, σ₁⟩, hkmalloc, σ₂, hmemset, ⟨pagedir, σ₃⟩, hclone, _, hr⟩ := hr
  have hholding := ((Holding.refl h).kmalloc hkmalloc).memset hmemset
  unfold clonePagedir at hclone
  simp only [Option.bind_eq_bind, Option.bind_eq_some_iff, Option.some.injEq,
    Prod.mk.injEq] at hclone
  obtain ⟨⟨pd, s⟩, hcall, _, hsame⟩ := hclone
  have hafter : σ'.mmu = s := by
    rw [← hr, ← hsame]
  have hbefore := hholding.kept.index
  rw [hafter] at hindex
  rcases Mmu.mmuClonePagedir_cases Mmu.halting_spends hcall with hlt | ⟨hzero, _, _⟩
  · simp only at hlt
    omega
  · rcases hholding.sane.space.refused_of_clone hcall hzero (by omega) with hempty | hwindow
    · exact .inl (hbefore.symm.trans hempty)
    · exact .inr ((hholding.kept.entries _).symm.trans hwindow)

theorem takeStack_split {t : Taken} (hr : takeStack im fuel halting program σ = some (t, σ')) :
    ∃ x σ₁, takePagedir im fuel halting σ = some (x, σ₁) ∧
      σ'.mmu.framesIndex ≤ σ₁.mmu.framesIndex := by
  have hspends := Mmu.halting_spends
  simp only [takeStack, takeTcb, takeStartData, Option.bind_eq_bind, Option.bind_assoc,
    Option.bind_some, Option.bind_eq_some_iff, Option.some.injEq, Prod.mk.injEq] at hr
  obtain ⟨⟨x, σ₁⟩, htake, σ₂, hpagedir, ⟨psd, σ₃⟩, hpsd, σ₄, hfirst, σ₅, hsecond, ⟨tcb, σ₆⟩, htcb,
    ⟨pd, σ₇⟩, hload, σ₈, hmemset, ⟨kstack, σ₉⟩, hkstack, _, hr⟩ := hr
  have hle₂ := (store_tame hspends _ _ _).le hpagedir
  have hle₃ := (kmalloc_tame hspends _ _).le hpsd
  have hle₄ := (store_tame hspends _ _ _).le hfirst
  have hle₅ := (store_tame hspends _ _ _).le hsecond
  have hle₆ := (kmalloc_tame hspends _ _).le htcb
  have hle₇ := (load_tame hspends _ _).le hload
  have hle₈ := (memset_tame hspends _ _ _).le hmemset
  have hle₉ := (kmalloc_tame hspends _ _).le hkstack
  refine ⟨x, σ₁, htake, ?_⟩
  rw [← hr]
  simp only at *
  omega

theorem takeStack_holding (h : Sane im role σ) (hrefused : Mmu.CloneRefused σ.mmu) {t : Taken}
    (hr : takeStack im fuel halting program σ = some (t, σ')) :
    Holding im role σ σ' [t.kstack, t.tcb, t.psd, t.process] := by
  simp only [takeStack, takeTcb, takeStartData, takePagedir, Option.bind_eq_bind,
    Option.bind_assoc, Option.bind_some, Option.bind_eq_some_iff, Option.some.injEq,
    Prod.mk.injEq] at hr
  obtain ⟨⟨process, σ₁⟩, hprocess, σ₂, hzero, ⟨pagedir, σ₃⟩, hclone, σ₄, hpagedir, ⟨psd, σ₅⟩, hpsd,
    σ₆, hfirst, σ₇, hsecond, ⟨tcb, σ₈⟩, htcb, ⟨pd, σ₉⟩, hload, σ₁₀, hmemset, ⟨kstack, σ₁₁⟩, hkstack,
    ht, hr⟩ := hr
  have hholding₂ := ((Holding.refl h).kmalloc hprocess).memset hzero
  obtain ⟨_, hholding₃⟩ := hholding₂.clonePagedir hrefused hclone
  have hholding₅ := (hholding₃.store hpagedir).kmalloc hpsd
  have hholding₈ := ((hholding₅.store hfirst).store hsecond).kmalloc htcb
  have hholding₁₁ := ((hholding₈.load hload).memset hmemset).kmalloc hkstack
  rw [← ht, ← hr]
  exact hholding₁₁

theorem processCreate_eq (im : Image) (fuel : Nat) (fault : Fault) (program priority : Nat)
    (σ : System) :
    processCreate im fuel fault program priority σ =
      (takeStack im fuel fault program σ).bind fun r =>
        if r.1.kstack = 0 then undo im fault r.1 r.2 else finish im fault priority r.1 r.2 := by
  simp only [processCreate, takeStack, takeTcb, takeStartData, takePagedir, tcbInit,
    Option.bind_eq_bind, Option.bind_assoc, Option.bind_some]
  -- The eleven calls up to the kernel stack are the same.
  iterate 11 (apply Option.bind_congr; intro _ _)
  split
  · rfl
  · rw [Option.bind_assoc]
    rfl

theorem finish_counter {fault : Fault} {t : Taken} {r : Nat × System}
    (hr : finish im fault priority t σ = some r) :
    r.2.nextProcessId = σ.nextProcessId + 1 := by
  have hstore : ∀ {addr w : Nat} {σ₁ σ₂ : System}, store fault addr w σ₁ = some σ₂ →
      σ₂.nextProcessId = σ₁.nextProcessId := by
    intro addr w σ₁ σ₂ h
    simp only [store, Option.bind_eq_bind, Option.bind_eq_some_iff, Option.some.injEq] at h
    obtain ⟨_, _, h⟩ := h
    rw [← h]
  have hstoreAll : ∀ (words : List (Nat × Nat)) {σ₁ σ₂ : System},
      storeAll fault words σ₁ = some σ₂ → σ₂.nextProcessId = σ₁.nextProcessId := by
    intro words
    induction words with
    | nil => exact fun h => congrArg System.nextProcessId (Option.some.inj h).symm
    | cons word words ih =>
      intro σ₁ σ₂ h
      simp only [storeAll, Option.bind_eq_bind, Option.bind_eq_some_iff] at h
      obtain ⟨σ₃, hfirst, h⟩ := h
      exact (ih h).trans (hstore hfirst)
  simp only [finish, load, Option.bind_eq_bind, Option.bind_assoc, Option.bind_some,
    Option.bind_eq_some_iff, Option.some.injEq] at hr
  obtain ⟨σ₁, hwords, σ₂, hpid, σ₃, hthread, s, _, hr⟩ := hr
  have hcounter₁ := hstoreAll _ hwords
  have hcounter₂ := hstore hpid
  have hcounter₃ := hstore hthread
  rw [← hr]
  exact (hcounter₃.trans hcounter₂).trans (congrArg (· + 1) hcounter₁)

/-- Without a page directory the three blocks are all there is to give back, whatever the
handler. -/
theorem leaves_nothing_of_refused (fault : Fault) (h : Sane im role σ)
    (hstack : StackGivesUp im fuel program σ)
    (hrefused : Mmu.CloneRefused σ.mmu) :
    LeavesNothing im σ (processCreate im fuel fault program priority σ) := by
  obtain ⟨t, σ₁, htake, hzero⟩ := hstack
  have hholding₁ := (takeStack_holding h hrefused htake).null hzero
  obtain ⟨σ₂, htcb, hholding₂⟩ := hholding₁.kfree fault
  obtain ⟨σ₃, hpsd, hholding₃⟩ := hholding₂.kfree fault
  obtain ⟨σ₄, hprocess, hholding₄⟩ := hholding₃.kfree fault
  refine ⟨σ₄, ?_, hholding₄.kept.pool, hholding₄.live, hholding₄.counter, hholding₄.queues⟩
  have hhalting : Mmu.Within halting fault := fun _ _ _ hs => absurd hs (by simp [halting])
  have htake' : takeStack im fuel fault program σ = some (t, σ₁) :=
    takeStack_steady hhalting σ program _ htake
  rw [processCreate_eq, htake', Option.bind_some, if_pos hzero]
  simp only [undo, htcb, hpsd, hprocess, Option.bind_eq_bind, Option.bind_some]

/-- What leaves nothing behind has taken no frame, and has not come to a process. -/
theorem refused_of_leaves_nothing {fault : Fault} (hspends : Mmu.Spends fault) (h : Sane im role σ)
    (hleaves : LeavesNothing im σ (processCreate im fuel fault program priority σ)) :
    StackGivesUp im fuel program σ ∧ Mmu.CloneRefused σ.mmu := by
  obtain ⟨σ', hr, hpool, _, hcounter, _⟩ := hleaves
  have hindex : σ'.mmu.framesIndex = σ.mmu.framesIndex := by
    have hlength := congrArg List.length hpool
    unfold Mmu.pool at hlength
    rw [List.length_map, List.length_map, List.length_range, List.length_range] at hlength
    exact hlength
  rw [processCreate_eq, Option.bind_eq_some_iff] at hr
  obtain ⟨⟨t, σ₁⟩, htake, htail⟩ := hr
  have hle₁ : σ'.mmu.framesIndex ≤ σ₁.mmu.framesIndex := by
    simp only at htail
    split at htail
    · exact (undo_tame hspends σ₁ t).le htail
    · exact (finish_tame hspends σ₁ priority t).le htail
  have htake₀ := (takeStack_frugal hspends σ program).not_called htake
    (by simp only; omega)
  obtain ⟨x, σ₂, hpagedir, hle₂⟩ := takeStack_split htake₀
  have hrefused := refused_of_take h hpagedir (by omega)
  refine ⟨⟨t, σ₁, htake₀, ?_⟩, hrefused⟩
  cases Nat.decEq t.kstack 0 with
  | isTrue hzero => exact hzero
  | isFalse hne =>
    have hold := (takeStack_holding h hrefused htake₀).counter
    simp only [if_neg hne] at htail
    have hnext := finish_counter htail
    rw [hcounter, hold] at hnext
    exact absurd hnext.symm (by simp)

/-- Where it returns, the call has met no page fault with the pool empty: it has the same result
with a handler that has none there. -/
def FaultsFed (im : Image) (depth fuel program priority : Nat) (σ : System) : Prop :=
  ∀ r, processCreate im fuel (Mmu.pageFault im.kernel depth) program priority σ = some r →
    processCreate im fuel (Mmu.pageFaultFed im.kernel depth) program priority σ = some r

/-- A failed creation leaves nothing behind where the kernel stack is all that is missing besides
the page directory, and not otherwise, as long as the page faults find a frame. -/
theorem process_create_leaves_nothing_iff (h : Sane im role σ) (depth fuel program priority : Nat) :
    ((∀ point, ¬ FailsAt im fuel (Mmu.pageFault im.kernel depth) program σ point) ∨
        StackGivesUp im fuel program σ ∧ Mmu.CloneRefused σ.mmu →
      ∀ point, FailsAt im fuel (Mmu.pageFault im.kernel depth) program σ point →
        LeavesNothing im σ
          (processCreate im fuel (Mmu.pageFault im.kernel depth) program priority σ)) ∧
    (FaultsFed im depth fuel program priority σ →
      (∀ point, FailsAt im fuel (Mmu.pageFault im.kernel depth) program σ point →
        LeavesNothing im σ
          (processCreate im fuel (Mmu.pageFault im.kernel depth) program priority σ)) →
      (∀ point, ¬ FailsAt im fuel (Mmu.pageFault im.kernel depth) program σ point) ∨
        StackGivesUp im fuel program σ ∧ Mmu.CloneRefused σ.mmu) := by
  constructor
  · rintro (hnone | ⟨hstack, hrefused⟩) point hfails
    · exact absurd hfails (hnone point)
    · exact leaves_nothing_of_refused _ h hstack hrefused
  · intro hfed hclaim
    cases Classical.em (∀ point,
        ¬ FailsAt im fuel (Mmu.pageFault im.kernel depth) program σ point) with
    | inl hnone => exact .inl hnone
    | inr hsome =>
      right
      obtain ⟨point, hfails⟩ := not_forall_not.1 hsome
      obtain ⟨σ', hr, hleft⟩ := hclaim point hfails
      exact refused_of_leaves_nothing (Mmu.pageFaultFed_spends im.kernel depth) h
        ⟨σ', hfed _ hr, hleft⟩

end Create

/-! ### The small machine -/

def smallNode : Kmalloc.FreeList → Nat
  | .f64 => 0xF0105004
  | .f512 => 0xF0105014
  | .f1024 => 0xF0105024
  | .large => 0xF0105034

theorem smallNode_pos (c : Kmalloc.FreeList) : 0 < smallNode c := by
  cases c <;> exact Nat.succ_pos _

theorem smallNode_below (c : Kmalloc.FreeList) : smallNode c + 8 ≤ 0xF0106000 := by
  cases c <;> simp [smallNode]

theorem smallNode_apart (c d : Kmalloc.FreeList) (h : c ≠ d) :
    Apart (smallNode c) 8 (smallNode d) 8 := by
  cases c <;> cases d <;> simp [Apart, smallNode] at h ⊢

def smallImage : Image where
  layout := {
    kernelEnd := 0xF0106000
    node := smallNode
    aligned := by omega
    node_pos := smallNode_pos
    node_below := smallNode_below
    node_apart := smallNode_apart
    fits := by omega }
  kernel := Mmu.smallKernel
  same := rfl
  startfunc := 0xF0101000
  exitfunc := 0xF0101100

/-- After `mmu_init` with four frames. -/
def smallSystem : System where
  heap := { mem := fun _ => 0, heap := Kmalloc.kheap smallImage.layout, mapped := [] }
  live := []
  mmu := Mmu.smallStart
  scheduler := Scheduler.schedulerInit
  nextProcessId := 1

def smallFault : Fault := Mmu.pageFault Mmu.smallKernel 4

/-- A block of four pages is allocated, used and freed: its pages are the four frames. -/
def usedUp : Option System := do
  let (p, σ) ← kmalloc smallImage 4 smallFault 16000 smallSystem
  let σ ← storeAll smallFault [(p, 1), (p + 4096, 1), (p + 8192, 1), (p + 12288, 1)] σ
  kfree smallImage smallFault p σ

/-- The pool is empty and the page directory is refused, and a process is created all the same. -/
theorem process_created_without_directory : ∃ σ, usedUp = some σ ∧
    FailsAt smallImage 4 smallFault 0xF0102000 σ .pagedir ∧
    ¬ LeavesNothing smallImage σ (processCreate smallImage 4 smallFault 0xF0102000 1 σ) := by
  have htake : (usedUp.bind fun σ => (takePagedir smallImage 4 smallFault σ).map Prod.fst) =
      some (4027625120, 0#32) := by decide +kernel
  have hcreate : (usedUp.bind fun σ =>
      (processCreate smallImage 4 smallFault 0xF0102000 1 σ).map Prod.fst) = some 4027625120 := by
    decide +kernel
  obtain ⟨σ, hσ, htaken⟩ := Option.bind_eq_some_iff.1 htake
  obtain ⟨r, hr, hpagedir⟩ := Option.map_eq_some_iff.1 htaken
  rw [hσ, Option.bind_some] at hcreate
  refine ⟨σ, hσ, ⟨4027625120, r.2, ?_⟩, ?_⟩
  · rw [hr, ← hpagedir]
  · intro hleaves
    obtain ⟨σ', hnull, _⟩ := hleaves
    rw [hnull] at hcreate
    exact absurd hcreate (by simp)

/-- The only frame of the RAM is behind the first page of the heap. -/
def fullMark : Bool × Mmu.State :=
  (Mmu.mmuMark (Mmu.pageFaultFed Mmu.smallKernel 4) 0xF0107000 0#32 0#32 Mmu.scarceStart).get
    (by decide +kernel)

def fullFetched : Mmu.State :=
  (Mmu.pageFaultFed Mmu.smallKernel 4 0xF0107000 fullMark.2).get (by decide +kernel)

theorem fullFetched_space : ∃ role, ActiveSpace Mmu.smallKernel role fullFetched := by
  have hinit : Mmu.smallInit [Mmu.smallRam 1] = some Mmu.scarceStart := (Option.some_get _).symm
  obtain ⟨ptIndex, hfilling, hlow⟩ := Mmu.mmuInit_filling (by decide +kernel) hinit
  have hmarked : Mmu.mmuMark (Mmu.pageFaultFed Mmu.smallKernel 4) 0xF0107000 0#32 0#32
      Mmu.scarceStart = some fullMark := (Option.some_get _).symm
  have hmark : Mmu.Spaces.Step Mmu.smallKernel (Mmu.pageFaultFed Mmu.smallKernel)
      (Mmu.Spaces.start Mmu.smallKernel Mmu.scarceStart) (.mark 0xF0107000 0#32 0#32)
      { Mmu.Spaces.start Mmu.smallKernel Mmu.scarceStart with state := fullMark.2 } := by
    rw [← Mmu.afterMark_demand (Mmu.Spaces.start Mmu.smallKernel Mmu.scarceStart)
      0xF0107000 fullMark
      (show 0#32 &&& Mmu.mmuPageNoalloc = 0#32 from by decide)]
    exact .mark hmarked
  have hfault : Mmu.Spaces.Step Mmu.smallKernel (Mmu.pageFaultFed Mmu.smallKernel)
      { Mmu.Spaces.start Mmu.smallKernel Mmu.scarceStart with state := fullMark.2 }
      (.fault 0xF0107000)
      { Mmu.Spaces.start Mmu.smallKernel Mmu.scarceStart with state := fullFetched } :=
    .fault (by decide +kernel) (Option.some_get _).symm
  have hbelow : Mmu.Spaces.Below Mmu.smallKernel 0xF0107000 :=
    ⟨by decide, by simp [Mmu.imagePage, Mmu.smallKernel]⟩
  obtain ⟨role, hroles⟩ := Mmu.reachable_roles
    ⟨[.mark 0xF0107000 0#32 0#32, .fault 0xF0107000],
      .cons ⟨⟨hbelow, fun hflag => absurd (by decide) hflag⟩, hmark⟩
        (.single ⟨by simp [Mmu.Spaces.Allowed], hfault⟩)⟩
    (hfilling.start_roles Mmu.usableFrames_poolFrame (by decide +kernel) hlow (fun _ => True)
      fun _ _ => True.intro)
  exact ⟨role, hroles.activeSpace (by decide +kernel)⟩

/-- The heap is used up but for three blocks on its first page, two of 64 bytes and one of 512. -/
def fullHeap : Kmalloc.Kernel where
  mem := [(0xF0105004, 0xF0107000), (0xF0107000, 0xF0107040), (0xF0107004, 64), (0xF0107044, 64),
    (0xF0105014, 0xF0107080), (0xF0107084, 512)].foldl (fun m w => write32 m w.1 w.2) fun _ => 0
  heap := { Kmalloc.kheap smallImage.layout with ptr := 1024 * 1024 * 16 - 16 }
  mapped := []

def fullSystem : System where
  heap := fullHeap
  live := [0xF0107290]
  mmu := fullFetched
  scheduler := Scheduler.schedulerInit
  nextProcessId := 1

/-- Neither a page directory nor a kernel stack is to be had, and the three blocks are given
back. -/
theorem process_create_leaves_nothing_small :
    FailsAt smallImage 4 smallFault 0xF0102000 fullSystem .kstack ∧
      LeavesNothing smallImage fullSystem
        (processCreate smallImage 4 smallFault 0xF0102000 1 fullSystem) := by
  have hkstack : ((takeStack smallImage 4 halting 0xF0102000 fullSystem).map fun r => r.1.kstack) =
      some 0 := by decide +kernel
  obtain ⟨⟨t, σ⟩, htake, hzero⟩ := Option.map_eq_some_iff.1 hkstack
  have hstack : StackGivesUp smallImage 4 0xF0102000 fullSystem := ⟨t, σ, htake, hzero⟩
  have hhalting : Mmu.Within halting smallFault := fun _ _ _ hs => absurd hs (by simp [halting])
  have hfails : FailsAt smallImage 4 smallFault 0xF0102000 fullSystem .kstack :=
    ⟨t, σ, takeStack_steady hhalting fullSystem 0xF0102000 _ htake, hzero⟩
  have hrefused : Mmu.CloneRefused fullSystem.mmu := .inl (by decide +kernel)
  have hframes : 0#32 ∉ Mmu.pool smallImage.kernel fullSystem.mmu := by decide +kernel
  obtain ⟨role, hspace⟩ := fullFetched_space
  exact ⟨hfails, (process_create_leaves_nothing_iff ⟨hspace, hframes, rfl⟩ 4 4 0xF0102000 1).1
    (.inr ⟨hstack, hrefused⟩) .kstack hfails⟩

end OsdevCourse.ProcessFailure
