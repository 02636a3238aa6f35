import OsdevCourse.I686

/-!
# The context switch of `scheduler_yield`, and the stack that `tcb_init` builds

`scheduler_yield` is taken apart at its call of `scheduler_pick`: `saveContext` is what comes
before the call, and `loadContext` what comes after it, instruction by instruction. The
`call` of `kernel.inc` is a macro that adds the size of its arguments, here none, to `esp`.
-/

namespace OsdevCourse.ContextSwitch

set_option autoImplicit false

open I686

/-- The addresses of `g_scheduler.current` and of the `esp0` of the TSS. -/
structure Kernel where
  current : UInt32
  tssEsp0 : UInt32
  schedulerPick : UInt32
  back : UInt32

/-- The words of `TCB_CONTEXT`. -/
inductive Field where
  | eax | ebx | ecx | edx | ebp | esp | esi | edi | eflags | esp0 | pagedir
  deriving DecidableEq, Repr

def Field.offset : Field → Nat
  | eax => 0
  | ebx => 4
  | ecx => 8
  | edx => 12
  | ebp => 16
  | esp => 20
  | esi => 24
  | edi => 28
  | eflags => 32
  | esp0 => 36
  | pagedir => 40

def contextSize : Nat := 44
def tcbSize : Nat := 84

/-- The address of a word of the context of a TCB. -/
def slot (tcb : UInt32) (f : Field) : UInt32 := tcb + UInt32.ofNat f.offset

def contextAt (m : Memory) (tcb : UInt32) (f : Field) : UInt32 := load m (slot tcb f)

/-- `scheduler_yield` up to its call of `scheduler_pick`. -/
def saveContext (k : Kernel) (σ : Cpu) : Cpu :=
  let σ := σ.pushf
  let σ := σ.cli
  let σ := σ.push (σ.reg .esi)
  let σ := σ.movLoad .esi k.current
  let σ := σ.movStore (slot (σ.reg .esi) .eax) (σ.reg .eax)
  let σ := σ.movStore (slot (σ.reg .esi) .ebx) (σ.reg .ebx)
  let σ := σ.movStore (slot (σ.reg .esi) .ecx) (σ.reg .ecx)
  let σ := σ.movStore (slot (σ.reg .esi) .edx) (σ.reg .edx)
  let σ := σ.pop .eax
  let σ := σ.pop .ebx
  let σ := σ.movStore (slot (σ.reg .esi) .ebp) (σ.reg .ebp)
  let σ := σ.movStore (slot (σ.reg .esi) .esp) (σ.reg .esp)
  let σ := σ.movStore (slot (σ.reg .esi) .esi) (σ.reg .eax)
  let σ := σ.movStore (slot (σ.reg .esi) .edi) (σ.reg .edi)
  let σ := σ.movStore (slot (σ.reg .esi) .eflags) (σ.reg .ebx)
  σ.call k.schedulerPick k.back

/-- `scheduler_yield` from the return of `scheduler_pick` on. -/
def loadContext (k : Kernel) (σ : Cpu) : Cpu :=
  let σ := σ.addZero .esp
  let σ := σ.movStore k.current (σ.reg .eax)
  let σ := σ.movLoad .ebx (slot (σ.reg .eax) .pagedir)
  let σ := σ.orSelf .ebx
  let σ := if σ.zero then σ else σ.movCr3 (σ.reg .ebx)
  let σ := σ.movLoad .ebx (slot (σ.reg .eax) .eflags)
  let σ := σ.movLoad .ecx (slot (σ.reg .eax) .esp0)
  let σ := σ.movLoad .ebp (slot (σ.reg .eax) .ebp)
  let σ := σ.movLoad .esp (slot (σ.reg .eax) .esp)
  let σ := σ.movStore k.tssEsp0 (σ.reg .ecx)
  let σ := σ.movLoad .esi (slot (σ.reg .eax) .esi)
  let σ := σ.movLoad .edi (slot (σ.reg .eax) .edi)
  let σ := σ.push (σ.reg .ebx)
  let σ := σ.movLoad .ebx (slot (σ.reg .eax) .ebx)
  let σ := σ.movLoad .ecx (slot (σ.reg .eax) .ecx)
  let σ := σ.movLoad .edx (slot (σ.reg .eax) .edx)
  let σ := σ.movLoad .eax (slot (σ.reg .eax) .eax)
  let σ := σ.popf
  σ.ret

structure TcbArgs where
  process : UInt32
  pagedir : UInt32
  priority : UInt32
  quantum : UInt32
  kstackSize : UInt32
  startfunc : UInt32
  exitfunc : UInt32
  ud : UInt32

/-- `tcb_init`; the stack is what `kmalloc` returns, or NULL. -/
def tcbInit (m : Memory) (tcb : UInt32) (args : TcbArgs) (kstack : Option UInt32) : Bool × Memory :=
  let m := m.writeBytes tcb.toNat (List.replicate tcbSize 0)
  match kstack with
  | none => (false, m)
  | some kstack =>
    let esp := kstack + args.kstackSize
    let esp := esp - UInt32.ofNat 4
    let m := store m esp args.ud
    let esp := esp - UInt32.ofNat 4
    let m := store m esp args.ud
    let esp := esp - UInt32.ofNat 4
    let m := store m esp args.exitfunc
    let esp := esp - UInt32.ofNat 4
    let m := store m esp args.startfunc
    let m := store m (slot tcb .pagedir) args.pagedir
    let m := store m (slot tcb .eflags) 0x202
    let m := store m (slot tcb .esp) esp
    let m := store m (slot tcb .esp0) (contextAt m tcb .esp - UInt32.ofNat 32)
    let m := store m (tcb + UInt32.ofNat 72) args.process
    let m := store m (tcb + UInt32.ofNat 44) kstack
    let m := store m (tcb + UInt32.ofNat 60) args.priority
    let m := store m (tcb + UInt32.ofNat 56) args.quantum
    let m := store m (tcb + UInt32.ofNat 48) 0
    let m := store m (tcb + UInt32.ofNat 76) 0
    let m := store m (tcb + UInt32.ofNat 80) 0
    (true, m)

section Slots
variable {m m' : Memory} {t a v : UInt32} {f g : Field} {n : Nat}

theorem offset_lt (f : Field) : f.offset + 4 ≤ contextSize := by
  cases f <;> decide

theorem offset_apart (h : f ≠ g) : f.offset + 4 ≤ g.offset ∨ g.offset + 4 ≤ f.offset := by
  revert h
  cases f <;> cases g <;> decide

theorem slot_toNat (ht : t.toNat + contextSize ≤ 2 ^ 32) (f : Field) :
    (slot t f).toNat = t.toNat + f.offset := by
  have hlt := offset_lt f
  exact toNat_add_offset (by omega)

theorem contextAt_congr (ht : t.toNat + contextSize ≤ 2 ^ 32)
    (h : ∀ n, t.toNat ≤ n → n < t.toNat + contextSize → m' n = m n) :
    contextAt m' t = contextAt m t := by
  funext f
  have hlt := offset_lt f
  have hslot := slot_toNat ht f
  apply load_congr
  intro n hlo hhi
  exact h n (by omega) (by omega)

theorem store_slot_out (ht : t.toNat + contextSize ≤ 2 ^ 32)
    (h : n < t.toNat ∨ t.toNat + contextSize ≤ n) : store m (slot t f) v n = m n := by
  have hlt := offset_lt f
  have hslot := slot_toNat ht f
  apply store_out
  omega

theorem contextAt_store_slot (ht : t.toNat + contextSize ≤ 2 ^ 32) :
    contextAt (store m (slot t f) v) t g = if g = f then v else contextAt m t g := by
  unfold contextAt
  by_cases h : g = f
  · subst h
    rw [if_pos rfl]
    exact load_store_self
  · have hf := slot_toNat ht f
    have hg := slot_toNat ht g
    have hapart := offset_apart h
    rw [if_neg h]
    apply load_store_of_disjoint
    omega

theorem contextAt_store_out (ht : t.toNat + contextSize ≤ 2 ^ 32)
    (h : a.toNat + 4 ≤ t.toNat ∨ t.toNat + contextSize ≤ a.toNat) :
    contextAt (store m a v) t = contextAt m t := by
  apply contextAt_congr ht
  intro n hlo hhi
  apply store_out
  omega

theorem load_store_slot (ht : t.toNat + contextSize ≤ 2 ^ 32)
    (h : a.toNat + 4 ≤ t.toNat ∨ t.toNat + contextSize ≤ a.toNat) :
    load (store m (slot t f) v) a = load m a := by
  have hlt := offset_lt f
  have hslot := slot_toNat ht f
  apply load_store_of_disjoint
  omega

end Slots

/-! What is saved. -/

/-- The context of a thread that enters `scheduler_yield`. -/
def entryContext (σ : Cpu) (t : UInt32) : Field → UInt32
  | .eax => σ.reg .eax
  | .ebx => σ.reg .ebx
  | .ecx => σ.reg .ecx
  | .edx => σ.reg .edx
  | .ebp => σ.reg .ebp
  | .esp => σ.reg .esp
  | .esi => σ.reg .esi
  | .edi => σ.reg .edi
  | .eflags => σ.eflags.image
  | .esp0 => contextAt σ.mem t .esp0
  | .pagedir => contextAt σ.mem t .pagedir

/-- A thread calls `scheduler_yield` on its own stack, with room below its return address. -/
structure Entry (k : Kernel) (σ : Cpu) (t : UInt32) : Prop where
  current : load σ.mem k.current = t
  context : t.toNat + contextSize ≤ 2 ^ 32
  room : 8 ≤ (σ.reg .esp).toNat
  apart : t.toNat + contextSize ≤ (σ.reg .esp).toNat - 8 ∨ (σ.reg .esp).toNat ≤ t.toNat
  currentApart : k.current.toNat + 4 ≤ (σ.reg .esp).toNat - 8 ∨ (σ.reg .esp).toNat ≤ k.current.toNat

/-- The memory after the two pushes of `scheduler_yield`. -/
def pushes (σ : Cpu) : Memory :=
  store (store σ.mem (σ.reg .esp - UInt32.ofNat 4) σ.eflags.pushed)
    (σ.reg .esp - UInt32.ofNat 4 - UInt32.ofNat 4) (σ.reg .esi)

/-- The context stored in the order of `scheduler_yield`. -/
def storeContext (m : Memory) (t : UInt32) (c : Field → UInt32) : Memory :=
  [Field.eax, .ebx, .ecx, .edx, .ebp, .esp, .esi, .edi, .eflags].foldl
    (fun m f => store m (slot t f) (c f)) m

section Save
variable {k : Kernel} {σ : Cpu} {t : UInt32}

theorem Entry.top (h : Entry k σ t) : (σ.reg .esp - UInt32.ofNat 4).toNat =
    (σ.reg .esp).toNat - 4 := by
  have hroom := h.room
  exact toNat_sub_offset (by omega)

theorem Entry.top₂ (h : Entry k σ t) :
    (σ.reg .esp - UInt32.ofNat 4 - UInt32.ofNat 4).toNat = (σ.reg .esp).toNat - 8 := by
  have hroom := h.room
  have htop := h.top
  rw [toNat_sub_offset (by omega), htop]
  omega

theorem Entry.pushes_out (h : Entry k σ t) {n : Nat}
    (hn : n < (σ.reg .esp).toNat - 8 ∨ (σ.reg .esp).toNat ≤ n) : pushes σ n = σ.mem n := by
  have hroom := h.room
  have htop := h.top
  have htop₂ := h.top₂
  unfold pushes
  rw [store_out (by omega), store_out (by omega)]

theorem Entry.pushes_current (h : Entry k σ t) : load (pushes σ) k.current = t := by
  rw [← h.current]
  apply load_congr
  intro n hlo hhi
  have hapart := h.currentApart
  apply h.pushes_out
  omega

theorem Entry.contextAt_pushes (h : Entry k σ t) : contextAt (pushes σ) t = contextAt σ.mem t := by
  apply contextAt_congr h.context
  intro n hlo hhi
  have hapart := h.apart
  apply h.pushes_out
  omega

theorem Entry.pop_esi (h : Entry k σ t) {m : Memory}
    (hm : ∀ a : UInt32, (σ.reg .esp).toNat - 8 ≤ a.toNat → a.toNat + 4 ≤ (σ.reg .esp).toNat →
      load m a = load (pushes σ) a) :
    load m (σ.reg .esp - UInt32.ofNat 4 - UInt32.ofNat 4) = σ.reg .esi := by
  have hroom := h.room
  have htop₂ := h.top₂
  rw [hm _ (by omega) (by omega)]
  exact load_store_self

theorem Entry.pop_eflags (h : Entry k σ t) {m : Memory}
    (hm : ∀ a : UInt32, (σ.reg .esp).toNat - 8 ≤ a.toNat → a.toNat + 4 ≤ (σ.reg .esp).toNat →
      load m a = load (pushes σ) a) :
    load m (σ.reg .esp - UInt32.ofNat 4) = σ.eflags.image := by
  have hroom := h.room
  have htop := h.top
  have htop₂ := h.top₂
  rw [hm _ (by omega) (by omega), ← σ.eflags.pushed_eq]
  unfold pushes
  rw [load_store_of_disjoint (by omega)]
  exact load_store_self

/-- The stores into the context do not reach the two words that are popped. -/
theorem Entry.load_store_slot (h : Entry k σ t) {m : Memory} {a v : UInt32} {f : Field}
    (hlo : (σ.reg .esp).toNat - 8 ≤ a.toNat) (hhi : a.toNat + 4 ≤ (σ.reg .esp).toNat) :
    load (store m (slot t f) v) a = load m a := by
  have hapart := h.apart
  exact ContextSwitch.load_store_slot h.context (by omega)

theorem saveContext_eq (h : Entry k σ t) : saveContext k σ =
    { reg := fun r => if r = .esp then σ.reg .esp - UInt32.ofNat 4
        else if r = .eax then σ.reg .esi else if r = .ebx then σ.eflags.image
        else if r = .esi then t else σ.reg r,
      eflags := σ.eflags.clearInterrupts, eip := k.schedulerPick, cr3 := σ.cr3,
      mem := store (storeContext (pushes σ) t (entryContext σ t))
          (σ.reg .esp - UInt32.ofNat 4) k.back } := by
  have hcurrent := h.pushes_current
  have hesi := h.pop_esi (m := [Field.eax, .ebx, .ecx, .edx].foldl
    (fun m f => store m (slot t f) (entryContext σ t f)) (pushes σ)) fun a hlo hhi => by
      simp only [List.foldl_cons, List.foldl_nil, h.load_store_slot hlo hhi]
  have heflags := h.pop_eflags (m := [Field.eax, .ebx, .ecx, .edx].foldl
    (fun m f => store m (slot t f) (entryContext σ t f)) (pushes σ)) fun a hlo hhi => by
      simp only [List.foldl_cons, List.foldl_nil, h.load_store_slot hlo hhi]
  have hpop : σ.reg .esp - UInt32.ofNat 4 - UInt32.ofNat 4 + UInt32.ofNat 4 =
      σ.reg .esp - UInt32.ofNat 4 :=
    UInt32.sub_add_cancel _ _
  have hpop₂ : σ.reg .esp - UInt32.ofNat 4 + UInt32.ofNat 4 = σ.reg .esp :=
    UInt32.sub_add_cancel _ _
  simp only [List.foldl_cons, List.foldl_nil, entryContext, pushes] at hcurrent hesi heflags
  simp only [saveContext, Cpu.pushf, Cpu.cli, Cpu.push, Cpu.movLoad, Cpu.movStore,
    Cpu.pop, Cpu.call,
    Cpu.set, reduceCtorEq, if_true, if_false, hcurrent, hpop, hpop₂, hesi, heflags, Cpu.mk.injEq,
    storeContext, List.foldl_cons, List.foldl_nil, entryContext, pushes, and_true]
  funext r
  cases r <;> simp only [reduceCtorEq, if_true, if_false]

theorem contextAt_storeContext {m : Memory} {c : Field → UInt32}
    (ht : t.toNat + contextSize ≤ 2 ^ 32)
    (f : Field) : contextAt (storeContext m t c) t f =
      if f = .esp0 ∨ f = .pagedir then contextAt m t f else c f := by
  simp only [storeContext, List.foldl_cons, List.foldl_nil, contextAt_store_slot ht]
  cases f <;> simp only [reduceCtorEq, if_true, if_false, or_true, or_false]

theorem storeContext_out {m : Memory} {c : Field → UInt32}
    (ht : t.toNat + contextSize ≤ 2 ^ 32) {n : Nat}
    (hn : n < t.toNat ∨ t.toNat + contextSize ≤ n) : storeContext m t c n = m n := by
  simp only [storeContext, List.foldl_cons, List.foldl_nil, store_slot_out ht hn]

theorem Entry.saved (h : Entry k σ t) : contextAt (saveContext k σ).mem t = entryContext σ t := by
  have htop := h.top
  have hroom := h.room
  have hapart := h.apart
  rw [saveContext_eq h]
  simp only
  rw [contextAt_store_out h.context (by omega)]
  funext f
  rw [contextAt_storeContext h.context, h.contextAt_pushes]
  cases f <;> simp only [reduceCtorEq, if_true, if_false, or_true, or_false, entryContext]

theorem Entry.saved_out (h : Entry k σ t) {n : Nat}
    (hstack : n < (σ.reg .esp).toNat - 8 ∨ (σ.reg .esp).toNat ≤ n)
    (hcontext : n < t.toNat ∨ t.toNat + contextSize ≤ n) : (saveContext k σ).mem n = σ.mem n := by
  have htop := h.top
  have hroom := h.room
  rw [saveContext_eq h]
  simp only
  rw [store_out (by omega), storeContext_out h.context hcontext, h.pushes_out hstack]

end Save

/-! What is loaded. -/

/-- `scheduler_pick` returned a TCB whose stack pointer has room below it. -/
structure Exit (k : Kernel) (σ : Cpu) (t : UInt32) : Prop where
  target : σ.reg .eax = t
  context : t.toNat + contextSize ≤ 2 ^ 32
  room : 4 ≤ (contextAt σ.mem t .esp).toNat
  bound : (contextAt σ.mem t .esp).toNat + 4 ≤ 2 ^ 32
  apart : t.toNat + contextSize ≤ (contextAt σ.mem t .esp).toNat - 4 ∨
    (contextAt σ.mem t .esp).toNat + 4 ≤ t.toNat
  current : k.current.toNat + 4 ≤ t.toNat ∨ t.toNat + contextSize ≤ k.current.toNat
  tssEsp0 : k.tssEsp0.toNat + 4 ≤ t.toNat ∨ t.toNat + contextSize ≤ k.tssEsp0.toNat
  currentApart : k.current.toNat + 4 ≤ (contextAt σ.mem t .esp).toNat - 4 ∨
    (contextAt σ.mem t .esp).toNat + 4 ≤ k.current.toNat
  tssApart : k.tssEsp0.toNat + 4 ≤ (contextAt σ.mem t .esp).toNat - 4 ∨
    (contextAt σ.mem t .esp).toNat + 4 ≤ k.tssEsp0.toNat

/-- The registers that a context holds, with the stack pointer after the return address. -/
def contextReg (c : Field → UInt32) : Reg → UInt32
  | .eax => c .eax
  | .ebx => c .ebx
  | .ecx => c .ecx
  | .edx => c .edx
  | .ebp => c .ebp
  | .esp => c .esp + UInt32.ofNat 4
  | .esi => c .esi
  | .edi => c .edi

/-- A page directory of 0 keeps the address space. -/
def switchedCr3 (cr3 pagedir : UInt32) : UInt32 := if pagedir = 0 then cr3 else pagedir

theorem movCr3_unless (σ : Cpu) (c : Bool) (v : UInt32) :
    (if c then σ else σ.movCr3 v) = { σ with cr3 := if c then σ.cr3 else v } := by
  cases c <;> rfl

section Load
variable {k : Kernel} {σ : Cpu} {t : UInt32}

theorem loadContext_eq (h : Exit k σ t) : loadContext k σ =
    { reg := contextReg (contextAt σ.mem t),
      eflags := .ofImage (contextAt σ.mem t .eflags),
      eip := load σ.mem (contextAt σ.mem t .esp),
      cr3 := switchedCr3 σ.cr3 (contextAt σ.mem t .pagedir),
      mem := store (store (store σ.mem k.current t) k.tssEsp0 (contextAt σ.mem t .esp0))
        (contextAt σ.mem t .esp - UInt32.ofNat 4) (contextAt σ.mem t .eflags) } := by
  have hroom := h.room
  have hbound := h.bound
  have hapart := h.apart
  have hcurrent := h.currentApart
  have htss := h.tssApart
  have htop : (contextAt σ.mem t .esp - UInt32.ofNat 4).toNat =
      (contextAt σ.mem t .esp).toNat - 4 :=
    toNat_sub_offset hroom
  have hfirst : contextAt (store σ.mem k.current t) t = contextAt σ.mem t :=
    contextAt_store_out h.context h.current
  have hsecond : contextAt (store (store σ.mem k.current t) k.tssEsp0 (contextAt σ.mem t .esp0)) t =
      contextAt σ.mem t := by
    rw [contextAt_store_out h.context h.tssEsp0, hfirst]
  have hthird :
    contextAt (store (store (store σ.mem k.current t) k.tssEsp0 (contextAt σ.mem t .esp0))
      (contextAt σ.mem t .esp - UInt32.ofNat 4) (contextAt σ.mem t .eflags)) t =
          contextAt σ.mem t := by
    rw [contextAt_store_out h.context (by omega), hsecond]
  have hback : load (store (store (store σ.mem k.current t) k.tssEsp0 (contextAt σ.mem t .esp0))
      (contextAt σ.mem t .esp - UInt32.ofNat 4) (contextAt σ.mem t .eflags))
      (contextAt σ.mem t .esp) = load σ.mem (contextAt σ.mem t .esp) := by
    rw [load_store_of_disjoint (by omega), load_store_of_disjoint (by omega),
      load_store_of_disjoint (by omega)]
  have hpop : contextAt σ.mem t .esp - UInt32.ofNat 4 + UInt32.ofNat 4 = contextAt σ.mem t .esp :=
    UInt32.sub_add_cancel _ _
  have hfold : ∀ m f, load m (slot t f) = contextAt m t f := fun _ _ => rfl
  simp only [loadContext, movCr3_unless, Cpu.zero_orSelf]
  simp only [Cpu.addZero, Cpu.orSelf, Cpu.push, Cpu.movLoad, Cpu.movStore, Cpu.popf,
    Cpu.ret, Cpu.set,
    reduceCtorEq, if_true, if_false, h.target, hfold, hfirst, hsecond, hthird, hpop, hback,
    load_store_self, Cpu.mk.injEq, and_true, decide_eq_true_eq, switchedCr3]
  funext r
  cases r <;> simp only [reduceCtorEq, if_true, if_false, contextReg]

end Load

/-! What `tcb_init` leaves for the first dispatch. -/

/-- The stack pointer after the four words that `tcb_init` puts on a new stack. -/
def firstEsp (kstack : UInt32) (args : TcbArgs) : UInt32 :=
  kstack + args.kstackSize - UInt32.ofNat 4 - UInt32.ofNat 4 - UInt32.ofNat 4 - UInt32.ofNat 4

def firstContext (kstack : UInt32) (args : TcbArgs) : Field → UInt32
  | .esp => firstEsp kstack args
  | .eflags => 0x202
  | .esp0 => firstEsp kstack args - UInt32.ofNat 32
  | .pagedir => args.pagedir
  | _ => 0

/-- The TCB and the stack that `kmalloc` returned do not overlap. -/
structure Fresh (tcb kstack : UInt32) (args : TcbArgs) : Prop where
  bound : tcb.toNat + tcbSize ≤ 2 ^ 32
  stack : kstack.toNat + args.kstackSize.toNat < 2 ^ 32
  size : 48 ≤ args.kstackSize.toNat
  apart : tcb.toNat + tcbSize ≤ kstack.toNat ∨ kstack.toNat + args.kstackSize.toNat ≤ tcb.toNat

section Init
variable {m : Memory} {tcb kstack : UInt32} {args : TcbArgs} {n k : Nat}

theorem Fresh.top (h : Fresh tcb kstack args) :
    (kstack + args.kstackSize).toNat = kstack.toNat + args.kstackSize.toNat := by
  have hstack := h.stack
  rw [UInt32.toNat_add]
  exact Nat.mod_eq_of_lt hstack

theorem Fresh.words (h : Fresh tcb kstack args) :
    (kstack + args.kstackSize - UInt32.ofNat 4).toNat =
      kstack.toNat + args.kstackSize.toNat - 4 ∧
    (kstack + args.kstackSize - UInt32.ofNat 4 - UInt32.ofNat 4).toNat =
      kstack.toNat + args.kstackSize.toNat - 8 ∧
    (kstack + args.kstackSize - UInt32.ofNat 4 - UInt32.ofNat 4 - UInt32.ofNat 4).toNat =
      kstack.toNat + args.kstackSize.toNat - 12 ∧
    (firstEsp kstack args).toNat = kstack.toNat + args.kstackSize.toNat - 16 := by
  have htop := h.top
  have hsize := h.size
  have hone := toNat_sub_offset (a := kstack + args.kstackSize) (k := 4) (by omega)
  have htwo := toNat_sub_offset (a := kstack + args.kstackSize - UInt32.ofNat 4) (k := 4) (by omega)
  have hthree := toNat_sub_offset (a := kstack + args.kstackSize - UInt32.ofNat 4 - UInt32.ofNat 4)
    (k := 4)
    (by omega)
  have hfour := toNat_sub_offset
    (a := kstack + args.kstackSize - UInt32.ofNat 4 - UInt32.ofNat 4 - UInt32.ofNat 4)
    (k := 4) (by omega)
  unfold firstEsp
  omega

theorem Fresh.context (h : Fresh tcb kstack args) : tcb.toNat + contextSize ≤ 2 ^ 32 := by
  have htcb := h.bound
  simp only [tcbSize, contextSize] at htcb ⊢
  omega

theorem contextAt_memset (h : Fresh tcb kstack args) (f : Field) :
    contextAt (m.writeBytes tcb.toNat (List.replicate tcbSize 0)) tcb f = 0 := by
  have hslot := slot_toNat h.context f
  have hlt := offset_lt f
  have hzero : ∀ i, i < tcbSize →
      m.writeBytes tcb.toNat (List.replicate tcbSize 0) (tcb.toNat + i) = 0 := by
    intro i hi
    rw [Memory.writeBytes_in (by simpa using hi), List.getD_eq_getElem?_getD,
      List.getElem?_replicate_of_lt hi]
    rfl
  have hbyte : ∀ i, i < 4 →
      m.writeBytes tcb.toNat (List.replicate tcbSize 0) (tcb.toNat + f.offset + i) = 0 := by
    intro i hi
    rw [Nat.add_assoc]
    apply hzero
    simp only [contextSize, tcbSize] at hlt ⊢
    omega
  unfold contextAt load Memory.read32
  rw [hslot, hbyte 1 (by omega), hbyte 2 (by omega), hbyte 3 (by omega),
    ← Nat.add_zero (tcb.toNat + f.offset),
    hbyte 0 (by omega)]
  rfl

theorem Fresh.field (h : Fresh tcb kstack args) (hk : k + 4 ≤ tcbSize) :
    (tcb + UInt32.ofNat k).toNat = tcb.toNat + k := by
  have htcb := h.bound
  exact toNat_add_offset (by omega)

/-- The words of the TCB that are no part of the context. -/
def storeFields (m : Memory) (tcb : UInt32) (values : List (Nat × UInt32)) : Memory :=
  values.foldl (fun m v => store m (tcb + UInt32.ofNat v.1) v.2) m

theorem storeFields_out (h : Fresh tcb kstack args) {values : List (Nat × UInt32)}
    (hvalues : ∀ v ∈ values, contextSize ≤ v.1 ∧ v.1 + 4 ≤ tcbSize)
    (hn : n < tcb.toNat + contextSize ∨ tcb.toNat + tcbSize ≤ n) :
    storeFields m tcb values n = m n := by
  induction values generalizing m with
  | nil => rfl
  | cons v values ih =>
    obtain ⟨hlo, hhi⟩ := hvalues v List.mem_cons_self
    have hfield := h.field hhi
    have hrest := ih (m := store m (tcb + UInt32.ofNat v.1) v.2)
      fun w hw => hvalues w (List.mem_cons_of_mem v hw)
    rw [storeFields, List.foldl_cons]
    refine hrest.trans (store_out ?_)
    omega

def tcbFields (args : TcbArgs) (kstack : UInt32) : List (Nat × UInt32) :=
  [(72, args.process), (44, kstack), (60, args.priority), (56, args.quantum), (48, 0),
    (76, 0), (80, 0)]

theorem tcbFields_in (args : TcbArgs) (kstack : UInt32) :
    ∀ v ∈ tcbFields args kstack, contextSize ≤ v.1 ∧ v.1 + 4 ≤ tcbSize := by
  simp [tcbFields, contextSize, tcbSize]

/-- The stack words over a cleared TCB. -/
def storeWords (m : Memory) (tcb kstack : UInt32) (args : TcbArgs) : Memory :=
  store (store (store (store (m.writeBytes tcb.toNat (List.replicate tcbSize 0))
    (kstack + args.kstackSize - UInt32.ofNat 4) args.ud)
    (kstack + args.kstackSize - UInt32.ofNat 4 - UInt32.ofNat 4) args.ud)
    (kstack + args.kstackSize - UInt32.ofNat 4 - UInt32.ofNat 4 - UInt32.ofNat 4) args.exitfunc)
    (firstEsp kstack args) args.startfunc

theorem contextAt_storeWords (h : Fresh tcb kstack args) (f : Field) :
    contextAt (storeWords m tcb kstack args) tcb f = 0 := by
  obtain ⟨hone, htwo, hthree, hfour⟩ := h.words
  have hsize := h.size
  have hapart := h.apart
  have hcontext := h.context
  simp only [tcbSize] at hapart
  simp only [contextSize] at hcontext
  unfold storeWords
  rw [contextAt_store_out h.context (by simp only [contextSize]; omega),
    contextAt_store_out h.context (by simp only [contextSize]; omega),
    contextAt_store_out h.context (by simp only [contextSize]; omega),
    contextAt_store_out h.context (by simp only [contextSize]; omega), contextAt_memset h]

theorem tcbInit_eq (h : Fresh tcb kstack args) : tcbInit m tcb args (some kstack) = (true,
    storeFields (store (store (store (store (storeWords m tcb kstack args)
      (slot tcb .pagedir) args.pagedir) (slot tcb .eflags) 0x202)
      (slot tcb .esp) (firstEsp kstack args))
      (slot tcb .esp0) (firstEsp kstack args - UInt32.ofNat 32)) tcb (tcbFields args kstack)) := by
  have hesp : contextAt (store (store (store (storeWords m tcb kstack args)
      (slot tcb .pagedir) args.pagedir) (slot tcb .eflags) 0x202)
      (slot tcb .esp) (firstEsp kstack args)) tcb .esp = firstEsp kstack args := by
    rw [contextAt_store_slot h.context, if_pos rfl]
  simp only [storeWords, firstEsp] at hesp
  simp only [tcbInit, storeFields, tcbFields, List.foldl_cons, List.foldl_nil, storeWords,
    firstEsp, hesp]

theorem contextAt_tcbInit (h : Fresh tcb kstack args) :
    contextAt (tcbInit m tcb args (some kstack)).2 tcb = firstContext kstack args := by
  rw [tcbInit_eq h]
  funext f
  simp only
  rw [contextAt_congr h.context fun n _ hhi => storeFields_out h
    (tcbFields_in args kstack) (Or.inl hhi)]
  simp only [contextAt_store_slot h.context, contextAt_storeWords h]
  cases f <;> simp only [reduceCtorEq, if_true, if_false, firstContext]

theorem tcbInit_out (h : Fresh tcb kstack args) (htcb : n < tcb.toNat ∨ tcb.toNat + tcbSize ≤ n)
    (hstack : n < kstack.toNat + args.kstackSize.toNat - 16 ∨
      kstack.toNat + args.kstackSize.toNat ≤ n) : (tcbInit m tcb args (some kstack)).2 n = m n := by
  obtain ⟨hone, htwo, hthree, hfour⟩ := h.words
  have hsize := h.size
  have hcontext : n < tcb.toNat ∨ tcb.toNat + contextSize ≤ n := by
    simp only [tcbSize, contextSize] at htcb ⊢
    omega
  rw [tcbInit_eq h]
  simp only
  rw [storeFields_out h (tcbFields_in args kstack)
    (by simp only [tcbSize, contextSize] at htcb ⊢; omega),
    store_slot_out h.context hcontext, store_slot_out h.context hcontext,
    store_slot_out h.context hcontext, store_slot_out h.context hcontext, storeWords,
    store_out (by omega), store_out (by omega), store_out (by omega), store_out (by omega),
    Memory.writeBytes_out (by simpa using htcb)]

theorem tcbInit_words (h : Fresh tcb kstack args) :
    load (tcbInit m tcb args (some kstack)).2 (firstEsp kstack args) = args.startfunc ∧
    load (tcbInit m tcb args (some kstack)).2
      (kstack + args.kstackSize - UInt32.ofNat 4 - UInt32.ofNat 4 - UInt32.ofNat 4) =
        args.exitfunc ∧
    load (tcbInit m tcb args (some kstack)).2
      (kstack + args.kstackSize - UInt32.ofNat 4 - UInt32.ofNat 4) = args.ud ∧
    load (tcbInit m tcb args (some kstack)).2 (kstack + args.kstackSize - UInt32.ofNat 4) =
      args.ud := by
  obtain ⟨hone, htwo, hthree, hfour⟩ := h.words
  have hsize := h.size
  have hapart := h.apart
  -- what is written into the TCB afterwards does not reach the stack
  have hkept : ∀ a : UInt32, kstack.toNat + args.kstackSize.toNat - 16 ≤ a.toNat →
      a.toNat + 4 ≤ kstack.toNat + args.kstackSize.toNat →
      load (tcbInit m tcb args (some kstack)).2 a = load (storeWords m tcb kstack args) a := by
    intro a hlo hhi
    apply load_congr
    intro n hn hn'
    have htcb : n < tcb.toNat ∨ tcb.toNat + tcbSize ≤ n := by omega
    have hcontext : n < tcb.toNat ∨ tcb.toNat + contextSize ≤ n := by
      simp only [tcbSize, contextSize] at htcb ⊢
      omega
    rw [tcbInit_eq h]
    simp only
    rw [storeFields_out h (tcbFields_in args kstack)
      (by simp only [tcbSize, contextSize] at htcb ⊢; omega),
      store_slot_out h.context hcontext, store_slot_out h.context hcontext,
      store_slot_out h.context hcontext, store_slot_out h.context hcontext]
  refine ⟨?_, ?_, ?_, ?_⟩
  · rw [hkept _ (by omega) (by omega)]
    exact load_store_self
  · rw [hkept _ (by omega) (by omega), storeWords, load_store_of_disjoint (by omega)]
    exact load_store_self
  · rw [hkept _ (by omega) (by omega), storeWords, load_store_of_disjoint (by omega),
      load_store_of_disjoint (by omega)]
    exact load_store_self
  · rw [hkept _ (by omega) (by omega), storeWords, load_store_of_disjoint (by omega),
      load_store_of_disjoint (by omega), load_store_of_disjoint (by omega)]
    exact load_store_self

end Init

end OsdevCourse.ContextSwitch
