import OsdevCourse.Reachability

/-!
# The thread scheduler: `scheduler.c` and the scheduling part of `scheduler.s`

Memory holds one `struct TCB` for every address: each thread's own and the `head`
that is embedded in each `struct TCB_LIST`. A pointer that may be NULL is an `Option`.
The counters are `uint32_t`: an increment, a decrement and a sum wrap at `2^32`.
A loop over a list takes fuel, and a NULL dereference or a loop that runs out of fuel
gives `none`. The register switch of `scheduler_yield` is not part of this module.
-/

namespace OsdevCourse.Scheduler

set_option autoImplicit false

inductive ListId where
  | active (priority : Nat)
  | slept
  | zombie
  deriving DecidableEq, Repr

inductive TcbPtr where
  | head (list : ListId)
  | thread (id : Nat)
  deriving DecidableEq, Repr

def TcbPtr.IsThread : TcbPtr → Prop
  | head _ => False
  | thread _ => True

structure Flags where
  slept : Bool
  zombie : Bool
  deriving DecidableEq, Repr

def Flags.clear : Flags := ⟨false, false⟩

def schedulePriorityIdle : Nat := 3
def schedulePriorityMax : Nat := 4
def scheduleQuantumShort : Nat := 4

structure Tcb where
  kstack : Nat
  elapsed : Nat
  sleepTick : Nat
  quantum : Nat
  priority : Nat
  threadId : Nat
  flags : Flags
  next : Option TcbPtr
  prev : Option TcbPtr
  deriving Repr

inductive Kfreed where
  | kstack (addr : Nat)
  | tcb (ptr : TcbPtr)
  deriving DecidableEq, Repr

structure State where
  elapsed : Nat
  quantum : Nat
  current : TcbPtr
  tail : ListId → TcbPtr
  tcb : TcbPtr → Tcb
  nextThreadId : Nat
  kfreed : List Kfreed

namespace State

def next (s : State) (p : TcbPtr) : Option TcbPtr := (s.tcb p).next
def prev (s : State) (p : TcbPtr) : Option TcbPtr := (s.tcb p).prev

/-- A TCB without its links: what the list edits leave alone. -/
def data (s : State) (p : TcbPtr) : Tcb := { s.tcb p with next := none, prev := none }

def modify (s : State) (p : TcbPtr) (f : Tcb → Tcb) : State :=
  { s with tcb := fun q => if q = p then f (s.tcb p) else s.tcb q }

def setNext (s : State) (p : TcbPtr) (v : Option TcbPtr) : State :=
  s.modify p fun t => { t with next := v }

def setPrev (s : State) (p : TcbPtr) (v : Option TcbPtr) : State :=
  s.modify p fun t => { t with prev := v }

def setTail (s : State) (l : ListId) (v : TcbPtr) : State :=
  { s with tail := fun m => if m = l then v else s.tail m }

def setPrevIf (s : State) (p : Option TcbPtr) (v : Option TcbPtr) : State :=
  match p with
  | none => s
  | some p => s.setPrev p v

variable (s : State) (p q : TcbPtr) (v : Option TcbPtr) (l m : ListId) (f : Tcb → Tcb)

@[simp] theorem tcb_modify : (s.modify p f).tcb q = if q = p then f (s.tcb p) else s.tcb q := rfl
@[simp] theorem tail_modify : (s.modify p f).tail = s.tail := rfl
@[simp] theorem current_modify : (s.modify p f).current = s.current := rfl
@[simp] theorem elapsed_modify : (s.modify p f).elapsed = s.elapsed := rfl
@[simp] theorem nextThreadId_modify : (s.modify p f).nextThreadId = s.nextThreadId := rfl
@[simp] theorem kfreed_modify : (s.modify p f).kfreed = s.kfreed := rfl

theorem next_modify (hf : ∀ t, (f t).next = t.next) : (s.modify p f).next = s.next := by
  funext q
  by_cases hq : q = p <;> simp [next, hq, hf]

theorem prev_modify (hf : ∀ t, (f t).prev = t.prev) : (s.modify p f).prev = s.prev := by
  funext q
  by_cases hq : q = p <;> simp [prev, hq, hf]

theorem data_modify (hf : ∀ t n m, f { t with next := n, prev := m } =
      { f t with next := n, prev := m }) :
    (s.modify p f).data q = if q = p then f (s.data p) else s.data q := by
  by_cases hq : q = p
  · subst hq
    simpa only [data, tcb_modify, if_true] using (hf (s.tcb q) none none).symm
  · simp [data, hq]

@[simp] theorem data_setNext : (s.setNext p v).data = s.data := by
  funext q
  by_cases hq : q = p <;> simp [data, setNext, hq]

@[simp] theorem data_setPrev : (s.setPrev p v).data = s.data := by
  funext q
  by_cases hq : q = p <;> simp [data, setPrev, hq]

@[simp] theorem data_setTail : (s.setTail l p).data = s.data := rfl

@[simp] theorem next_setNext : (s.setNext p v).next q = if q = p then v else s.next q := by
  by_cases hq : q = p <;> simp [next, setNext, hq]

@[simp] theorem prev_setNext : (s.setNext p v).prev = s.prev := prev_modify s p _ fun _ => rfl

@[simp] theorem prev_setPrev : (s.setPrev p v).prev q = if q = p then v else s.prev q := by
  by_cases hq : q = p <;> simp [prev, setPrev, hq]

@[simp] theorem next_setPrev : (s.setPrev p v).next = s.next := next_modify s p _ fun _ => rfl
@[simp] theorem tail_setNext : (s.setNext p v).tail = s.tail := rfl
@[simp] theorem tail_setPrev : (s.setPrev p v).tail = s.tail := rfl
@[simp] theorem tail_setTail : (s.setTail l p).tail m = if m = l then p else s.tail m := rfl
@[simp] theorem tcb_setTail : (s.setTail l p).tcb = s.tcb := rfl
@[simp] theorem next_setTail : (s.setTail l p).next = s.next := rfl
@[simp] theorem prev_setTail : (s.setTail l p).prev = s.prev := rfl

@[simp] theorem prev_setPrevIf (w : Option TcbPtr) :
    (s.setPrevIf w v).prev q = if w = some q then v else s.prev q := by
  cases w with
  | none => simp [setPrevIf]
  | some w => simp [setPrevIf, eq_comm]

@[simp] theorem next_setPrevIf (w : Option TcbPtr) : (s.setPrevIf w v).next = s.next := by
  cases w <;> simp [setPrevIf]

@[simp] theorem data_setPrevIf (w : Option TcbPtr) : (s.setPrevIf w v).data = s.data := by
  cases w <;> simp [setPrevIf]

@[simp] theorem tail_setPrevIf (w : Option TcbPtr) : (s.setPrevIf w v).tail = s.tail := by
  cases w <;> rfl

end State

def zeroTcb : Tcb := ⟨0, 0, 0, 0, 0, 0, .clear, none, none⟩

def kthreadMain : TcbPtr := .thread 0

def schedulerInit : State where
  elapsed := 0
  quantum := 1
  current := kthreadMain
  tail := .head
  tcb := fun p => if p = kthreadMain then
    { zeroTcb with priority := schedulePriorityIdle, quantum := scheduleQuantumShort } else zeroTcb
  nextThreadId := 1
  kfreed := []

def tcbInit (priority quantum kstack : Nat) : Tcb :=
  { zeroTcb with kstack := kstack, priority := priority, quantum := quantum }

-- The four assignments of `scheduler_add`, in order.
def addNext (s : State) (tcb : TcbPtr) : State := s.setNext tcb none
def addPrev (s : State) (list : ListId) (tcb : TcbPtr) : State := s.setPrev tcb (some (s.tail list))
def addLink (s : State) (list : ListId) (tcb : TcbPtr) : State := s.setNext (s.tail list) (some tcb)
def addTail (s : State) (list : ListId) (tcb : TcbPtr) : State := s.setTail list tcb

def activeList (s : State) (tcb : TcbPtr) : ListId := .active (s.tcb tcb).priority

def schedulerAdd (s : State) (tcb : TcbPtr) : State :=
  let list := activeList s tcb
  let s := addNext s tcb
  let s := addPrev s list tcb
  let s := addLink s list tcb
  addTail s list tcb

def assignThreadId (s : State) (tcb : TcbPtr) : State :=
  let s := s.modify tcb fun t => { t with threadId := s.nextThreadId }
  { s with nextThreadId := (s.nextThreadId + 1) % 2 ^ 32 }

def schedulerRun (s : State) (tcb : TcbPtr) : State := schedulerAdd (assignThreadId s tcb) tcb

def sleptLink (s : State) (current slept : TcbPtr) (next : Option TcbPtr) : State :=
  let s := s.setNext current next
  let s := s.setNext slept (some current)
  let s := s.setPrev current (some slept)
  s.setPrevIf next (some current)

def sleptInsert : Nat → State → TcbPtr → TcbPtr → Option State
  | 0, _, _, _ => none
  | fuel + 1, s, current, slept =>
    match s.next slept with
    | none => some (sleptLink s current slept none)
    | some next =>
      let tick := (s.tcb current).sleepTick
      let nextTick := (s.tcb next).sleepTick
      if tick ≤ nextTick then
        let s := s.modify next fun t => { t with sleepTick := nextTick - tick }
        some (sleptLink s current slept (some next))
      else
        let s := s.modify current fun t => { t with sleepTick := tick - nextTick }
        sleptInsert fuel s current next

def zombiePush (s : State) (current : TcbPtr) : State :=
  let s := s.setNext current (s.next (.head .zombie))
  s.setNext (.head .zombie) (some current)

def chargeCurrent (s : State) : State :=
  s.modify s.current fun t => { t with elapsed := (t.elapsed + s.elapsed) % 2 ^ 32 }

/-- The first part of `scheduler_pick`: the thread that gives up the CPU goes to a list. -/
def park (fuel : Nat) (s : State) : Option State :=
  let current := s.current
  let s := chargeCurrent s
  if (s.tcb current).flags.zombie then some (zombiePush s current)
  else if (s.tcb current).flags.slept then sleptInsert fuel s current (.head .slept)
  else some (schedulerAdd s current)

def unlinkSlept (s : State) (slept : TcbPtr) : State :=
  let s := s.modify slept fun t =>
    { t with sleepTick := 0, flags := { t.flags with slept := !t.flags.slept } }
  let s := s.setNext (.head .slept) (s.next slept)
  s.setPrevIf (s.next slept) (s.prev slept)

def awake (s : State) (slept : TcbPtr) : State := schedulerAdd (unlinkSlept s slept) slept

def awakeAll : Nat → State → Option State
  | 0, _ => none
  | fuel + 1, s =>
    match s.next (.head .slept) with
    | none => some s
    | some slept =>
      if (s.tcb slept).sleepTick > s.elapsed then
        some (s.modify slept fun t => { t with sleepTick := t.sleepTick - s.elapsed })
      else awakeAll fuel (awake s slept)

def unlinkTarget (s : State) (list : ListId) (target : TcbPtr) : State :=
  let s := s.setNext (.head list) (s.next target)
  let s := s.setPrevIf (s.next target) (some (.head list))
  if s.tail list = target then s.setTail list (.head list) else s

def pickTarget : List Nat → State → Option (TcbPtr × State)
  | [], _ => none
  | i :: is, s =>
    match s.next (.head (.active i)) with
    | none => pickTarget is s
    | some tcb => some (tcb, unlinkTarget s (.active i) tcb)

def dispatch (s : State) (target : TcbPtr) : State :=
  let s := s.modify target fun t =>
    { t with elapsed := if t.elapsed ≥ t.quantum then 0 else t.elapsed }
  { s with elapsed := 0, quantum := (s.tcb target).quantum - (s.tcb target).elapsed }

def schedulerPick (fuel : Nat) (s : State) : Option (TcbPtr × State) := do
  let s ← park fuel s
  let s ← awakeAll fuel s
  let (tcb, s) ← pickTarget (List.range schedulePriorityMax) s
  return (tcb, dispatch s tcb)

def schedulerYield (fuel : Nat) (s : State) : Option State := do
  let (tcb, s) ← schedulerPick fuel s
  return { s with current := tcb }

def countTick (s : State) : State :=
  { s with elapsed := (s.elapsed + 1) % 2 ^ 32, quantum := (s.quantum + 2 ^ 32 - 1) % 2 ^ 32 }

def schedulerTick (fuel : Nat) (s : State) : Option State :=
  let s := countTick s
  if s.quantum = 0 then schedulerYield fuel s else some s

/-- `scheduler_sleep` up to its call of `scheduler_yield`. -/
def sleepMark (s : State) (tick : Nat) : State :=
  if tick ≠ 0 then
    let s := s.modify s.current fun t => { t with sleepTick := tick }
    s.modify s.current fun t => { t with flags := { t.flags with slept := true } }
  else s

def schedulerSleep (fuel : Nat) (s : State) (tick : Nat) : Option State :=
  schedulerYield fuel (sleepMark s tick)

def exitMark (s : State) : State :=
  s.modify s.current fun t => { t with flags := { t.flags with zombie := true } }

def schedulerExitthread (fuel : Nat) (s : State) : Option State := schedulerYield fuel (exitMark s)

def schedulerCleanzombie (s : State) : Bool × State :=
  match s.next (.head .zombie) with
  | none => (false, s)
  | some tcb =>
    let s := s.setNext (.head .zombie) (s.next tcb)
    let kstack := if (s.tcb tcb).kstack ≠ 0 then [Kfreed.kstack (s.tcb tcb).kstack] else []
    (true, { s with kfreed := Kfreed.tcb tcb :: kstack ++ s.kfreed })

end OsdevCourse.Scheduler
