import OsdevCourse.KmallocInvariant
import Mathlib.Algebra.BigOperators.Group.Finset.Basic
import Mathlib.Algebra.BigOperators.Ring.Finset
import Mathlib.Algebra.Order.BigOperators.Group.Finset

/-!
# Preempted calls of kmalloc

Several threads are inside `kmalloc`, and the timer can take the processor away between
any two statements that run with interrupts enabled: the search of the list is one step,
and each statement of `heap_alloc` is one. Two calls that read `heap->ptr` before either
has added to it are given the same block. The theorem shows that this is the only way two
calls can meet.
-/

namespace OsdevCourse.Kmalloc

set_option autoImplicit false

open Memory
open scoped BigOperators

universe u
variable {ι : Type u} {l : Layout}

/-- The statement a call is at; `bump` and `header` hold the value of `mem`. -/
inductive Pc where
  | search
  | check
  | mapping
  | readMem
  | bump (mem : Nat)
  | header (mem : Nat)
  | done (ptr : Nat)

structure Threads (ι : Type u) where
  kernel : Kernel
  pc : ι → Pc

/-- One statement of a call for `n` bytes. -/
def advance (l : Layout) (fuel n : Nat) (k : Kernel) : Pc → Option (Kernel × Pc)
  | .search =>
    match searchList l fuel (requestClass n).1 (requestClass n).2 k.mem with
    | none => none
    | some (mem, node) =>
      some ({ k with mem := mem }, if node = 0 then .check else .done (payload node))
  | .check => some (k, if heapFull k.heap (requestClass n).2 then .done 0 else .mapping)
  | .mapping =>
    some ({ k with mapped := k.mapped ++ heapMap k.heap (requestClass n).2 }, .readMem)
  | .readMem => some (k, .bump (heapMem k.heap))
  | .bump mem => some ({ k with heap := heapBump k.heap (requestClass n).2 }, .header mem)
  | .header mem =>
    if mem = 0 then some (k, .done 0)
    else some ({ k with mem := setSize k.mem mem (requestClass n).2 }, .done (payload mem))
  | .done _ => none

/-- The thread `i` takes its next step; `want` are the sizes the calls ask for. -/
def ThreadStep [DecidableEq ι] (l : Layout) (want : ι → Nat) (s : Threads ι) (i : ι)
    (t : Threads ι) : Prop :=
  ∃ fuel k pc, advance l fuel (want i) s.kernel (s.pc i) = some (k, pc) ∧
    t = { kernel := k, pc := Function.update s.pc i pc }

/-- No call reads `heap->ptr` while another is between its own reading and its addition. -/
def Unraced (s : Threads ι) (i : ι) : Prop := s.pc i = .readMem → ∀ j mem, s.pc j ≠ .bump mem

def Pc.isReadMem : Pc → Bool
  | .readMem => true
  | _ => false

def Pc.isBump : Pc → Bool
  | .bump _ => true
  | _ => false

theorem unraced_iff {s : Threads ι} {i : ι} :
    Unraced s i ↔ ((s.pc i).isReadMem = true → ∀ j, (s.pc j).isBump = false) := by
  have hread : (s.pc i).isReadMem = true ↔ s.pc i = .readMem := by
    cases s.pc i <;> simp [Pc.isReadMem]
  have hbump : ∀ j, (s.pc j).isBump = false ↔ ∀ mem, s.pc j ≠ .bump mem := by
    intro j
    cases s.pc j <;> simp [Pc.isBump]
  simp only [Unraced, hread, hbump]

instance [Fintype ι] (s : Threads ι) (i : ι) : Decidable (Unraced s i) :=
  decidable_of_iff _ unraced_iff.symm

def calling (m : Machine) : Threads ι := { kernel := m.kernel, pc := fun _ => .search }

/-- What a call has taken from the heap so far. -/
def taken (m : Machine) (n : Nat) : Pc → Nat
  | .header _ => (requestClass n).2
  | .done p => if p ≠ 0 ∧ p - 16 ∉ m.freed then (requestClass n).2 else 0
  | _ => 0

/-- The blocks that have been returned are disjoint from each other and from those that
were live before, and the bump pointer has grown by what was taken. -/
structure Safe [Fintype ι] (m : Machine) (want : ι → Nat) (s : Threads ι) : Prop where
  disjoint : ∀ i j p q, i ≠ j → s.pc i = .done p → s.pc j = .done q → p ≠ 0 → q ≠ 0 →
    p ≠ q ∧ Apart (p - 16) (sizeField s.kernel.mem (p - 16)) (q - 16)
      (sizeField s.kernel.mem (q - 16))
  before : ∀ i p, s.pc i = .done p → p ≠ 0 → ∀ b ∈ m.nodes,
    Apart (p - 16) (sizeField s.kernel.mem (p - 16)) b (m.blockSize b)
  growth : s.kernel.heap.ptr = m.kernel.heap.ptr + ∑ i, taken m (want i) (s.pc i)

/-! ### A call that is not preempted -/

section
variable [DecidableEq ι] {want : ι → Nat} {i j : ι} {f : ι → Pc} {k k' : Kernel} {pc pc' : Pc}
  {fuel : Nat}

theorem advance_step (fuel : Nat) (h : advance l fuel (want i) k pc = some (k', pc')) :
    ThreadStep l want { kernel := k, pc := Function.update f i pc } i
      { kernel := k', pc := Function.update f i pc' } := by
  refine ⟨fuel, k', pc', ?_, ?_⟩
  · rw [← h]
    simp only [Function.update_self]
  · simp only [Function.update_idem]

theorem alone_eq_kmalloc {s : Threads ι} {p : Nat} (hpc : s.pc i = .search)
    (hmem : heapMem s.kernel.heap ≠ 0) (hcall : kmalloc l fuel (want i) s.kernel = some (k, p)) :
    ∃ as, (∀ a ∈ as, a = i) ∧ Run (ThreadStep l want) s as
      { kernel := k, pc := Function.update s.pc i (.done p) } := by
  obtain ⟨mem, node, hsearch, hcases⟩ := kmalloc_cases Prod.mk.eta.symm hmem hcall
  have hself : s = { kernel := s.kernel, pc := Function.update s.pc i .search } := by
    rw [← hpc, Function.update_eq_self]
  have hstart : advance l fuel (want i) s.kernel .search = some ({ s.kernel with mem := mem },
      if node = 0 then .check else .done (payload node)) := by
    simp only [advance, hsearch]
  have hrun := Run.single (advance_step (f := s.pc) fuel hstart)
  rw [← hself] at hrun
  rcases hcases with ⟨hnode, rfl, rfl⟩ | ⟨hnode, hfull, rfl, rfl⟩ | ⟨hnode, hroom, rfl, rfl⟩
  · rw [if_neg hnode] at hrun
    exact ⟨_, by simp, hrun⟩
  · rw [if_pos hnode] at hrun
    have hcheck : advance l fuel (want i) { s.kernel with mem := mem } .check =
        some ({ s.kernel with mem := mem }, .done 0) := by
      simp only [advance, if_pos hfull]
    exact ⟨_, by simp, hrun.snoc (advance_step fuel hcheck)⟩
  · rw [if_pos hnode] at hrun
    have hcheck : advance l fuel (want i) { s.kernel with mem := mem } .check =
        some ({ s.kernel with mem := mem }, .mapping) := by
      simp only [advance, if_neg hroom]
    have hrun := hrun.snoc (advance_step fuel hcheck)
    have hrun := hrun.snoc (advance_step 0 rfl)
    have hrun := hrun.snoc (advance_step 0 rfl)
    have hrun := hrun.snoc (advance_step 0 rfl)
    refine ⟨_, ?_, hrun.snoc (advance_step 0 (if_neg hmem))⟩
    simp

end

/-! ### The invariant of unraced runs -/

section
variable [DecidableEq ι] [Fintype ι] {m : Machine} {want : ι → Nat} {s t : Threads ι} {i j : ι}
  {len len' : Nat → Nat} {bs bs' free free' : List Nat} {pc pc' : Pc}

/-- What is known of a thread at each statement. -/
def PcOk (l : Layout) (m : Machine) (k : Kernel) (len : Nat → Nat) (bs free : List Nat) (n : Nat) :
    Pc → Prop
  | .bump mem => mem = heapStart l + k.heap.ptr
  | .header mem =>
    mem ∈ bs ∧ mem ∉ free ∧ mem ∉ m.nodes ∧ mem ∉ m.freed ∧ len mem = (requestClass n).2
  | .done p => p ≠ 0 → 16 ≤ p ∧ p - 16 ∈ bs ∧ p - 16 ∉ free ∧ p - 16 ∉ m.nodes ∧
    sizeField k.mem (p - 16) = len (p - 16)
  | _ => True

/-- The block a call owns. -/
def owned : Pc → Option Nat
  | .header mem => some mem
  | .done p => if p = 0 then none else some (p - 16)
  | _ => none

structure Covered (l : Layout) (m : Machine) (want : ι → Nat) (s : Threads ι) (len : Nat → Nat)
    (bs free : List Nat) : Prop where
  start_eq : s.kernel.heap.start = heapStart l
  arena : Arena l len s.kernel.heap.ptr bs free s.kernel.mem
  freed : ∀ b ∈ free, b ∈ m.freed
  old : ∀ b ∈ m.freed, b ∈ bs
  live : ∀ b ∈ m.nodes, b ∈ bs ∧ b ∉ free ∧ len b = m.blockSize b
  threads : ∀ i, PcOk l m s.kernel len bs free (want i) (s.pc i)
  distinct : ∀ i j b, owned (s.pc i) = some b → owned (s.pc j) = some b → i = j
  single : ∀ i j a b, s.pc i = .bump a → s.pc j = .bump b → i = j
  growth : s.kernel.heap.ptr = m.kernel.heap.ptr + ∑ i, taken m (want i) (s.pc i)

/-- The requests fit into the address space together. -/
def NoWrap (l : Layout) (m : Machine) (want : ι → Nat) : Prop :=
  (∀ i, want i + 31 < 2 ^ 32) ∧
    heapStart l + m.kernel.heap.ptr + ∑ i, (requestClass (want i)).2 ≤ 2 ^ 32

theorem taken_le (n : Nat) (pc : Pc) : taken m n pc ≤ (requestClass n).2 := by
  cases pc with
  | header mem => exact Nat.le_refl _
  | done p =>
    simp only [taken]
    split_ifs
    · exact Nat.le_refl _
    · exact Nat.zero_le _
  | search => exact Nat.zero_le _
  | check => exact Nat.zero_le _
  | mapping => exact Nat.zero_le _
  | readMem => exact Nat.zero_le _
  | bump mem => exact Nat.zero_le _

theorem sum_taken_le (hpc : taken m (want i) (s.pc i) = 0) :
    ∑ j, taken m (want j) (s.pc j) + (requestClass (want i)).2 ≤ ∑ j,
      (requestClass (want j)).2 := by
  have hsum : ∑ j, (taken m (want j) (s.pc j) + if i = j then (requestClass (want j)).2 else 0) =
      ∑ j, taken m (want j) (s.pc j) + (requestClass (want i)).2 := by
    rw [Finset.sum_add_distrib, Finset.sum_ite_eq, if_pos (Finset.mem_univ i)]
  rw [← hsum]
  apply Finset.sum_le_sum
  intro j _
  by_cases hij : i = j
  · subst hij
    rw [if_pos rfl, hpc, Nat.zero_add]
  · rw [if_neg hij, Nat.add_zero]
    exact taken_le _ _

theorem sum_taken_update {n : Nat} (hn : taken m (want i) pc = taken m (want i) (s.pc i) + n) :
    ∑ j, taken m (want j) (Function.update s.pc i pc j) =
      ∑ j, taken m (want j) (s.pc j) + n := by
  have hsum : ∑ j, (taken m (want j) (s.pc j) + if i = j then n else 0) =
      ∑ j, taken m (want j) (s.pc j) + n := by
    rw [Finset.sum_add_distrib, Finset.sum_ite_eq, if_pos (Finset.mem_univ i)]
  rw [← hsum]
  apply Finset.sum_congr rfl
  intro j _
  by_cases hij : i = j
  · subst hij
    rw [Function.update_self, if_pos rfl, hn]
  · rw [Function.update_of_ne (Ne.symm hij), if_neg hij, Nat.add_zero]

namespace Covered
variable {k' : Kernel}

theorem move {n : Nat} (h : Covered l m want s len bs free)
    (hstart : k'.heap.start = heapStart l) (harena : Arena l len' k'.heap.ptr bs' free' k'.mem)
    (hfree : ∀ b ∈ free', b ∈ free) (hbs : ∀ b ∈ bs, b ∈ bs') (hlen : ∀ b ∈ bs, len' b = len b)
    (hsize : ∀ j, j ≠ i → ∀ b ∈ bs, owned (s.pc j) = some b →
      sizeField k'.mem b = sizeField s.kernel.mem b)
    (hbump : ∀ j a, j ≠ i → s.pc j = .bump a → k'.heap.ptr = s.kernel.heap.ptr)
    (hok : PcOk l m k' len' bs' free' (want i) pc')
    (howned : ∀ b, owned pc' = some b → ∀ j, j ≠ i → owned (s.pc j) ≠ some b)
    (hsingle : ∀ a, pc' = .bump a → ∀ j b, j ≠ i → s.pc j ≠ .bump b)
    (htaken : taken m (want i) pc' = taken m (want i) (s.pc i) + n)
    (hptr : k'.heap.ptr = s.kernel.heap.ptr + n) :
    Covered l m want { kernel := k', pc := Function.update s.pc i pc' } len' bs' free' where
  start_eq := hstart
  arena := harena
  freed b hb := h.freed b (hfree b hb)
  old b hb := hbs b (h.old b hb)
  live b hb := by
    obtain ⟨hin, hout, heq⟩ := h.live b hb
    exact ⟨hbs b hin, fun hf => hout (hfree b hf), (hlen b hin).trans heq⟩
  threads j := by
    by_cases hij : j = i
    · subst hij
      simp only [Function.update_self]
      exact hok
    · simp only [Function.update_of_ne hij]
      have hj := h.threads j
      cases hpc : s.pc j with
      | search => trivial
      | check => trivial
      | mapping => trivial
      | readMem => trivial
      | bump a =>
        rw [hpc] at hj
        have hsame := hbump j a hij hpc
        simp only [PcOk] at hj ⊢
        rw [hsame]
        exact hj
      | header a =>
        rw [hpc] at hj
        obtain ⟨hin, hout, hlive, hfreed, hl⟩ := hj
        exact ⟨hbs a hin, fun hf => hout (hfree a hf), hlive, hfreed, (hlen a hin).trans hl⟩
      | done q =>
        rw [hpc] at hj
        intro hq
        obtain ⟨hq16, hin, hout, hlive, hstored⟩ := hj hq
        refine ⟨hq16, hbs _ hin, fun hf => hout (hfree _ hf), hlive, ?_⟩
        rw [hlen _ hin, ← hstored]
        exact hsize j hij _ hin (by rw [hpc]; exact if_neg hq)
  distinct a b x ha hb := by
    by_cases hai : a = i <;> by_cases hbi : b = i
    · rw [hai, hbi]
    · subst hai
      simp only [Function.update_self] at ha
      simp only [Function.update_of_ne hbi] at hb
      exact absurd hb (howned x ha b hbi)
    · subst hbi
      simp only [Function.update_self] at hb
      simp only [Function.update_of_ne hai] at ha
      exact absurd ha (howned x hb a hai)
    · simp only [Function.update_of_ne hai] at ha
      simp only [Function.update_of_ne hbi] at hb
      exact h.distinct a b x ha hb
  single a b x y ha hb := by
    by_cases hai : a = i <;> by_cases hbi : b = i
    · rw [hai, hbi]
    · subst hai
      simp only [Function.update_self] at ha
      simp only [Function.update_of_ne hbi] at hb
      exact absurd hb (hsingle x ha b y hbi)
    · subst hbi
      simp only [Function.update_self] at hb
      simp only [Function.update_of_ne hai] at ha
      exact absurd ha (hsingle y hb a x hai)
    · simp only [Function.update_of_ne hai] at ha
      simp only [Function.update_of_ne hbi] at hb
      exact h.single a b x y ha hb
  growth := by
    rw [hptr, h.growth, sum_taken_update htaken, Nat.add_assoc]

theorem quiet (h : Covered l m want s len bs free) (hheap : k'.heap = s.kernel.heap)
    (hmem : k'.mem = s.kernel.mem) (hok : PcOk l m k' len bs free (want i) pc')
    (howned : owned pc' = none) (hsingle : ∀ a, pc' = .bump a → ∀ j b, j ≠ i → s.pc j ≠ .bump b)
    (htaken : taken m (want i) pc' = taken m (want i) (s.pc i)) :
    Covered l m want { kernel := k', pc := Function.update s.pc i pc' } len bs free := by
  have hptr : k'.heap.ptr = s.kernel.heap.ptr := by rw [hheap]
  refine h.move (n := 0) (hheap ▸ h.start_eq) ?_ (fun _ hb => hb) (fun _ hb => hb) (fun _ _ => rfl)
    ?_ (fun _ _ _ _ => hptr) hok ?_ hsingle htaken hptr
  · rw [hmem, hptr]
    exact h.arena
  · intro j _ b _ _
    rw [hmem]
  · intro b hb
    rw [howned] at hb
    exact absurd hb (by simp)

theorem room (h : Covered l m want s len bs free) (hfit : NoWrap l m want)
    (hpc : taken m (want i) (s.pc i) = 0) :
    heapStart l + s.kernel.heap.ptr + (requestClass (want i)).2 ≤ 2 ^ 32 := by
  have hsum := sum_taken_le (s := s) hpc
  have htotal := hfit.2
  rw [h.growth]
  omega

omit [DecidableEq ι] in
theorem block_lt (h : Covered l m want s len bs free) (hfit : NoWrap l m want) {b : Nat}
    (hb : b ∈ bs) : b + 64 ≤ 2 ^ 32 := by
  have hin := (h.arena.tiles.within hb).2
  have hpos := (h.arena.granted b hb).pos
  have htotal := hfit.2
  have hle : ∑ j, taken m (want j) (s.pc j) ≤ ∑ j, (requestClass (want j)).2 :=
    Finset.sum_le_sum fun j _ => taken_le _ _
  have hgrowth := h.growth
  omega

omit [DecidableEq ι] in
theorem owned_spec (h : Covered l m want s len bs free) {b : Nat} (hb : owned (s.pc i) = some b) :
    b ∈ bs ∧ b ∉ free ∧ b ∉ m.nodes := by
  have hi := h.threads i
  cases hpc : s.pc i with
  | header a =>
    rw [hpc] at hi hb
    obtain rfl := Option.some.inj hb
    obtain ⟨hin, hout, hlive, _⟩ := hi
    exact ⟨hin, hout, hlive⟩
  | done q =>
    rw [hpc] at hi hb
    simp only [owned] at hb
    split_ifs at hb with hq
    obtain rfl := Option.some.inj hb
    obtain ⟨_, hin, hout, hlive, _⟩ := hi hq
    exact ⟨hin, hout, hlive⟩
  | search => simp [hpc, owned] at hb
  | check => simp [hpc, owned] at hb
  | mapping => simp [hpc, owned] at hb
  | readMem => simp [hpc, owned] at hb
  | bump a => simp [hpc, owned] at hb

omit [DecidableEq ι] in
theorem payload_eq (h : Covered l m want s len bs free) (hfit : NoWrap l m want) {b : Nat}
    (hb : b ∈ bs) : payload b = b + 16 := by
  have hlt := h.block_lt hfit hb
  unfold payload
  omega

theorem hit (h : Covered l m want s len bs free) (hfit : NoWrap l m want)
    (hpc : s.pc i = .search) {mem : Memory} {node size : Nat} {c : FreeList}
    (hfound : Found l len s.kernel.heap.ptr bs free c size s.kernel.mem mem node) :
    Covered l m want { kernel := { s.kernel with mem := mem }
                       pc := Function.update s.pc i (.done (payload node)) }
      len bs (free.erase node) := by
  obtain ⟨hfree, _, _, htaken, a, ha, hstore⟩ := hfound
  have hnode := h.arena.free_block node hfree
  have hheader : Header l bs a := by
    rcases ha with ha | rfl
    · exact Or.inl (h.arena.free_block a ha)
    · exact Or.inr ⟨c, rfl⟩
  have hkeep : ∀ b ∈ bs, sizeField mem b = sizeField s.kernel.mem b := by
    intro b hb
    rw [hstore, h.arena.sizeField_setNext hheader (Or.inl hb)]
  have howned : owned (.done (node + 16)) = some node := by
    simp only [owned, if_neg (show node + 16 ≠ 0 by omega), Nat.add_sub_cancel]
  rw [h.payload_eq hfit hnode]
  refine h.move (n := 0) h.start_eq htaken (fun _ hb => List.mem_of_mem_erase hb) (fun _ hb => hb)
    (fun _ _ => rfl) (fun _ _ b hb _ => hkeep b hb) (fun _ _ _ _ => rfl) ?_ ?_ ?_ ?_ rfl
  · intro _
    rw [Nat.add_sub_cancel]
    refine ⟨Nat.le_add_left 16 node, hnode, ?_, ?_, ?_⟩
    · exact fun hmem => (h.arena.free_nodup.mem_erase_iff.mp hmem).1 rfl
    · exact fun hlive => (h.live node hlive).2.1 hfree
    · exact (hkeep node hnode).trans (h.arena.stored node hfree)
  · intro b hb j _ hj
    rw [howned] at hb
    obtain rfl := Option.some.inj hb
    exact (h.owned_spec hj).2.1 hfree
  · intro a ha
    exact absurd ha (by simp)
  · rw [hpc]
    simp only [taken, Nat.add_sub_cancel]
    rw [if_neg]
    exact fun hnew => hnew.2 (h.freed node hfree)

theorem bumped (h : Covered l m want s len bs free) (hfit : NoWrap l m want) {mem : Nat}
    (hpc : s.pc i = .bump mem) :
    Covered l m want { kernel := { s.kernel with
                         heap := heapBump s.kernel.heap (requestClass (want i)).2 }
                       pc := Function.update s.pc i (.header mem) }
      (Function.update len mem (requestClass (want i)).2) (bs ++ [mem]) free := by
  obtain ⟨_, hgranted, _, _⟩ := requestClass_spec (n := want i) Prod.mk.eta.symm
  have hmem : mem = heapStart l + s.kernel.heap.ptr := by
    have hi := h.threads i
    rw [hpc] at hi
    exact hi
  have hnone : taken m (want i) (s.pc i) = 0 := by
    rw [hpc]
    rfl
  have hroom := h.room hfit hnone
  have hfresh : mem ∉ bs := by
    intro hb
    have hin := (h.arena.tiles.within hb).2
    have hpos := (h.arena.granted mem hb).pos
    omega
  have hstart : 0 < heapStart l := Nat.succ_pos _
  have hptr : (heapBump s.kernel.heap (requestClass (want i)).2).ptr =
      s.kernel.heap.ptr + (requestClass (want i)).2 := Nat.mod_eq_of_lt (by omega)
  have hlen : ∀ b ∈ bs, Function.update len mem (requestClass (want i)).2 b = len b := by
    intro b hb
    have hne : b ≠ mem := fun heq => hfresh (heq ▸ hb)
    exact Function.update_of_ne hne _ _
  refine h.move (n := (requestClass (want i)).2) h.start_eq ?_ (fun _ hb => hb)
    (fun _ hb => List.mem_append_left _ hb) hlen (fun _ _ _ _ _ => rfl) ?_ ?_ ?_ ?_ ?_ hptr
  · have hgrown := h.arena.grow hlen (by rw [hmem, Function.update_self]) hgranted
    rw [← hmem] at hgrown
    rw [hptr]
    exact hgrown
  · intro j a hj ha
    exact absurd (h.single j i a mem ha hpc) hj
  · refine ⟨by simp, ?_, ?_, ?_, Function.update_self _ _ _⟩
    · exact fun hb => hfresh (h.arena.free_block mem hb)
    · exact fun hb => hfresh (h.live mem hb).1
    · exact fun hb => hfresh (h.old mem hb)
  · intro b hb j _ hj
    obtain rfl := Option.some.inj hb
    exact hfresh (h.owned_spec hj).1
  · intro a ha
    exact absurd ha (by simp)
  · rw [hnone, Nat.zero_add]
    rfl

theorem headed (h : Covered l m want s len bs free) (hfit : NoWrap l m want) {mem : Nat}
    (hpc : s.pc i = .header mem) :
    Covered l m want { kernel := { s.kernel with
                         mem := setSize s.kernel.mem mem (requestClass (want i)).2 }
                       pc := Function.update s.pc i (.done (payload mem)) } len bs free := by
  have hi := h.threads i
  rw [hpc] at hi
  obtain ⟨hin, hout, hlive, hfreed, hlen⟩ := hi
  have hheader : Header l bs mem := Or.inl hin
  have hapart : ∀ b, Header l bs b → b ≠ mem →
      AgreeOn s.kernel.mem (setSize s.kernel.mem mem (requestClass (want i)).2) b (b + 8) := by
    intro b hb hne
    apply agreeOn_write32
    have hsep := h.arena.apart hb hheader hne
    unfold Apart at hsep
    omega
  have hkeep : ∀ b ∈ bs, b ≠ mem →
      sizeField (setSize s.kernel.mem mem (requestClass (want i)).2) b =
        sizeField s.kernel.mem b := by
    intro b hb hne
    exact read32_congr fun x hx hlt => hapart b (Or.inl hb) hne x (by omega) (by omega)
  have hmem : owned (s.pc i) = some mem := by
    rw [hpc]
    rfl
  have howned : owned (.done (mem + 16)) = some mem := by
    simp only [owned, if_neg (show mem + 16 ≠ 0 by omega), Nat.add_sub_cancel]
  have hsize : (requestClass (want i)).2 < 2 ^ 32 := by
    have hblock := (h.arena.tiles.within hin).2
    have hlow := (h.arena.tiles.within hin).1
    have hstart : 0 < heapStart l := Nat.succ_pos _
    have htotal := hfit.2
    have hle : ∑ j, taken m (want j) (s.pc j) ≤ ∑ j, (requestClass (want j)).2 :=
      Finset.sum_le_sum fun j _ => taken_le _ _
    have hgrowth := h.growth
    omega
  rw [h.payload_eq hfit hin]
  refine h.move (n := 0) h.start_eq ?_ (fun _ hb => hb) (fun _ hb => hb) (fun _ _ => rfl) ?_
    (fun _ _ _ _ => rfl) ?_ ?_ ?_ ?_ rfl
  · refine h.arena.congr (fun _ _ => rfl) ?_ ?_
    · intro d x hx hlt
      refine hapart _ (Or.inr ⟨d, rfl⟩) ?_ x hx (by omega)
      rintro rfl
      have habove := h.arena.above hin
      have hbelow := l.node_below d
      omega
    · exact fun b hb => hapart b (Or.inl (h.arena.free_block b hb)) fun heq => hout (heq ▸ hb)
  · intro j hj b hb hjb
    apply hkeep b hb
    rintro rfl
    exact hj (h.distinct j i b hjb hmem)
  · intro _
    rw [Nat.add_sub_cancel]
    exact ⟨Nat.le_add_left 16 mem, hin, hout, hlive, (sizeField_setSize hsize).trans hlen.symm⟩
  · intro b hb j hj hjb
    rw [howned] at hb
    obtain rfl := Option.some.inj hb
    exact hj (h.distinct j i mem hjb hmem)
  · intro a ha
    exact absurd ha (by simp)
  · rw [hpc]
    simp only [taken, Nat.add_sub_cancel, Nat.add_zero]
    rw [if_pos ⟨by omega, hfreed⟩]

theorem step (h : Covered l m want s len bs free) (hfit : NoWrap l m want) (hclear : Unraced s i)
    (hstep : ThreadStep l want s i t) : ∃ len' bs' free', Covered l m want t len' bs' free' := by
  obtain ⟨fuel, k, pc, hadvance, rfl⟩ := hstep
  cases hpc : s.pc i with
  | search =>
    rw [hpc] at hadvance
    simp only [advance] at hadvance
    cases hsearch : searchList l fuel (requestClass (want i)).1 (requestClass (want i)).2
        s.kernel.mem with
    | none => simp [hsearch] at hadvance
    | some r =>
      obtain ⟨mem, node⟩ := r
      simp only [hsearch, Option.some.injEq, Prod.mk.injEq] at hadvance
      obtain ⟨rfl, rfl⟩ := hadvance
      rcases h.arena.search_spec Prod.mk.eta.symm hsearch with ⟨hnode, hmem, _⟩ | ⟨hnode, hfound⟩
      · refine ⟨len, bs, free, ?_⟩
        rw [if_pos hnode]
        refine h.quiet rfl hmem trivial rfl (fun a ha => absurd ha (by simp)) ?_
        rw [hpc]
        rfl
      · rw [if_neg hnode]
        exact ⟨len, bs, free.erase node, h.hit hfit hpc hfound⟩
  | check =>
    rw [hpc] at hadvance
    simp only [advance, Option.some.injEq, Prod.mk.injEq] at hadvance
    obtain ⟨rfl, rfl⟩ := hadvance
    refine ⟨len, bs, free, ?_⟩
    split_ifs
    · refine h.quiet rfl rfl (fun hne => absurd rfl hne) rfl (fun a ha => absurd ha (by simp)) ?_
      rw [hpc]
      rfl
    · refine h.quiet rfl rfl trivial rfl (fun a ha => absurd ha (by simp)) ?_
      rw [hpc]
      rfl
  | mapping =>
    rw [hpc] at hadvance
    simp only [advance, Option.some.injEq, Prod.mk.injEq] at hadvance
    obtain ⟨rfl, rfl⟩ := hadvance
    refine ⟨len, bs, free, h.quiet rfl rfl trivial rfl (fun a ha => absurd ha (by simp)) ?_⟩
    rw [hpc]
    rfl
  | readMem =>
    rw [hpc] at hadvance
    simp only [advance, Option.some.injEq, Prod.mk.injEq] at hadvance
    obtain ⟨rfl, rfl⟩ := hadvance
    have hnone : taken m (want i) (s.pc i) = 0 := by
      rw [hpc]
      rfl
    refine ⟨len, bs, free, h.quiet rfl rfl ?_ rfl ?_ hnone.symm⟩
    · have hroom := h.room hfit hnone
      have hpos := (requestClass_spec (n := want i) Prod.mk.eta.symm).2.1.pos
      have hstart := h.start_eq
      simp only [PcOk, heapMem]
      omega
    · exact fun _ _ j b _ hj => hclear hpc j b hj
  | bump mem =>
    rw [hpc] at hadvance
    simp only [advance, Option.some.injEq, Prod.mk.injEq] at hadvance
    obtain ⟨rfl, rfl⟩ := hadvance
    exact ⟨_, _, _, h.bumped hfit hpc⟩
  | header mem =>
    have hi := h.threads i
    rw [hpc] at hadvance hi
    have habove := h.arena.above hi.1
    simp only [advance, if_neg (show mem ≠ 0 by omega), Option.some.injEq, Prod.mk.injEq]
      at hadvance
    obtain ⟨rfl, rfl⟩ := hadvance
    exact ⟨_, _, _, h.headed hfit hpc⟩
  | done p => simp [hpc, advance] at hadvance

end Covered

/-! ### Safety, and what a race does -/

omit [DecidableEq ι] in
theorem Inv.covered (h : Inv l m) (want : ι → Nat) :
    ∃ len bs free, Covered l m want (calling m) len bs free := by
  obtain ⟨bs, harena, hperm⟩ := h.blocks
  have hnodup : (m.nodes ++ m.freed).Nodup := hperm.nodup_iff.mp harena.tiles.nodup
  refine ⟨m.blockSize, bs, m.freed, ?_⟩
  refine
    { start_eq := h.start_eq
      arena := harena
      freed := fun _ hb => hb
      old := fun b hb => hperm.mem_iff.mpr (List.mem_append_right _ hb)
      live := ?_
      threads := fun _ => trivial
      distinct := fun i j b hi => absurd hi (by simp [calling, owned])
      single := fun i j a b hi => absurd hi (by simp [calling])
      growth := ?_ }
  · intro b hb
    refine ⟨hperm.mem_iff.mpr (List.mem_append_left _ hb), fun hf => ?_, rfl⟩
    exact (List.nodup_append.mp hnodup).2.2 b hb b hf rfl
  · simp [calling, taken]

omit [DecidableEq ι] in
theorem Covered.safe (h : Covered l m want s len bs free) : Safe m want s := by
  have hdone : ∀ i p, s.pc i = .done p → p ≠ 0 → owned (s.pc i) = some (p - 16) ∧ 16 ≤ p ∧
      p - 16 ∈ bs ∧ p - 16 ∉ m.nodes ∧ sizeField s.kernel.mem (p - 16) = len (p - 16) := by
    intro i p hp hne
    have hi := h.threads i
    rw [hp] at hi
    obtain ⟨h16, hin, _, hlive, hstored⟩ := hi hne
    refine ⟨?_, h16, hin, hlive, hstored⟩
    rw [hp]
    exact if_neg hne
  refine ⟨?_, ?_, h.growth⟩
  · intro i j p q hij hp hq hpne hqne
    obtain ⟨howni, hp16, hpin, _, hpsize⟩ := hdone i p hp hpne
    obtain ⟨hownj, hq16, hqin, _, hqsize⟩ := hdone j q hq hqne
    have hne : p - 16 ≠ q - 16 := by
      intro heq
      rw [heq] at howni
      exact hij (h.distinct i j _ howni hownj)
    refine ⟨fun heq => hne (heq ▸ rfl), ?_⟩
    rw [hpsize, hqsize]
    exact h.arena.tiles.apart hpin hqin hne
  · intro i p hp hpne b hb
    obtain ⟨_, _, hpin, hplive, hpsize⟩ := hdone i p hp hpne
    obtain ⟨hbin, _, hbsize⟩ := h.live b hb
    rw [hpsize, ← hbsize]
    exact h.arena.tiles.apart hpin hbin fun heq => hplive (heq ▸ hb)

/-- The call has read `b` as the block it is going to return. -/
def Holds (pc : Pc) (b : Nat) : Prop := pc = .bump b ∨ pc = .header b ∨ pc = .done (payload b)

omit [Fintype ι] in
theorem holds_step {b : Nat} (hb : b ≠ 0) (hstep : ThreadStep l want s i t)
    (h : Holds (s.pc j) b) : Holds (t.pc j) b := by
  obtain ⟨fuel, k, pc, hadvance, rfl⟩ := hstep
  by_cases hij : j = i
  · subst hij
    simp only [Function.update_self]
    rcases h with h | h | h
    · simp only [h, advance, Option.some.injEq, Prod.mk.injEq] at hadvance
      exact Or.inr (Or.inl hadvance.2.symm)
    · simp only [h, advance, if_neg hb, Option.some.injEq, Prod.mk.injEq] at hadvance
      exact Or.inr (Or.inr hadvance.2.symm)
    · simp [h, advance] at hadvance
  · simp only [Function.update_of_ne hij]
    exact h

theorem not_safe_of_holds {b : Nat} {sched : List ι} (hb : b ≠ 0) (hp : payload b ≠ 0)
    (hij : i ≠ j) (hi : Holds (s.pc i) b) (hj : Holds (s.pc j) b)
    (hrun : Run (ThreadStep l want) s sched t) (hdone : ∀ i, ∃ p, t.pc i = .done p) :
    ¬ Safe m want t := by
  have hend : Holds (t.pc i) b ∧ Holds (t.pc j) b :=
    hrun.invariant (fun u => Holds (u.pc i) b ∧ Holds (u.pc j) b)
      (fun _ _ _ hu hstep => ⟨holds_step hb hstep hu.1, holds_step hb hstep hu.2⟩) ⟨hi, hj⟩
  have hreturned : ∀ a, Holds (t.pc a) b → t.pc a = .done (payload b) := by
    intro a ha
    obtain ⟨p, hp⟩ := hdone a
    rw [hp] at ha ⊢
    rcases ha with ha | ha | ha
    · exact absurd ha (by simp)
    · exact absurd ha (by simp)
    · exact ha
  intro hsafe
  exact (hsafe.disjoint i j _ _ hij (hreturned i hend.1) (hreturned j hend.2) hp hp).1 rfl

theorem Covered.race (h : Covered l m want s len bs free) (hfit : NoWrap l m want)
    (hrace : ¬ Unraced s i) (hstep : ThreadStep l want s i t) :
    ∃ j b, i ≠ j ∧ b ≠ 0 ∧ payload b ≠ 0 ∧ Holds (t.pc i) b ∧ Holds (t.pc j) b := by
  unfold Unraced at hrace
  push Not at hrace
  obtain ⟨hpc, j, b, hj⟩ := hrace
  have hij : i ≠ j := by
    rintro rfl
    exact absurd (hpc.symm.trans hj) (by simp)
  have hb : b = heapStart l + s.kernel.heap.ptr := by
    have hok := h.threads j
    rw [hj] at hok
    exact hok
  have hroom := h.room (i := i) hfit (by rw [hpc]; rfl)
  have hpos := (requestClass_spec (n := want i) Prod.mk.eta.symm).2.1.pos
  have hstart : 0 < heapStart l := Nat.succ_pos _
  have hmem : heapMem s.kernel.heap = b := by
    have hstart := h.start_eq
    unfold heapMem
    omega
  obtain ⟨fuel, k, pc, hadvance, rfl⟩ := hstep
  simp only [hpc, advance, hmem, Option.some.injEq, Prod.mk.injEq] at hadvance
  obtain ⟨_, rfl⟩ := hadvance
  refine ⟨j, b, hij, by omega, ?_, ?_, ?_⟩
  · unfold payload
    omega
  · exact Or.inl (Function.update_self _ _ _)
  · simp only [Function.update_of_ne hij.symm]
    exact Or.inl hj

theorem Covered.unraced_of_safe {sched : List ι} (h : Covered l m want s len bs free)
    (hfit : NoWrap l m want) (hrun : Run (ThreadStep l want) s sched t)
    (hdone : ∀ i, ∃ p, t.pc i = .done p) (hsafe : Safe m want t) :
    Run (Guarded (ThreadStep l want) Unraced) s sched t := by
  induction hrun generalizing len bs free with
  | nil s => exact .nil s
  | @cons s u t i sched hstep hrest ih =>
    by_cases hclear : Unraced s i
    · obtain ⟨_, _, _, hnext⟩ := h.step hfit hclear hstep
      exact .cons ⟨hclear, hstep⟩ (ih hnext hdone hsafe)
    · obtain ⟨j, b, hij, hb, hp, hi, hj⟩ := h.race hfit hclear hstep
      exact absurd hsafe (not_safe_of_holds hb hp hij hi hj hrest hdone)

/-- Concurrent calls are safe as long as no call reads `heap->ptr` while another is between
its reading and its addition, and when all have returned only then. -/
theorem concurrent_calls_safe_iff {k : Kernel} {as : List Action} (hboot : Boot l k)
    (hhistory : Run (Guarded (Step l) Allowed) ⟨k, [], []⟩ as m) (hfit : NoWrap l m want)
    {sched : List ι} (hrun : Run (ThreadStep l want) (calling m) sched t) :
    (Run (Guarded (ThreadStep l want) Unraced) (calling m) sched t → Safe m want t) ∧
      ((∀ i, ∃ p, t.pc i = .done p) →
        (Safe m want t ↔ Run (Guarded (ThreadStep l want) Unraced) (calling m) sched t)) := by
  obtain ⟨len, bs, free, hcovered⟩ := (Inv.of_run hboot hhistory).covered want
  have hsafe : Run (Guarded (ThreadStep l want) Unraced) (calling m) sched t → Safe m want t := by
    intro hguarded
    obtain ⟨_, _, _, hend⟩ := hguarded.invariant
      (fun u => ∃ len bs free, Covered l m want u len bs free)
      (fun _ _ _ ⟨_, _, _, hu⟩ hstep => hu.step hfit hstep.1 hstep.2) ⟨len, bs, free, hcovered⟩
    exact hend.safe
  refine ⟨hsafe, fun hdone => ⟨fun hs => ?_, hsafe⟩⟩
  exact hcovered.unraced_of_safe hfit hrun hdone hs

end

/-! ### Two calls for ten bytes -/

/-- The second call starts when the first has added to `heap->ptr`. -/
theorem concurrent_calls_safe_apart : ∃ t : Threads (Fin 2),
    t.pc 0 = .done 0xF0121010 ∧ t.pc 1 = .done 0xF0121050 ∧
      Safe ⟨bootKernel, [], []⟩ (fun _ => 10) t := by
  have hboot : Boot smallImage bootKernel := ⟨rfl, fun c => by cases c <;> rfl⟩
  have hfit : NoWrap smallImage ⟨bootKernel, [], []⟩ (fun _ : Fin 2 => 10) :=
    ⟨fun _ => by simp, by decide⟩
  obtain ⟨t, hrun, h0, h1⟩ : ∃ t : Threads (Fin 2),
      Run (Guarded (ThreadStep smallImage fun _ => 10) Unraced) (calling ⟨bootKernel, [], []⟩)
        [0, 0, 0, 0, 0, 1, 0, 1, 1, 1, 1, 1] t ∧
      t.pc 0 = .done 0xF0121010 ∧ t.pc 1 = .done 0xF0121050 := by
    refine ⟨_, .cons ⟨?_, 0, _, _, rfl, rfl⟩ <| .cons ⟨?_, 0, _, _, rfl, rfl⟩ <|
      .cons ⟨?_, 0, _, _, rfl, rfl⟩ <| .cons ⟨?_, 0, _, _, rfl, rfl⟩ <|
      .cons ⟨?_, 0, _, _, rfl, rfl⟩ <| .cons ⟨?_, 0, _, _, rfl, rfl⟩ <|
      .cons ⟨?_, 0, _, _, rfl, rfl⟩ <| .cons ⟨?_, 0, _, _, rfl, rfl⟩ <|
      .cons ⟨?_, 0, _, _, rfl, rfl⟩ <| .cons ⟨?_, 0, _, _, rfl, rfl⟩ <|
      .cons ⟨?_, 0, _, _, rfl, rfl⟩ <| .cons ⟨?_, 0, _, _, rfl, rfl⟩ <| .nil _, rfl, rfl⟩
    all_goals decide
  exact ⟨t, h0, h1, (concurrent_calls_safe_iff hboot (.nil _) hfit hrun.of_guarded).1 hrun⟩

/-- Both calls read `heap->ptr` before either has added to it. -/
theorem same_block_twice : ∃ t : Threads (Fin 2),
    NoWrap smallImage ⟨bootKernel, [], []⟩ (fun _ : Fin 2 => 10) ∧
      Run (ThreadStep smallImage fun _ => 10) (calling ⟨bootKernel, [], []⟩)
        [0, 0, 0, 0, 1, 1, 1, 1, 0, 0, 1, 1] t ∧
      t.pc 0 = .done 0xF0121010 ∧ t.pc 1 = .done 0xF0121010 ∧
      ¬ Safe ⟨bootKernel, [], []⟩ (fun _ => 10) t := by
  obtain ⟨t, hrun, h0, h1⟩ : ∃ t : Threads (Fin 2),
      Run (ThreadStep smallImage fun _ => 10) (calling ⟨bootKernel, [], []⟩)
        [0, 0, 0, 0, 1, 1, 1, 1, 0, 0, 1, 1] t ∧
      t.pc 0 = .done 0xF0121010 ∧ t.pc 1 = .done 0xF0121010 :=
    ⟨_, .cons ⟨0, _, _, rfl, rfl⟩ <| .cons ⟨0, _, _, rfl, rfl⟩ <| .cons ⟨0, _, _, rfl, rfl⟩ <|
      .cons ⟨0, _, _, rfl, rfl⟩ <| .cons ⟨0, _, _, rfl, rfl⟩ <| .cons ⟨0, _, _, rfl, rfl⟩ <|
      .cons ⟨0, _, _, rfl, rfl⟩ <| .cons ⟨0, _, _, rfl, rfl⟩ <| .cons ⟨0, _, _, rfl, rfl⟩ <|
      .cons ⟨0, _, _, rfl, rfl⟩ <| .cons ⟨0, _, _, rfl, rfl⟩ <| .cons ⟨0, _, _, rfl, rfl⟩ <| .nil _,
      rfl, rfl⟩
  refine ⟨t, ⟨fun _ => by simp, by decide⟩, hrun, h0, h1, fun hsafe => ?_⟩
  exact (hsafe.disjoint 0 1 _ _ (by decide) h0 h1 (by decide) (by decide)).1 rfl

end OsdevCourse.Kmalloc
