import OsdevCourse.AddressSpace
import OsdevCourse.MmuExhaustion
import OsdevCourse.Kmalloc
import Mathlib.Order.Interval.Finset.Nat

/-!
# A heap that grows by any amount

`heap_alloc` over the memory manager. The sizes come from user programs by `sbrk`: the sum with
the break is taken modulo `2 ^ 32`, so a large size moves the break down. Pages that were below
the break before stay mapped.

A page table that is missing takes a frame of the pool.
-/

namespace OsdevCourse.Mmu

set_option autoImplicit false

open PageEntry
open Kmalloc (Heap Mapping heapFull heapMap heapMem heapBump)

def heapCreate (start size flag : Nat) : Heap where
  start := start
  ptr := 0
  size := size
  flag := flag

section Calls
variable (fault : Fault)

/-- The calls of `mmu_mmap`; `heap_alloc` does not look at their results. -/
def mapAll : List Mapping → State → Option State
  | [], s => some s
  | m :: ms, s => do
    let (_, s) ← mmuMmap fault m.addr 0#32 m.size (BitVec.ofNat 32 m.flag) s
    mapAll ms s

def heapAlloc (heap : Heap) (size : Nat) (s : State) : Option (Nat × Heap × State) :=
  if heapFull heap size then some (0, heap, s)
  else do
    let s ← mapAll fault (heapMap heap size) s
    some (heapMem heap, heapBump heap size, s)

theorem heapAlloc_kmalloc {k : Kmalloc.Kernel} {heap : Heap} {size p : Nat} {s s' : State}
    (hr : heapAlloc fault k.heap size s = some (p, heap, s')) :
    (Kmalloc.heapAlloc size k).2 = p ∧ (Kmalloc.heapAlloc size k).1.heap = heap ∧
    mapAll fault ((Kmalloc.heapAlloc size k).1.mapped.drop k.mapped.length) s = some s' := by
  unfold heapAlloc at hr
  unfold Kmalloc.heapAlloc
  split at hr
  · rename_i hfull
    rw [if_pos hfull, List.drop_length]
    cases hr
    exact ⟨rfl, rfl, rfl⟩
  · rename_i hfull
    rw [if_neg hfull, List.drop_left]
    simp only [Option.bind_eq_bind, Option.bind_eq_some_iff, Option.some.injEq, Prod.mk.injEq] at hr
    obtain ⟨t, hmap, hmem, hbump, rfl⟩ := hr
    exact ⟨hmem, hbump, hmap⟩

end Calls

/-- The page tables that the pages from `lo` to `hi` lack. -/
def missingTables (s : State) (lo hi : Nat) : Finset Nat :=
  (Finset.Ico (lo / 1024) ((hi + 1023) / 1024)).filter fun d => present (s.mem s.cr3 d) = false

theorem mem_missingTables {s : State} {lo hi d : Nat} :
    d ∈ missingTables s lo hi ↔
      (lo / 1024 ≤ d ∧ d < (hi + 1023) / 1024) ∧ present (s.mem s.cr3 d) = false := by
  unfold missingTables
  rw [Finset.mem_filter, Finset.mem_Ico]

/-! ### Pages in a row are marked -/

/-- What marking the pages from `lo` to `hi` does to the entries. -/
structure MarkedRow (lo hi : Nat) (flag : Word) (s s' : State) : Prop where
  pages : ∀ addr < 2 ^ 32, lo ≤ addr / 4096 → addr / 4096 < hi → MarkedWith flag (entry s' addr)
  others : ∀ addr < mmuPtVma, ¬ (lo ≤ addr / 4096 ∧ addr / 4096 < hi) →
    entry s' addr = entry s addr
  kept : ∀ addr, present (entry s addr) = true →
    present (entry s' addr) = true ∧ frameOf (entry s' addr) = frameOf (entry s addr)
  marks : ∀ addr < 2 ^ 32, ∀ prot, ¬ (lo ≤ addr / 4096 ∧ addr / 4096 < hi) →
    MarkedWith prot (entry s addr) → MarkedWith prot (entry s' addr)

theorem MarkedRow.refl {lo hi : Nat} (hle : hi ≤ lo) (flag : Word) (s : State) :
    MarkedRow lo hi flag s s := by
  refine ⟨?_, fun _ _ _ => rfl, fun _ hold => ⟨hold, rfl⟩, fun _ _ _ _ hold => hold⟩
  intro addr _ hlow hhigh
  omega

theorem samePage_iff {addr other : Nat} (haddr : addr < 2 ^ 32) (hother : other < 2 ^ 32) :
    SamePage other addr ↔ other / 4096 = addr / 4096 := by
  unfold SamePage
  rw [mmuPdIndex_eq haddr, mmuPdIndex_eq hother, mmuPtIndex_eq, mmuPtIndex_eq]
  omega

theorem samePage_ptSlot_high {addr other : Nat} (hother : other < mmuPtVma) :
    ¬ SamePage other (ptSlot addr) := by
  intro hsame
  have hd := (samePage_ptSlot.1 hsame).1
  unfold mmuPtVma at hother
  rw [mmuPdIndex_eq (by omega)] at hd
  omega

theorem MarkedRow.cons {p hi : Nat} {flag : Word} {s s₁ s' : State} (hp : p < 2 ^ 20)
    (hlow : p < hi) (hpage : MarkedPages (4096 * p) flag s s₁)
    (hrow : MarkedRow (p + 1) hi flag s₁ s') : MarkedRow p hi flag s s' := by
  have hsame : ∀ addr < 2 ^ 32, SamePage addr (4096 * p) ↔ addr / 4096 = p := by
    intro addr haddr
    rw [samePage_iff (by omega) haddr, Nat.mul_div_cancel_left p (by omega)]
  refine ⟨?_, ?_, ?_, ?_⟩
  · intro addr haddr hl hh
    cases Classical.em (addr / 4096 = p) with
    | inl heq =>
      apply hrow.marks addr haddr flag (by omega)
      rw [entry_samePage ((hsame addr haddr).2 heq)]
      exact hpage.page
    | inr hne => exact hrow.pages addr haddr (by omega) hh
  · intro addr haddr hout
    have hbelow : addr < 2 ^ 32 := by
      unfold mmuPtVma at haddr
      omega
    rw [hrow.others addr haddr (by omega), hpage.others addr ?_ (samePage_ptSlot_high haddr)]
    rw [hsame addr hbelow]
    omega
  · intro addr hold
    obtain ⟨hmiddle, hframe⟩ := hpage.kept addr hold
    obtain ⟨hnew, hframe'⟩ := hrow.kept addr hmiddle
    exact ⟨hnew, hframe'.trans hframe⟩
  · intro addr haddr prot hout hold
    apply hrow.marks addr haddr prot (by omega)
    apply hpage.marks addr prot ?_ hold
    rw [hsame addr haddr]
    omega

theorem MarkedPages.missing {p hi : Nat} {flag : Word} {s s₁ : State} (hself : SelfMapped s)
    (hself₁ : SelfMapped s₁) (hlow : p < hi) (hhigh : hi ≤ 2 ^ 20)
    (hpage : MarkedPages (4096 * p) flag s s₁)
    (hroom : (missingTables s p hi).card ≤ s.framesIndex) :
    (missingTables s₁ (p + 1) hi).card ≤ s₁.framesIndex := by
  have hd : mmuPdIndex (4096 * p) = p / 1024 := by
    rw [mmuPdIndex_eq (by omega), Nat.mul_div_cancel_left p (by omega)]
  have htable : present (s₁.mem s₁.cr3 (p / 1024)) = true := by
    rw [← hd, ← hself₁.entry_ptSlot]
    exact hpage.table
  have hsub : missingTables s₁ (p + 1) hi ⊆ (missingTables s p hi).erase (p / 1024) := by
    intro d hmem
    obtain ⟨⟨hl, hh⟩, habsent⟩ := mem_missingTables.1 hmem
    have hne : d ≠ p / 1024 := by
      intro heq
      rw [heq, htable] at habsent
      exact absurd habsent (by simp)
    apply Finset.mem_erase.2
    refine ⟨hne, mem_missingTables.2 ⟨⟨by omega, hh⟩, ?_⟩⟩
    cases hold : present (s.mem s.cr3 d) with
    | false => rfl
    | true =>
      have hindex : mmuPdIndex (d * 2 ^ 22) = d := by
        unfold mmuPdIndex
        rw [Nat.mul_div_cancel d (by omega), Nat.mod_eq_of_lt (by omega)]
      have hkept := hpage.kept (ptSlot (d * 2 ^ 22))
      rw [hself.entry_ptSlot, hself₁.entry_ptSlot, hindex] at hkept
      rw [(hkept hold).1] at habsent
      exact absurd habsent (by simp)
  have hindex := hpage.index
  rw [hd] at hindex
  have hcard := Finset.card_le_card hsub
  cases hold : present (s.mem s.cr3 (p / 1024)) with
  | true =>
    have hle := Finset.card_erase_le (s := missingTables s p hi) (a := p / 1024)
    rw [hold, if_pos rfl] at hindex
    omega
  | false =>
    have hmem : p / 1024 ∈ missingTables s p hi :=
      mem_missingTables.2 ⟨⟨Nat.le_refl _, by omega⟩, hold⟩
    rw [Finset.card_erase_of_mem hmem] at hcard
    rw [hold, if_neg (by simp)] at hindex
    have hpos := Finset.card_pos.2 ⟨_, hmem⟩
    omega

theorem ActiveSpace.markPages {k : Kernel} {flag : Word} (hflag : flag &&& mmuPageNoalloc = 0#32)
    (depth n : Nat) {role : Word → Role} {s : State} (h : ActiveSpace k role s) {p : Nat}
    (hend : p + n < 2 ^ 20) (hroom : (missingTables s p (p + n)).card ≤ s.framesIndex ∨ n = 0)
    (paddr : Word) :
    ∃ role' s', Mmu.markPages (pageFault k (depth + 1)) n (4096 * p) paddr flag s =
      some (true, s') ∧
      ActiveSpace k role' s' ∧ s'.cr3 = s.cr3 ∧ MarkedRow p (p + n) flag s s' := by
  induction n generalizing role s p paddr with
  | zero => exact ⟨role, s, rfl, h, rfl, .refl (Nat.le_refl _) flag s⟩
  | succ n ih =>
    have hcard : (missingTables s p (p + (n + 1))).card ≤ s.framesIndex := by
      cases hroom with
      | inl hle => exact hle
      | inr hzero => exact absurd hzero (by omega)
    have hd : mmuPdIndex (4096 * p) = p / 1024 := by
      rw [mmuPdIndex_eq (by omega), Nat.mul_div_cancel_left p (by omega)]
    have hpos : present (s.mem s.cr3 (mmuPdIndex (4096 * p))) = false → 0 < s.framesIndex := by
      intro habsent
      rw [hd] at habsent
      have hmem : p / 1024 ∈ missingTables s p (p + (n + 1)) :=
        mem_missingTables.2 ⟨⟨Nat.le_refl _, by omega⟩, habsent⟩
      have hcount := Finset.card_pos.2 ⟨_, hmem⟩
      omega
    obtain ⟨role₁, s₁, hmark, h₁, hpage⟩ := h.mmuMark_pages hflag hpos depth paddr
    have hmissing := hpage.missing h.self h₁.self (by omega) (by omega) hcard
    rw [← Nat.add_assoc, Nat.add_right_comm p n 1] at hmissing
    obtain ⟨role', s', hrest, h', hcr3, hrow⟩ :=
      ih h₁ (p := p + 1) (by omega) (.inl hmissing) (paddr + 4096#32)
    refine ⟨role', s', ?_, h', hcr3.trans hpage.cr3, ?_⟩
    · simp only [Mmu.markPages, hmark, Option.bind_eq_bind, Option.bind_some, if_true]
      rw [Nat.mul_add] at hrest
      exact hrest
    · have heq : p + 1 + n = p + (n + 1) := by omega
      rw [heq] at hrow
      exact .cons (by omega) (by omega) hpage hrow

/-! ### The heap and the memory manager -/

structure Growth where
  heap : Heap
  state : State

/-- A call of `heap_alloc`, or an access to a page that is not present. -/
inductive GrowthOp where
  | alloc (size : Nat)
  | touch (addr : Nat)

inductive GrowthStep (k : Kernel) : Growth → GrowthOp → Growth → Prop where
  | alloc {g : Growth} {depth size ret : Nat} {heap : Heap} {s : State} :
      size < 2 ^ 32 → heapAlloc (pageFault k (depth + 1)) g.heap size g.state =
        some (ret, heap, s) →
      GrowthStep k g (.alloc size) ⟨heap, s⟩
  | touch {g : Growth} {depth addr : Nat} {s : State} :
      translate g.state addr = none → pageFault k depth addr g.state = some s →
      GrowthStep k g (.touch addr) { g with state := s }

/-- The page tables that a call of `heap_alloc` makes. -/
def tablesWanted (heap : Heap) (size : Nat) (s : State) : Nat :=
  ((heapMap heap size).map fun m =>
    (missingTables s (m.addr / 4096) ((m.addr + m.size) / 4096)).card).sum

/-- The pool has the frames that a step takes. -/
def HasFrames (g : Growth) : GrowthOp → Prop
  | .alloc size => heapFull g.heap size ∨ tablesWanted g.heap size g.state ≤ g.state.framesIndex
  | .touch _ => 0 < g.state.framesIndex

/-- The break is below the end, and the pages of the bytes below it are marked with the
protection of the heap. -/
structure HeapOk (start size flag : Nat) (g : Growth) : Prop where
  start_eq : g.heap.start = start
  size_eq : g.heap.size = size
  flag_eq : g.heap.flag = flag
  ptr_lt : g.heap.ptr < g.heap.size
  marked : ∀ addr, start ≤ addr → addr < start + g.heap.ptr →
    MarkedWith (BitVec.ofNat 32 flag) (entry g.state addr)

/-- What a call of `heap_alloc` may do. -/
structure Allocated (heap : Heap) (size : Nat) (s : State) (r : Nat × Heap × State) : Prop where
  result : r.1 = 0 ∧ r.2.1 = heap ∧ r.2.2 = s ∨
    r.1 = heap.start + heap.ptr ∧ r.2.1 = { heap with ptr := (heap.ptr + size) % 2 ^ 32 }
  others : ∀ addr < mmuPtVma,
    (∀ byte, heap.start ≤ byte → byte < heap.start + heap.size → byte / 4096 ≠ addr / 4096) →
      entry r.2.2 addr = entry s addr
  kept : ∀ addr, present (entry s addr) = true →
    present (entry r.2.2 addr) = true ∧ frameOf (entry r.2.2 addr) = frameOf (entry s addr)

theorem prot_flag {flag : Nat} (h : flag &&& mmuProtMask.toNat = flag) :
    flag &&& Kmalloc.HEAP_ALLOC_NOALLOC = 0 ∧ flag &&& 0xFFFF = flag ∧
      BitVec.ofNat 32 flag &&& mmuPageNoalloc = 0#32 := by
  have hle : flag ≤ mmuProtMask.toNat := by
    rw [← h]
    exact Nat.and_le_right
  have hsix : mmuProtMask.toNat = 6 := by decide
  have hall : ∀ f < 7, f &&& 6 = f → f &&& Kmalloc.HEAP_ALLOC_NOALLOC = 0 ∧ f &&& 0xFFFF = f ∧
      BitVec.ofNat 32 f &&& mmuPageNoalloc = 0#32 := by decide
  rw [hsix] at hle h
  exact hall flag (by omega) h

theorem ActiveSpace.mapAll {k : Kernel} {role : Word → Role} {s : State}
    (h : ActiveSpace k role s) {lo hi flag : Nat} (hhi : hi < 2 ^ 20)
    (hflag : BitVec.ofNat 32 flag &&& mmuPageNoalloc = 0#32)
    (hroom : lo < hi → (missingTables s lo hi).card ≤ s.framesIndex) (depth : Nat) :
    ∃ role' s', Mmu.mapAll (pageFault k (depth + 1))
        (if lo < hi then [{ addr := 4096 * lo, size := 4096 * (hi - lo), flag := flag }] else [])
          s = some s' ∧
      ActiveSpace k role' s' ∧ MarkedRow lo hi (BitVec.ofNat 32 flag) s s' := by
  cases Nat.lt_or_ge lo hi with
  | inr hge =>
    rw [if_neg (by omega)]
    exact ⟨role, s, rfl, h, .refl hge _ s⟩
  | inl hlt =>
    have hcount : pageCount (4096 * (hi - lo)) = some (hi - lo) := by
      unfold pageCount
      rw [if_pos (by omega), Option.some.injEq]
      omega
    have heq : lo + (hi - lo) = hi := by omega
    have hcard := hroom hlt
    rw [← heq] at hcard
    obtain ⟨role', s', hmarks, h', _, hrow⟩ :=
      h.markPages hflag depth (hi - lo) (by omega) (.inl hcard) 0#32
    rw [heq] at hrow
    rw [if_pos hlt]
    refine ⟨role', s', ?_, h', hrow⟩
    simp only [Mmu.mapAll, mmuMmap, hcount, hmarks, Option.bind_eq_bind, Option.bind_some]

section Call
variable {start size flag : Nat} (hfits : start + size + 4095 < 2 ^ 32)
  (hflag : flag &&& mmuProtMask.toNat = flag)
include hfits hflag

/-- The pages a call maps: from the page of the old break to the page of the last byte below the
new one. -/
theorem heapMap_pages {heap : Heap} {n : Nat} (hstart : heap.start = start)
    (hsize : heap.size = size) (hheap : heap.flag = flag) (hptr : heap.ptr < heap.size)
    (hroom : ¬ heapFull heap n) :
    heapMap heap n =
      if (start + heap.ptr) / 4096 < (start + (heap.ptr + n) % 2 ^ 32 + 4095) / 4096 then
        [{ addr := 4096 * ((start + heap.ptr) / 4096),
           size := 4096 * ((start + (heap.ptr + n) % 2 ^ 32 + 4095) / 4096 -
             (start + heap.ptr) / 4096),
           flag := flag }]
      else [] := by
  obtain ⟨hnoalloc, hlow, _⟩ := prot_flag hflag
  unfold heapFull at hroom
  have hbreak : (heap.ptr + n) % 2 ^ 32 < size := by omega
  have hfirst : (heap.start + heap.ptr) % 2 ^ 32 / 4096 * 4096 =
      4096 * ((start + heap.ptr) / 4096) := by
    rw [hstart, Nat.mod_eq_of_lt (by omega), Nat.mul_comm]
  have hlast : (heap.start + heap.ptr + n + 4095) % 2 ^ 32 / 4096 * 4096 =
      4096 * ((start + (heap.ptr + n) % 2 ^ 32 + 4095) / 4096) := by
    have hmod : (heap.start + heap.ptr + n + 4095) % 2 ^ 32 =
        start + (heap.ptr + n) % 2 ^ 32 + 4095 := by
      rw [hstart]
      omega
    rw [hmod, Nat.mul_comm]
  unfold heapMap
  rw [hheap, hnoalloc, if_pos rfl, hlow, hfirst, hlast]
  have hiff : 4096 * ((start + heap.ptr) / 4096) <
      4096 * ((start + (heap.ptr + n) % 2 ^ 32 + 4095) / 4096) ↔
        (start + heap.ptr) / 4096 < (start + (heap.ptr + n) % 2 ^ 32 + 4095) / 4096 :=
    Nat.mul_lt_mul_left (by omega)
  simp only [hiff, Nat.mul_sub]

theorem ActiveSpace.heapAlloc {k : Kernel} {role : Word → Role} {g : Growth}
    (h : ActiveSpace k role g.state) (hok : HeapOk start size flag g) {n : Nat}
    (hframes : HasFrames g (.alloc n)) (depth : Nat) :
    ∃ r role', Mmu.heapAlloc (pageFault k (depth + 1)) g.heap n g.state = some r ∧
      Allocated g.heap n g.state r ∧ ActiveSpace k role' r.2.2 ∧
      HeapOk start size flag ⟨r.2.1, r.2.2⟩ := by
  obtain ⟨hstart, hsize, hheap, hptr, hmarked⟩ := hok
  cases Classical.em (heapFull g.heap n) with
  | inl hfull =>
    refine ⟨(0, g.heap, g.state), role, if_pos hfull, ⟨.inl ⟨rfl, rfl, rfl⟩, fun _ _ _ => rfl,
      fun _ hold => ⟨hold, rfl⟩⟩, h, ⟨hstart, hsize, hheap, hptr, hmarked⟩⟩
  | inr hroom =>
    have hmap := heapMap_pages hfits hflag hstart hsize hheap hptr hroom
    have hwanted : tablesWanted g.heap n g.state ≤ g.state.framesIndex := by
      cases hframes with
      | inl hfull => exact absurd hfull hroom
      | inr hle => exact hle
    have hbreak : (g.heap.ptr + n) % 2 ^ 32 < size := by
      unfold heapFull at hroom
      omega
    have hbreak' : (g.heap.ptr + n) % 2 ^ 32 < g.heap.size := by omega
    have hmem : heapMem g.heap = g.heap.start + g.heap.ptr := by
      unfold heapMem
      rw [Nat.mod_eq_of_lt (by omega)]
    obtain ⟨_, _, hdemand⟩ := prot_flag hflag
    have htables : (start + g.heap.ptr) / 4096 < (start + (g.heap.ptr + n) % 2 ^ 32 + 4095) / 4096 →
        (missingTables g.state ((start + g.heap.ptr) / 4096)
          ((start + (g.heap.ptr + n) % 2 ^ 32 + 4095) / 4096)).card ≤ g.state.framesIndex := by
      intro hlt
      unfold tablesWanted at hwanted
      rw [hmap, if_pos hlt, List.map_cons, List.map_nil, List.sum_singleton] at hwanted
      simp only [← Nat.mul_add, Nat.add_sub_cancel' (Nat.le_of_lt hlt),
        Nat.mul_div_cancel_left _ (show 0 < 4096 from by omega)] at hwanted
      exact hwanted
    obtain ⟨role', s', hmapped, h', hrow⟩ := h.mapAll (by omega) hdemand htables depth
    rw [← hmap] at hmapped
    refine ⟨(heapMem g.heap, heapBump g.heap n, s'), role', ?_, ⟨.inr ⟨hmem, rfl⟩, ?_, hrow.kept⟩,
      h', ⟨hstart, hsize, hheap, hbreak', ?_⟩⟩
    · unfold Mmu.heapAlloc
      rw [if_neg hroom, hmapped]
      rfl
    · intro addr haddr hout
      apply hrow.others addr haddr
      intro hand
      -- A page of the row has the old break in it or begins between the two breaks.
      cases Nat.eq_or_lt_of_le hand.1 with
      | inl heq => exact hout (start + g.heap.ptr) (by omega) (by omega) heq
      | inr hlt => exact hout (addr / 4096 * 4096) (by omega) (by omega) (by omega)
    · intro addr hlow hhigh
      have hnew : addr < start + (g.heap.ptr + n) % 2 ^ 32 := hhigh
      cases Classical.em ((start + g.heap.ptr) / 4096 ≤ addr / 4096 ∧
          addr / 4096 < (start + (g.heap.ptr + n) % 2 ^ 32 + 4095) / 4096) with
      | inl hin => exact hrow.pages addr (by omega) hin.1 hin.2
      | inr hout =>
        apply hrow.marks addr (by omega) _ hout
        exact hmarked addr hlow (by omega)

omit hfits hflag in
theorem HeapOk.touch {k : Kernel} {role : Word → Role} {g : Growth}
    (h : ActiveSpace k role g.state) (hok : HeapOk start size flag g)
    (hpos : 0 < g.state.framesIndex)
    {addr depth : Nat} {s : State} (hunmapped : translate g.state addr = none)
    (hr : pageFault k depth addr g.state = some s) :
    (∃ role', ActiveSpace k role' s) ∧ HeapOk start size flag { g with state := s } := by
  obtain ⟨hpde, habsent, heq⟩ := h.fault_cases hunmapped hpos hr
  obtain ⟨hisFrame, _⟩ := h.top_pool hpos
  have hentries := h.faultIn_entry hpde habsent hpos
  rw [← heq] at hentries
  refine ⟨⟨_, heq ▸ h.faultIn_space hpde habsent hpos⟩, ⟨hok.start_eq, hok.size_eq, hok.flag_eq,
    hok.ptr_lt, ?_⟩⟩
  intro byte hlow hhigh
  have hmarked := hok.marked byte hlow hhigh
  rw [hentries]
  split
  · rename_i hsame
    rw [entry_samePage hsame] at hmarked
    exact hmarked.installed hisFrame
  · exact hmarked

theorem GrowthStep.heapOk {k : Kernel} {g g' : Growth} {op : GrowthOp}
    (hstep : GrowthStep k g op g') (hframes : HasFrames g op) {role : Word → Role}
    (h : ActiveSpace k role g.state) (hok : HeapOk start size flag g) :
    (∃ role', ActiveSpace k role' g'.state) ∧ HeapOk start size flag g' := by
  cases hstep with
  | alloc _ hr =>
    obtain ⟨r, role', heq, _, h', hok'⟩ := h.heapAlloc hfits hflag hok hframes _
    rw [heq, Option.some.injEq] at hr
    rw [hr] at h' hok'
    exact ⟨⟨role', h'⟩, hok'⟩
  | touch hunmapped hr => exact hok.touch h hframes hunmapped hr

end Call

/-! ### Every history of a heap -/

section Runs
variable {k : Kernel} {ram : Memory} {map : List Region} {depth : Nat} {s : State}

theorem heap_grows_by_any_size (hdistinct : (usableFrames k map).Nodup)
    (hinit : mmuInit k (pageFault k depth) map (bootState k ram) = some s) {x : Spaces}
    (hrun : Reachable
      (Guarded (Spaces.Step k (pageFaultFed k)) (Spaces.Allowed k fun _ => True))
      (Spaces.start k s) x)
    (hself : frameOf (x.state.mem x.state.cr3 1023) = x.state.cr3) {start size flag : Nat}
    (hsize : 0 < size) (hfits : start + size + 4095 < 2 ^ 32)
    (hflag : flag &&& mmuProtMask.toNat = flag) {g : Growth}
    (hgrow : Reachable (Guarded (GrowthStep k) HasFrames) ⟨heapCreate start size flag, x.state⟩ g) :
    HeapOk start size flag g ∧ ∀ n < 2 ^ 32, HasFrames g (.alloc n) → ∀ depth,
      ∃ r, heapAlloc (pageFault k (depth + 1)) g.heap n g.state = some r ∧
        Allocated g.heap n g.state r := by
  obtain ⟨ptIndex, hfilling, hlow⟩ := mmuInit_filling hdistinct hinit
  have hpool : ∀ f ∈ usableFrames k map, PoolFrame k f := usableFrames_poolFrame
  obtain ⟨role, hroles⟩ := reachable_roles hrun
    (hfilling.start_roles hpool hdistinct hlow (fun _ => True) fun _ _ => True.intro)
  have hinv := hgrow.invariant
    (fun g => (∃ role, ActiveSpace k role g.state) ∧ HeapOk start size flag g)
    (fun g op g' hg hstep => hg.1.elim fun _ h => hstep.2.heapOk hfits hflag hstep.1 h hg.2)
    ⟨⟨role, hroles.activeSpace hself⟩, rfl, rfl, rfl, hsize, fun addr hl hh => by
      simp only [heapCreate] at hh
      omega⟩
  obtain ⟨⟨role', h⟩, hok⟩ := hinv
  refine ⟨hok, ?_⟩
  intro n _ hframes depth
  obtain ⟨r, _, heq, hallocated, _⟩ := h.heapAlloc hfits hflag hok hframes depth
  exact ⟨r, heq, hallocated⟩

end Runs

/-! ### The small machine -/

/-- A heap of three pages. -/
def smallHeap : Heap := heapCreate 0x400000 0x3000 6

def smallGrown : Nat × Heap × State :=
  (heapAlloc (pageFault smallKernel 4) smallHeap 0x1800 smallStart).get (by decide +kernel)

/-- Its first page is touched. -/
def smallGrownTouched : State :=
  (pageFault smallKernel 4 0x400004 smallGrown.2.2).get (by decide +kernel)

/-- The break moves down by `0x1000`. -/
def smallShrunk : Nat × Heap × State :=
  (heapAlloc (pageFault smallKernel 4) smallGrown.2.1 0xFFFFF000 smallGrownTouched).get
    (by decide +kernel)

theorem heap_grows_by_any_size_small :
    HeapOk 0x400000 0x3000 6 ⟨smallShrunk.2.1, smallShrunk.2.2⟩ ∧ ∀ n < 2 ^ 32,
      HasFrames ⟨smallShrunk.2.1, smallShrunk.2.2⟩ (.alloc n) → ∀ depth,
        ∃ r, heapAlloc (pageFault smallKernel (depth + 1)) smallShrunk.2.1 n smallShrunk.2.2 =
            some r ∧
          Allocated smallShrunk.2.1 n smallShrunk.2.2 r := by
  have hinit : smallInit [smallRam 4] = some smallStart := (Option.some_get _).symm
  have halloc : heapAlloc (pageFault smallKernel 4) smallHeap 0x1800 smallStart =
      some smallGrown := (Option.some_get _).symm
  have htouch : pageFault smallKernel 4 0x400004 smallGrown.2.2 = some smallGrownTouched :=
    (Option.some_get _).symm
  have hshrink : heapAlloc (pageFault smallKernel 4) smallGrown.2.1 0xFFFFF000 smallGrownTouched =
      some smallShrunk := (Option.some_get _).symm
  have hgrown : GrowthStep smallKernel ⟨smallHeap, smallStart⟩ (.alloc 0x1800)
      ⟨smallGrown.2.1, smallGrown.2.2⟩ := .alloc (by omega) halloc
  have htouched : GrowthStep smallKernel ⟨smallGrown.2.1, smallGrown.2.2⟩ (.touch 0x400004)
      ⟨smallGrown.2.1, smallGrownTouched⟩ := .touch (by decide +kernel) htouch
  have hshrunk : GrowthStep smallKernel ⟨smallGrown.2.1, smallGrownTouched⟩ (.alloc 0xFFFFF000)
      ⟨smallShrunk.2.1, smallShrunk.2.2⟩ := .alloc (by omega) hshrink
  have hframes₁ : HasFrames ⟨smallHeap, smallStart⟩ (.alloc 0x1800) := .inr (by decide +kernel)
  have hframes₂ : HasFrames ⟨smallGrown.2.1, smallGrown.2.2⟩ (.touch 0x400004) := by
    unfold HasFrames
    decide +kernel
  have hframes₃ : HasFrames ⟨smallGrown.2.1, smallGrownTouched⟩ (.alloc 0xFFFFF000) :=
    .inr (by decide +kernel)
  exact heap_grows_by_any_size (by decide +kernel) hinit ⟨[], .nil _⟩ (by decide +kernel)
    (by omega) (by omega) (by decide)
    ⟨_, .cons ⟨hframes₁, hgrown⟩ (.cons ⟨hframes₂, htouched⟩ (.single ⟨hframes₃, hshrunk⟩))⟩

/-- A heap over two page tables, where one page table has taken the only frame. -/
def scarceGrown : Nat × Heap × State :=
  (heapAlloc (pageFault smallKernel 4) (heapCreate 0xBFF000 0x3000 6) 0x1800 scarceFirst.2).get
    (by decide +kernel)

/-- Both page tables are the frame `0`: clearing it for the second takes the mark in the first. -/
theorem empty_pool_loses_mark : smallInit [smallRam 1] = some scarceStart ∧
    (∃ x, Reachable (Guarded (Spaces.Step smallKernel (pageFault smallKernel))
        (Spaces.Allowed smallKernel fun _ => True)) (Spaces.start smallKernel scarceStart) x ∧
      x.state = scarceFirst.2) ∧
    frameOf (scarceFirst.2.mem scarceFirst.2.cr3 1023) = scarceFirst.2.cr3 ∧
    GrowthStep smallKernel ⟨heapCreate 0xBFF000 0x3000 6, scarceFirst.2⟩ (.alloc 0x1800)
      ⟨scarceGrown.2.1, scarceGrown.2.2⟩ ∧
    ¬ HeapOk 0xBFF000 0x3000 6 ⟨scarceGrown.2.1, scarceGrown.2.2⟩ := by
  have halloc : heapAlloc (pageFault smallKernel 4) (heapCreate 0xBFF000 0x3000 6) 0x1800
      scarceFirst.2 = some scarceGrown := (Option.some_get _).symm
  refine ⟨(Option.some_get _).symm, ⟨_, ⟨_, .single ⟨demand_allowed
    ⟨by decide, by simp [imagePage, smallKernel]⟩, step_scarceFirst⟩⟩, rfl⟩, by decide +kernel,
    .alloc (by omega) halloc, ?_⟩
  intro hok
  have hptr : scarceGrown.2.1.ptr = 0x1800 := by decide +kernel
  have hlost : entry scarceGrown.2.2 0xBFF000 = 0#32 := by decide +kernel
  have hmarked := hok.marked 0xBFF000 (by omega) (by rw [hptr]; omega)
  rw [hlost] at hmarked
  cases hmarked.1 with
  | inl hpresent => exact absurd hpresent (by decide)
  | inr hdemand => exact absurd hdemand (by decide)

end OsdevCourse.Mmu
