import OsdevCourse.MmuClone
import OsdevCourse.VmaAlloc

/-!
# Device windows

`vma_alloc` hands out addresses byte by byte; its callers then map physical memory there,
page by page, and a page that is present is refused. Regions whose sizes are whole pages take
consecutive pages, and each call of `mmu_mmap` finds its pages free.
-/

namespace OsdevCourse.Mmu

set_option autoImplicit false

open PageEntry
open Kmalloc (Heap heapFull heapBump)
open VmaAlloc (kheapVmaalloc vmaAlloc bumped heapFull_bumped vmaAlloc_bumped)

structure Request where
  paddr : Word
  size : Nat

structure Window where
  v : Nat
  request : Request
  ok : Bool

/-- `vma_alloc` and `mmu_mmap` the way `probe_initrd` calls them. -/
def mapWindow (fault : Fault) (r : Request) (h : Heap) (s : State) :
    Option (Window × Heap × State) := do
  let (h, v) := vmaAlloc h r.size
  let (ok, s) ← mmuMmap fault v r.paddr r.size mmuPageNoalloc s
  some (⟨v, r, ok⟩, h, s)

def mapWindows (fault : Fault) : List Request → Heap → State → Option (List Window × State)
  | [], _, s => some ([], s)
  | r :: reqs, h, s => do
    let (w, h, s) ← mapWindow fault r h s
    let (ws, s) ← mapWindows fault reqs h s
    some (w :: ws, s)

/-- The physical address the CPU finds for a virtual one. -/
def physical (s : State) (addr : Nat) : Option Nat :=
  (translate s addr).map fun place => place.1.toNat + addr % 4096

/-- No call of `vma_alloc` returns NULL. -/
def Granted : Heap → List Request → Prop
  | _, [] => True
  | h, r :: reqs => ¬ heapFull h r.size ∧ Granted (heapBump h r.size) reqs

/-- Every region that is not empty begins on a page and ends before the pointer wraps. -/
def PageSized : Heap → List Request → Prop
  | _, [] => True
  | h, r :: reqs =>
    (r.size = 0 ∨ h.ptr % 4096 = 0 ∧ h.ptr + r.size < h.size) ∧ PageSized (heapBump h r.size) reqs

/-- Every mapping succeeds, and every byte of every region is the byte it stands for. -/
def Shows (fault : Fault) (reqs : List Request) (h : Heap) (s : State) : Prop :=
  ∃ ws s', mapWindows fault reqs h s = some (ws, s') ∧
    ∀ w ∈ ws, w.ok = true ∧ ∀ j < w.request.size,
      physical s' (w.v + j) = some ((w.request.paddr.toNat + j) % 2 ^ 32)

/-! ### One page after the other -/

/-- The first `n` pages of the windows are mapped, to the given frames, and no other one up
to the image. -/
structure Windows {k : Kernel} (L : Pool k) (n : Nat) (frame : Nat → Word)
    (m : Machine) : Prop where
  inv : Inv L m
  hand : m.hand = none
  clones : m.clones = []
  uses : ∀ p, m.uses p ≠ .demand
  frames : m.state.framesIndex + (n + 1023) / 1024 = L.frames.length
  tables : ∀ d, 896 ≤ d → d < 896 + (n + 1023) / 1024 → present (pde k m.state d) = true
  noTables : ∀ d, 896 + (n + 1023) / 1024 ≤ d → d < 960 → pde k m.state d = 0#32
  mapped : ∀ i < n, Mmu.mapped k m.state (0xE0000 + i) = true ∧
    frameOf (pte k m.state (0xE0000 + i)) = frame i
  unmapped : ∀ i, n ≤ i → i < 0x10000 → Mmu.mapped k m.state (0xE0000 + i) = false
  image : Mmu.mapped k m.state 0xF0000 = true

theorem pageLimit_eq : pageLimit = 0xFF800 := rfl

theorem isFrame_next {f : Word} (hf : IsFrame f) : IsFrame (f + 4096#32) := by
  rw [isFrame_iff] at hf ⊢
  rw [BitVec.toNat_add, BitVec.toNat_ofNat]
  omega

namespace Windows
variable {k : Kernel} {L : Pool k} {n : Nat} {frame : Nat → Word} {m : Machine}
  (h : Windows L n frame m)
include h

theorem next_table (hn : n < 0x10000) (hroom : n / 1024 < L.frames.length) (f : Word)
    (depth : Nat) :
    ∃ s, mmuMark (pageFaultFed k (depth + 1)) (0xE0000000 + 4096 * n) f mmuPageNoalloc m.state =
        some (marked (table k s ((0xE0000 + n) / 1024)) ((0xE0000 + n) % 1024)
          (0xE0000000 + 4096 * n) f mmuPageNoalloc s) ∧
      Inv L { m with state := s } ∧ present (pde k s ((0xE0000 + n) / 1024)) = true ∧
      s.framesIndex + (n + 1 + 1023) / 1024 = L.frames.length ∧
      (∀ d, d < 1022 → d ≠ (0xE0000 + n) / 1024 → pde k s d = pde k m.state d) ∧
      (∀ p < pageLimit, Mmu.mapped k s p = Mmu.mapped k m.state p) ∧
      (∀ p < pageLimit, Mmu.mapped k m.state p = true → pte k s p = pte k m.state p) := by
  have hp : (0xE0000000 + 4096 * n) / 4096 = 0xE0000 + n := by omega
  have hlimit : (0xE0000000 + 4096 * n) / 4096 < pageLimit := by
    rw [pageLimit_eq]
    omega
  have haddr : 0xE0000000 + 4096 * n < 2 ^ 32 := by omega
  have hd := mmuPdIndex_eq haddr
  rw [hp] at hd
  have hcr3 := h.inv.cr3_eq_pd h.clones
  cases Nat.eq_zero_or_pos (n % 1024) with
  | inr hmid =>
    have hpresent : present (pde k m.state ((0xE0000 + n) / 1024)) = true :=
      h.tables _ (by omega) (by omega)
    have hactive : present (m.state.mem m.state.cr3 (mmuPdIndex (0xE0000000 + 4096 * n))) =
        true := by
      rw [hcr3, hd]
      exact hpresent
    obtain ⟨_, hmark⟩ :=
      h.inv.mmuMark_table haddr hlimit hactive (pageFaultFed k (depth + 1)) f mmuPageNoalloc
    rw [hp] at hmark
    have hframes := h.frames
    exact ⟨m.state, hmark, h.inv, hpresent, by omega, fun _ _ _ => rfl, fun _ _ => rfl,
      fun _ _ _ => rfl⟩
  | inl hfirst =>
    have hzero : m.state.mem m.state.cr3 (mmuPdIndex (0xE0000000 + 4096 * n)) = 0#32 := by
      rw [hcr3, hd]
      exact h.noTables _ (by omega) (by omega)
    have hframes := h.frames
    have hpos : 0 < m.state.framesIndex := by omega
    obtain ⟨hinv, hpresent, hempty, hmark⟩ :=
      h.inv.mmuMark_new haddr hlimit h.clones hzero f mmuPageNoalloc h.hand hpos depth
    rw [hp] at hmark hpresent hempty
    have hlt : mmuPdIndex (0xE0000000 + 4096 * n) < 1022 := by omega
    have hother : ∀ d, d < 1022 → d ≠ (0xE0000 + n) / 1024 → _ := fun d hlow hne =>
      h.inv.newTable_other h.clones hlt hpos (by rw [hd]; exact hne) hlow
    have hsame := h.inv.newTable_same h.clones hlt hpos
    rw [hd] at hsame
    -- The pages of the new table are not mapped, before and after.
    have hmapped : ∀ p < pageLimit,
        Mmu.mapped k (newTable k (0xE0000000 + 4096 * n) m.state) p = Mmu.mapped k m.state p := by
      intro p hp
      have hlow := pageLimit_div hp
      cases Nat.decEq (p / 1024) ((0xE0000 + n) / 1024) with
      | isTrue heq =>
        unfold Mmu.mapped pte
        rw [heq, hsame, hempty, not_present_zero, Bool.and_false, Bool.false_and]
      | isFalse hne =>
        obtain ⟨hpde, hwords⟩ := hother _ hlow hne
        apply mapped_of_entries hpde
        intro hcase
        unfold pte table
        rw [hpde]
        exact hwords hcase _
    refine ⟨newTable k (0xE0000000 + 4096 * n) m.state, hmark, hinv, hpresent, ?_, ?_, hmapped, ?_⟩
    · rw [newTable_framesIndex]
      omega
    · intro d hlow hne
      exact (hother d hlow hne).1
    · intro p hp hpmapped
      have hlow := pageLimit_div hp
      have hne : p / 1024 ≠ (0xE0000 + n) / 1024 := by
        intro heq
        have hpde := (mapped_iff.1 hpmapped).1
        rw [heq, hempty] at hpde
        exact absurd hpde (by decide)
      obtain ⟨hpde, hwords⟩ := hother _ hlow hne
      unfold pte table
      rw [hpde]
      exact hwords (mapped_iff.1 hpmapped).1 _

theorem mark (hn : n < 0x10000) (hroom : n / 1024 < L.frames.length)
    (hall : ∀ f, L.outside f) {f : Word} (hf : IsFrame f) (depth : Nat) :
    ∃ s', mmuMark (pageFaultFed k (depth + 1)) (0xE0000000 + 4096 * n) f mmuPageNoalloc m.state =
        some (true, s') ∧
      Windows L (n + 1) (fun i => if i = n then f else frame i)
        { m with state := s', uses := setUse m.uses (0xE0000 + n) .fixed } := by
  obtain ⟨s, hmark, hinv, hpresent, hframes, hpdes, hmapped, hptes⟩ :=
    h.next_table hn hroom f depth
  have hp : 0xE0000 + n < pageLimit := by
    rw [pageLimit_eq]
    omega
  have hfree : Mmu.mapped k s (0xE0000 + n) = false :=
    (hmapped _ hp).trans (h.unmapped n (Nat.le_refl n) hn)
  have habsent : present (pte k s (0xE0000 + n)) = false := by
    unfold Mmu.mapped at hfree
    rw [hpresent, Bool.true_and] at hfree
    exact hfree
  have hflag : mmuPageNoalloc &&& mmuPageNoalloc ≠ 0#32 := by decide
  have hallowed : MarkAllowed L.outside m.uses (0xE0000 + n) f mmuPageNoalloc :=
    ⟨fun hdemand => absurd hdemand hflag, fun _ => ⟨h.uses _, hf, hall f⟩⟩
  have hmarked := hinv.marked_inv hp hpresent hallowed (0xE0000000 + 4096 * n) rfl
  rw [marked_fixed habsent hflag] at hmark hmarked
  simp only [if_true, show useOf mmuPageNoalloc = .fixed from if_neg hflag] at hmarked
  let w := f ||| (mmuPageNoalloc &&& mmuProtMask) ||| mmuProtPresent
  let s' := (s.set (table k s ((0xE0000 + n) / 1024)) ((0xE0000 + n) % 1024) w).invlpg
    (0xE0000000 + 4096 * n)
  have hset : ∀ g j, s'.mem g j =
      if g = table k s ((0xE0000 + n) / 1024) ∧ j = (0xE0000 + n) % 1024 then w
      else s.mem g j := fun _ _ => rfl
  have hpde : ∀ d, pde k s' d = pde k s d := pde_pte hinv hp hpresent hset
  have hsame : Mmu.mapped k s' (0xE0000 + n) = true := by
    rw [mapped_pte_same hinv hp hpresent hset]
    exact present_installed _ _
  have hother : ∀ q < pageLimit, q ≠ 0xE0000 + n → Mmu.mapped k s' q = Mmu.mapped k m.state q :=
    fun q hq hne => (mapped_pte_other hinv hp hpresent hset hq hne).trans (hmapped q hq)
  have hlimit : ∀ i, i < 0x10000 + 1 → 0xE0000 + i < pageLimit := by
    intro i hi
    rw [pageLimit_eq]
    omega
  have hkept : ∀ q < pageLimit, q ≠ 0xE0000 + n → Mmu.mapped k m.state q = true →
      Mmu.mapped k s' q = true ∧ pte k s' q = pte k m.state q := by
    intro q hq hne hqmapped
    have hqs : Mmu.mapped k s q = true := (hmapped q hq).trans hqmapped
    exact ⟨(hother q hq hne).trans hqmapped,
      (pte_pte_other hinv hp hpresent hset hq hne (mapped_iff.1 hqs).1).trans
        (hptes q hq hqmapped)⟩
  refine ⟨s', hmark, hmarked, h.hand, h.clones, ?_, hframes, ?_, ?_, ?_, ?_, ?_⟩
  · intro p
    simp only [setUse]
    split
    · simp
    · exact h.uses p
  · intro d hlow hhigh
    simp only [hpde]
    cases Nat.decEq d ((0xE0000 + n) / 1024) with
    | isTrue heq =>
      rw [heq]
      exact hpresent
    | isFalse hne =>
      rw [hpdes d (by omega) hne]
      exact h.tables d hlow (by omega)
  · intro d hlow hhigh
    simp only [hpde]
    rw [hpdes d (by omega) (by omega)]
    exact h.noTables d (by omega) hhigh
  · intro i hi
    cases Nat.decEq i n with
    | isTrue heq =>
      rw [heq]
      refine ⟨hsame, ?_⟩
      rw [if_pos rfl]
      simp only [pte_pte_same hinv hp hpresent hset]
      exact frameOf_installed _ hf
    | isFalse hne =>
      obtain ⟨himapped, hiframe⟩ := h.mapped i (by omega)
      obtain ⟨hmapped', hpte'⟩ := hkept _ (hlimit i (by omega)) (by omega) himapped
      rw [if_neg hne]
      refine ⟨hmapped', ?_⟩
      simp only [hpte']
      exact hiframe
  · intro i hlow hhigh
    exact (hother _ (hlimit i (by omega)) (by omega)).trans (h.unmapped i (by omega) hhigh)
  · exact (hkept _ (hlimit 0x10000 (by omega)) (by omega) h.image).1

theorem congr {frame' : Nat → Word} (hframe : ∀ i < n, frame' i = frame i) :
    Windows L n frame' m := by
  refine ⟨h.inv, h.hand, h.clones, h.uses, h.frames, h.tables, h.noTables, ?_, h.unmapped, h.image⟩
  intro i hi
  rw [hframe i hi]
  exact h.mapped i hi

theorem marks (count : Nat) (hn : n + count ≤ 0x10000)
    (hroom : (n + count + 1023) / 1024 ≤ L.frames.length) (hall : ∀ f, L.outside f) {f : Word}
    (hf : IsFrame f) (depth : Nat) :
    ∃ s' uses', markPages (pageFaultFed k (depth + 1)) count (0xE0000000 + 4096 * n) f
        mmuPageNoalloc m.state = some (true, s') ∧
      Windows L (n + count)
        (fun i => if n ≤ i then f + BitVec.ofNat 32 (4096 * (i - n)) else frame i)
        { m with state := s', uses := uses' } := by
  induction count generalizing n f frame m with
  | zero =>
    refine ⟨m.state, m.uses, rfl, h.congr ?_⟩
    intro i hi
    rw [if_neg (by omega)]
  | succ count ih =>
    obtain ⟨s₁, hmark, hnext⟩ := h.mark (by omega) (by omega) hall hf depth
    obtain ⟨s', uses', hrest, hwindows⟩ := ih hnext (by omega) (by omega) (isFrame_next hf)
    refine ⟨s', uses', ?_, ?_⟩
    · rw [show 0xE0000000 + 4096 * (n + 1) = 0xE0000000 + 4096 * n + 4096 by omega] at hrest
      simp only [markPages, hmark, Option.bind_eq_bind, Option.bind_some, if_true]
      exact hrest
    · rw [show n + (count + 1) = n + 1 + count by omega]
      refine hwindows.congr ?_
      intro i hi
      cases Nat.lt_or_ge n i with
      | inl hlt =>
        rw [if_pos (by omega), if_pos (show n + 1 ≤ i by omega), BitVec.add_assoc,
          ← BitVec.ofNat_add]
        congr 2
        omega
      | inr hge =>
        rw [if_neg (show ¬ n + 1 ≤ i by omega)]
        cases Nat.decEq i n with
        | isTrue heq => simp [heq]
        | isFalse hne => rw [if_neg (by omega), if_neg hne]

theorem physical_eq {i j : Nat} (hi : i < n) (hi' : i < 0x10000) (hj : j < 4096) :
    physical m.state (0xE0000000 + 4096 * i + j) = some ((frame i).toNat + j) := by
  obtain ⟨hmapped, hframe⟩ := h.mapped i hi
  obtain ⟨hpde, hpte⟩ := mapped_iff.1 hmapped
  have haddr : 0xE0000000 + 4096 * i + j < 2 ^ 32 := by omega
  have hpage : (0xE0000000 + 4096 * i + j) / 4096 = 0xE0000 + i := by omega
  have hd := mmuPdIndex_eq haddr
  have hindex := mmuPtIndex_eq (0xE0000000 + 4096 * i + j)
  rw [hpage] at hd hindex
  have hactive : m.state.mem m.state.cr3 (mmuPdIndex (0xE0000000 + 4096 * i + j)) =
      pde k m.state ((0xE0000 + i) / 1024) := by
    rw [h.inv.cr3_eq_pd h.clones, hd]
    rfl
  unfold physical
  rw [translate_eq_some (by rw [hactive]; exact hpde) (by rw [hactive, hindex]; exact hpte),
    hactive, hindex, Option.map_some]
  simp only
  rw [show frameOf (m.state.mem (frameOf (pde k m.state ((0xE0000 + i) / 1024)))
    ((0xE0000 + i) % 1024)) = frame i from hframe]
  congr 2
  omega

theorem marks_refused {fault : Fault} {depth count : Nat} (hn : n ≤ 0x10000)
    (hfault : Within (pageFaultFed k (depth + 1)) fault) (hcount : 0x10000 < n + count)
    (hroom : 64 ≤ L.frames.length) (hall : ∀ f, L.outside f) {f : Word} (hf : IsFrame f)
    (s' : State) :
    markPages fault count (0xE0000000 + 4096 * n) f mmuPageNoalloc m.state ≠ some (true, s') := by
  intro hr
  induction count generalizing n f frame m with
  | zero => omega
  | succ count ih =>
    simp only [markPages, Option.bind_eq_bind, Option.bind_eq_some_iff] at hr
    obtain ⟨x, hx, hr⟩ := hr
    cases Nat.lt_or_ge n 0x10000 with
    | inl hlt =>
      obtain ⟨s₁, hmark, hnext⟩ := h.mark hlt (by omega) hall hf depth
      have heq := (mmuMark_within hfault hmark).symm.trans hx
      rw [← Option.some.inj heq] at hr
      simp only [if_true] at hr
      rw [show 0xE0000000 + 4096 * n + 4096 = 0xE0000000 + 4096 * (n + 1) by omega] at hr
      exact ih hnext (by omega) (by omega) (isFrame_next hf) hr
    | inr hge =>
      have heq : n = 0x10000 := by omega
      subst heq
      obtain ⟨hpde, hpte⟩ := mapped_iff.1 h.image
      have hactive : present
          (m.state.mem m.state.cr3 (mmuPdIndex (0xE0000000 + 4096 * 0x10000))) = true := by
        rw [h.inv.cr3_eq_pd h.clones,
          show mmuPdIndex (0xE0000000 + 4096 * 0x10000) = 0xF0000 / 1024 by
            unfold mmuPdIndex
            omega]
        exact hpde
      obtain ⟨_, hmark⟩ := h.inv.mmuMark_table (by decide)
        (by decide) hactive fault f mmuPageNoalloc
      rw [marked_refused hpte (by decide)] at hmark
      rw [hmark] at hx
      rw [← Option.some.inj hx] at hr
      simp at hr

end Windows

/-! ### The calls one after the other -/

theorem mapWindow_within {f g : Fault} (hfg : Within f g) {r : Request} {h : Heap} {s : State}
    {x : Window × Heap × State} (hx : mapWindow f r h s = some x) : mapWindow g r h s = some x := by
  unfold mapWindow at *
  simp only [Option.bind_eq_bind, Option.bind_eq_some_iff] at hx ⊢
  obtain ⟨y, hy, hx⟩ := hx
  exact ⟨y, mmuMmap_within hfg hy, hx⟩

theorem mapWindows_within {f g : Fault} (hfg : Within f g) {reqs : List Request} {h : Heap}
    {s : State} {x : List Window × State} (hx : mapWindows f reqs h s = some x) :
    mapWindows g reqs h s = some x := by
  induction reqs generalizing h s x with
  | nil => exact hx
  | cons r reqs ih =>
    simp only [mapWindows, Option.bind_eq_bind, Option.bind_eq_some_iff] at hx ⊢
    obtain ⟨y, hy, z, hz, hx⟩ := hx
    exact ⟨y, mapWindow_within hfg hy, z, ih hz, hx⟩

/-- Where the bytes of a window are, by the frames of the first pages. -/
def Window.Shown (w : Window) (n : Nat) (frame : Nat → Word) : Prop :=
  ∀ j < w.request.size, ∃ i < n, ∃ b < 4096, w.v + j = 0xE0000000 + 4096 * i + b ∧
    (frame i).toNat + b = (w.request.paddr.toNat + j) % 2 ^ 32

def totalSize (reqs : List Request) : Nat := (reqs.map fun r => r.size).sum

/-- A tail of the requests, with the pool behind it. -/
structure Pending {k : Kernel} (L : Pool k) (ptr : Nat) (reqs : List Request) : Prop where
  ptr_lt : ptr < 0x4000000
  aligned : ∀ r ∈ reqs, IsFrame r.paddr
  sizes : ∀ r ∈ reqs, r.size < 2 ^ 32
  room : (ptr + totalSize reqs + 0x3FFFFF) / 0x400000 ≤ L.frames.length

theorem Pending.tail {k : Kernel} {L : Pool k} {ptr : Nat} {r : Request} {reqs : List Request}
    (h : Pending L ptr (r :: reqs)) (hptr : ptr + r.size < 0x4000000) :
    Pending L (ptr + r.size) reqs := by
  have hroom := h.room
  simp only [totalSize, List.map_cons, List.sum_cons] at hroom
  refine ⟨hptr, fun q hq => h.aligned q (List.mem_cons_of_mem _ hq),
    fun q hq => h.sizes q (List.mem_cons_of_mem _ hq), ?_⟩
  unfold totalSize
  omega

section Calls
variable {k : Kernel} {L : Pool k} (hall : ∀ f, L.outside f) (depth : Nat)
include hall

theorem mapWindow_spec {ptr : Nat} {frame : Nat → Word} {m : Machine} {r : Request}
    {reqs : List Request} (h : Windows L ((ptr + 4095) / 4096) frame m)
    (hpending : Pending L ptr (r :: reqs)) (hptr : ptr + r.size < 0x4000000)
    (hpage : r.size = 0 ∨ ptr % 4096 = 0) :
    ∃ s' uses' frame', mapWindow (pageFaultFed k (depth + 1)) r (bumped ptr) m.state =
        some (⟨0xE0000000 + ptr, r, true⟩, bumped (ptr + r.size), s') ∧
      Windows L ((ptr + r.size + 4095) / 4096) frame' { m with state := s', uses := uses' } ∧
      (∀ i < (ptr + 4095) / 4096, frame' i = frame i) ∧
      Window.Shown ⟨0xE0000000 + ptr, r, true⟩ ((ptr + r.size + 4095) / 4096) frame' := by
  have hroom := hpending.room
  simp only [totalSize, List.map_cons, List.sum_cons] at hroom
  have hfull : ¬ heapFull (bumped ptr) r.size := by
    rw [heapFull_bumped]
    omega
  have hmod : (ptr + r.size) % 2 ^ 32 = ptr + r.size := Nat.mod_eq_of_lt (by omega)
  have hcount : pageCount r.size = some (pages r.size) := by
    unfold pageCount
    rw [if_pos (by omega)]
    rfl
  unfold mapWindow
  rw [vmaAlloc_bumped hpending.ptr_lt hfull, hmod]
  unfold mmuMmap
  simp only [hcount]
  cases hpage with
  | inl hzero =>
    rw [hzero, Nat.add_zero]
    refine ⟨m.state, m.uses, frame, rfl, h, fun _ _ => rfl, ?_⟩
    intro j hj
    simp only [hzero] at hj
    omega
  | inr haligned =>
    have hv : 0xE0000000 + ptr = 0xE0000000 + 4096 * ((ptr + 4095) / 4096) := by omega
    have hpages : (ptr + 4095) / 4096 + pages r.size = (ptr + r.size + 4095) / 4096 := by
      unfold pages
      omega
    have hf := hpending.aligned r (List.mem_cons_self ..)
    obtain ⟨s', uses', hmarks, hwindows⟩ := h.marks (pages r.size) (by omega)
      (by omega) hall hf depth
    rw [hpages] at hwindows
    refine ⟨s', uses', _, ?_, hwindows, ?_, ?_⟩
    · rw [hv, hmarks]
      rfl
    · intro i hi
      rw [if_neg (by omega)]
    · intro j hj
      simp only at hj
      rw [isFrame_iff] at hf
      refine ⟨ptr / 4096 + j / 4096, by omega, j % 4096, by omega, by simp only; omega, ?_⟩
      simp only
      rw [if_pos (by omega), BitVec.toNat_add, BitVec.toNat_ofNat]
      omega

theorem mapWindows_spec (reqs : List Request) {ptr : Nat} {frame : Nat → Word} {m : Machine}
    (h : Windows L ((ptr + 4095) / 4096) frame m) (hpending : Pending L ptr reqs)
    (hsized : PageSized (bumped ptr) reqs) :
    ∃ ws n frame' m', mapWindows (pageFaultFed k (depth + 1)) reqs (bumped ptr) m.state =
        some (ws, m'.state) ∧
      Windows L n frame' m' ∧ n ≤ 0x10000 ∧ (ptr + 4095) / 4096 ≤ n ∧
      (∀ i < (ptr + 4095) / 4096, frame' i = frame i) ∧
      ∀ w ∈ ws, w.ok = true ∧ w.Shown n frame' := by
  induction reqs generalizing ptr frame m with
  | nil =>
    have hptr := hpending.ptr_lt
    exact ⟨[], _, frame, m, rfl, h, by omega, Nat.le_refl _, fun _ _ => rfl, by simp⟩
  | cons r reqs ih =>
    obtain ⟨hfirst, hrest⟩ := hsized
    have hptr : ptr + r.size < 0x4000000 := by
      cases hfirst with
      | inl hzero =>
        have hlt := hpending.ptr_lt
        omega
      | inr hsize => exact hsize.2
    have hpage : r.size = 0 ∨ ptr % 4096 = 0 := hfirst.imp_right fun hsize => hsize.1
    obtain ⟨s₁, uses₁, frame₁, hcall, hwindows, hframe₁, hshown⟩ :=
      mapWindow_spec hall depth h hpending hptr hpage
    have hbump : heapBump (bumped ptr) r.size = bumped (ptr + r.size) :=
      congrArg bumped (Nat.mod_eq_of_lt (show ptr + r.size < 2 ^ 32 by omega))
    rw [hbump] at hrest
    obtain ⟨ws, n, frame', m', hcalls, hwindows', hle, hmono, hframe', hws⟩ :=
      ih hwindows (hpending.tail hptr) hrest
    refine ⟨⟨0xE0000000 + ptr, r, true⟩ :: ws, n, frame', m', ?_, hwindows', hle, by omega, ?_, ?_⟩
    · simp only [mapWindows, hcall, Option.bind_eq_bind, Option.bind_some, hcalls]
    · intro i hi
      rw [hframe' i (by omega), hframe₁ i hi]
    · intro w hw
      cases List.mem_cons.1 hw with
      | inr hmem => exact hws w hmem
      | inl heq =>
        rw [heq]
        refine ⟨rfl, ?_⟩
        intro j hj
        obtain ⟨i, hi, b, hb, hv, hbyte⟩ := hshown j hj
        refine ⟨i, by omega, b, hb, hv, ?_⟩
        rw [hframe' i hi]
        exact hbyte

omit hall in
theorem physical_mod {s : State} {addr a : Nat} (h : physical s addr = some a) :
    a % 4096 = addr % 4096 := by
  unfold physical at h
  rw [Option.map_eq_some_iff] at h
  obtain ⟨place, hplace, heq⟩ := h
  have hframe : IsFrame place.1 := by
    unfold translate at hplace
    simp only at hplace
    split at hplace
    · split at hplace
      · rw [← Option.some.inj hplace]
        exact isFrame_frameOf _
      · exact absurd hplace (by simp)
    · exact absurd hplace (by simp)
  rw [isFrame_iff] at hframe
  omega

theorem pageSized_of_shown {fault : Fault} (hfault : Within (pageFaultFed k (depth + 1)) fault)
    (reqs : List Request) {ptr : Nat} {frame : Nat → Word} {m : Machine}
    (h : Windows L ((ptr + 4095) / 4096) frame m) (hpending : Pending L ptr reqs)
    (hgranted : Granted (bumped ptr) reqs) {ws : List Window} {s s' : State}
    (hcalls : mapWindows fault reqs (bumped ptr) m.state = some (ws, s))
    (hshown : ∀ w ∈ ws, w.ok = true ∧ ∀ j < w.request.size,
      physical s' (w.v + j) = some ((w.request.paddr.toNat + j) % 2 ^ 32)) :
    PageSized (bumped ptr) reqs := by
  induction reqs generalizing ptr frame m ws with
  | nil => exact True.intro
  | cons r reqs ih =>
    obtain ⟨hfull, hgranted⟩ := hgranted
    have hptr := hpending.ptr_lt
    have hsize := hpending.sizes r (List.mem_cons_self ..)
    have hf := hpending.aligned r (List.mem_cons_self ..)
    simp only [mapWindows, Option.bind_eq_bind, Option.bind_eq_some_iff, Option.some.injEq,
      Prod.mk.injEq] at hcalls
    obtain ⟨x, hx, y, hy, hws, hs⟩ := hcalls
    have hwindow := hshown x.1 (by rw [← hws]; exact List.mem_cons_self ..)
    have hrest := fun w hw => hshown w (by rw [← hws]; exact List.mem_cons_of_mem _ hw)
    have hcall := hx
    unfold mapWindow at hcall
    rw [vmaAlloc_bumped hptr hfull] at hcall
    simp only [Option.bind_eq_bind, Option.bind_eq_some_iff, Option.some.injEq] at hcall
    obtain ⟨z, hz, hcall⟩ := hcall
    rw [← hcall] at hwindow
    simp only at hwindow
    -- The first byte of the region says that it begins on a page.
    have hpage : r.size = 0 ∨ ptr % 4096 = 0 := by
      cases Nat.eq_zero_or_pos r.size with
      | inl hzero => exact .inl hzero
      | inr hpos =>
        right
        have hbyte := physical_mod (hwindow.2 0 hpos)
        rw [isFrame_iff] at hf
        omega
    have hfits : ptr + r.size < 0x4000000 := by
      cases Nat.lt_or_ge (ptr + r.size) 0x4000000 with
      | inl hlt => exact hlt
      | inr hge =>
        exfalso
        rw [heapFull_bumped] at hfull
        -- The pointer has wrapped, and the mapping runs into the image.
        have hroom := hpending.room
        simp only [totalSize, List.map_cons, List.sum_cons] at hroom
        have hv : 0xE0000000 + ptr = 0xE0000000 + 4096 * ((ptr + 4095) / 4096) := by omega
        have hrefused := fun count (hcount : 0x10000 < (ptr + 4095) / 4096 + count) =>
          h.marks_refused (by omega) hfault hcount (by omega) hall hf z.2
        unfold mmuMmap at hz
        rw [hv] at hz
        have hok : z.1 = true := hwindow.1
        have hzeta : z = (true, z.2) := by rw [← hok]
        split at hz
        · rename_i n hn
          rw [pageCount_eq hn, hzeta] at hz
          exact hrefused _ (by unfold pages; omega) hz
        · simp only [Option.bind_eq_bind, Option.bind_eq_some_iff] at hz
          obtain ⟨u, _, hz⟩ := hz
          split at hz
          · exact absurd hz (by simp)
          · rw [← Option.some.inj hz] at hok
            exact absurd hok (by simp)
    have hbump : heapBump (bumped ptr) r.size = bumped (ptr + r.size) :=
      congrArg bumped (Nat.mod_eq_of_lt (show ptr + r.size < 2 ^ 32 by omega))
    obtain ⟨s₁, uses₁, frame₁, hfed, hwindows, _, _⟩ :=
      mapWindow_spec hall depth h hpending hfits hpage
    have hsame := (mapWindow_within hfault hfed).symm.trans hx
    have hrun : mapWindows fault reqs (bumped (ptr + r.size)) s₁ = some (y.1, s) := by
      rw [← Option.some.inj hsame] at hy
      rw [← hs]
      exact hy
    refine ⟨hpage.imp_right fun haligned => ⟨haligned, hfits⟩, ?_⟩
    rw [hbump] at hgranted ⊢
    exact ih hwindows (hpending.tail hfits) hgranted hrun hrest

end Calls

/-! ### From `mmu_init` on -/

/-- Bytes that are shown by the frames of the pages are found by the CPU. -/
theorem Windows.physical_shown {k : Kernel} {L : Pool k} {n : Nat} {frame : Nat → Word}
    {m : Machine} (h : Windows L n frame m) (hn : n ≤ 0x10000) {w : Window}
    (hw : w.Shown n frame) : ∀ j < w.request.size,
      physical m.state (w.v + j) = some ((w.request.paddr.toNat + j) % 2 ^ 32) := by
  intro j hj
  obtain ⟨i, hi, b, hb, hv, hbyte⟩ := hw j hj
  rw [hv, h.physical_eq hi (by omega) hb, hbyte]

namespace Filling
variable {k : Kernel} {pushed : List Word} {ptIndex : Nat} {s : State}

theorem windows (h : Filling k pushed ptIndex s) (hframes : ∀ f ∈ pushed, PoolFrame k f)
    (hnodup : pushed.Nodup) (hlow : 1024 * ptIndex ≤ s.framesIndex) (frame : Nat → Word) :
    Windows (h.left hframes hnodup hlow fun _ => True) 0 frame (afterInit k s) := by
  have hempty : ∀ d, 896 ≤ d → d < 960 → Mmu.pde k s d = 0#32 := by
    intro d hlow hhigh
    unfold Mmu.pde
    rw [h.directory]
    unfold initPde
    rw [if_neg (by omega), if_neg (by omega), if_neg (by omega)]
  refine ⟨h.inv hframes hnodup hlow _ fun _ _ => True.intro, rfl, rfl, ?_, ?_, ?_, ?_, ?_, ?_, ?_⟩
  · intro p
    simp only [afterInit]
    split <;> simp
  · exact ((List.length_map _).trans List.length_range).symm
  · intro d hlow hhigh
    omega
  · intro d hlow hhigh
    exact hempty d (by omega) hhigh
  · intro i hi
    omega
  · intro i _ hi
    unfold mapped
    rw [show (afterInit k s).state = s from rfl, hempty _ (by omega) (by omega), not_present_zero,
      Bool.false_and]
  · refine mapped_iff.2 ⟨?_, ?_⟩
    · unfold Mmu.pde
      rw [show (afterInit k s).state = s from rfl, h.directory]
      exact present_static k.isFrame_pt
    · rw [show (afterInit k s).state = s from rfl, h.pte_image (by omega)]
      simp [initPte, present]

end Filling

section Runs
variable {k : Kernel} {ram : Memory} {map : List Region} {depth : Nat} {s : State}

theorem windows_shown_iff (hdistinct : (usableFrames k map).Nodup)
    (hinit : mmuInit k (pageFault k depth) map (bootState k ram) = some s) {reqs : List Request}
    (haligned : ∀ r ∈ reqs, IsFrame r.paddr) (hsizes : ∀ r ∈ reqs, r.size < 2 ^ 32)
    (hgranted : Granted kheapVmaalloc reqs)
    (hpool : (totalSize reqs + 0x3FFFFF) / 0x400000 ≤ s.framesIndex) (depth' : Nat) :
    Shows (pageFault k (depth' + 1)) reqs kheapVmaalloc s ↔ PageSized kheapVmaalloc reqs := by
  obtain ⟨ptIndex, hfilling, hlow⟩ := mmuInit_filling hdistinct hinit
  have hframes : ∀ f ∈ usableFrames k map, PoolFrame k f := usableFrames_poolFrame
  let L := hfilling.left hframes hdistinct hlow fun _ => True
  have hwindows : Windows L 0 (fun _ => 0#32) (afterInit k s) :=
    hfilling.windows hframes hdistinct hlow _
  have hlength : L.frames.length = s.framesIndex :=
    (List.length_map _).trans List.length_range
  have hpending : Pending L 0 reqs := by
    refine ⟨by omega, haligned, hsizes, ?_⟩
    rw [hlength, Nat.zero_add]
    exact hpool
  have hwithin := pageFaultFed_within k (depth' + 1)
  have hall : ∀ f, L.outside f := fun _ => True.intro
  constructor
  · intro hshows
    obtain ⟨ws, s', hcalls, hws⟩ := hshows
    exact pageSized_of_shown hall depth' hwithin reqs hwindows hpending hgranted hcalls hws
  · intro hsized
    obtain ⟨ws, n, frame, m, hcalls, hdone, hn, _, _, hws⟩ :=
      mapWindows_spec hall depth' reqs hwindows hpending hsized
    refine ⟨ws, m.state, mapWindows_within hwithin hcalls, ?_⟩
    intro w hw
    exact ⟨(hws w hw).1, hdone.physical_shown hn (hws w hw).2⟩

end Runs

/-- Two pages, and then part of one. -/
def wholePages : List Request := [⟨0xFD000000#32, 8192⟩, ⟨0xFE000000#32, 100⟩]

theorem windows_shown_wholePages :
    Shows (pageFault smallKernel 4) wholePages kheapVmaalloc smallStart := by
  have hinit : smallInit [smallRam 4] = some smallStart := (Option.some_get _).symm
  have haligned : ∀ r ∈ wholePages, IsFrame r.paddr := by
    simp [wholePages, IsFrame, frameOf]
  have hsizes : ∀ r ∈ wholePages, r.size < 2 ^ 32 := by
    simp [wholePages]
  have hgranted : Granted kheapVmaalloc wholePages := by
    simp [wholePages, Granted, heapFull, heapBump, kheapVmaalloc]
  have hpool : (totalSize wholePages + 0x3FFFFF) / 0x400000 ≤ smallStart.framesIndex := by
    decide +kernel
  have hsized : PageSized kheapVmaalloc wholePages := by
    simp [wholePages, PageSized, heapBump, kheapVmaalloc]
  exact (windows_shown_iff (by decide +kernel) hinit haligned hsizes hgranted hpool 3).2 hsized

/-- Part of a page, and then one page. -/
def partPage : List Request := [⟨0xFD000000#32, 100⟩, ⟨0xFE000000#32, 4096⟩]

theorem second_window_refused : Granted kheapVmaalloc partPage ∧
    smallInit [smallRam 4] = some smallStart ∧
    ¬ Shows (pageFault smallKernel 4) partPage kheapVmaalloc smallStart := by
  have hrun : (mapWindows (pageFault smallKernel 4) partPage kheapVmaalloc smallStart).map
      (fun r => r.1.map Window.ok) = some [true, false] := by decide +kernel
  refine ⟨?_, (Option.some_get _).symm, ?_⟩
  · simp [partPage, Granted, heapFull, heapBump, kheapVmaalloc]
  · intro hshows
    obtain ⟨ws, s', hcalls, hws⟩ := hshows
    rw [hcalls, Option.map_some, Option.some.injEq] at hrun
    have hmem : false ∈ ws.map Window.ok := by
      rw [hrun]
      simp
    obtain ⟨w, hw, hok⟩ := List.mem_map.1 hmem
    exact absurd ((hws w hw).1.symm.trans hok) (by simp)

end OsdevCourse.Mmu
