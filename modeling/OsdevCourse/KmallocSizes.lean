import OsdevCourse.KmallocInvariant

/-!
# Extreme sizes

Two sums of `kmalloc` are modulo `2 ^ 32`: the rounded size, and the bump pointer. A size
within 31 of `2 ^ 32` is rounded to almost nothing and gets a block of 64 bytes, and a
size that takes the bump pointer past `2 ^ 32` moves it backwards.
-/

namespace OsdevCourse.Kmalloc

set_option autoImplicit false

open Memory

variable {l : Layout} {fuel n p size : Nat} {c : FreeList}

/-- What a call of `kmalloc` that returned `p` must leave. -/
structure Survives (m : Machine) (n p : Nat) (t : Machine) : Prop where
  null : p = 0 → t = m
  holds : p ≠ 0 → n ≤ t.blockSize (p - 16) - 16
  forward : p ≠ 0 → m.kernel.heap.ptr ≤ t.kernel.heap.ptr
  apart : p ≠ 0 → ∀ c ∈ m.live,
    Apart (p - 16) (t.blockSize (p - 16)) (c.1 - 16) (t.blockSize (c.1 - 16))

/-- Neither sum wraps; or the first one does, and there is no block of 64 bytes to give. -/
def Fits (l : Layout) (m : Machine) (n : Nat) : Prop :=
  (n + 31 < 2 ^ 32 ∧ m.kernel.heap.ptr + (requestClass n).2 < 2 ^ 32) ∨
  (2 ^ 32 ≤ n + 31 ∧ nextField m.kernel.mem (l.node .f64) = 0 ∧ heapFull m.kernel.heap 64)

def Careful (l : Layout) (m : Machine) : Action → Prop
  | .kmalloc n _ => n < 2 ^ 32 ∧ Fits l m n
  | .kfree p => Allowed m (.kfree p)
  | .store a byte => Allowed m (.store a byte)

theorem requestClass_wrapped (hn : n < 2 ^ 32) (hwrap : 2 ^ 32 ≤ n + 31) :
    requestClass n = (.f64, 64) := by
  have hround : roundSize n ≤ 64 := by
    unfold roundSize
    omega
  simp only [requestClass, if_pos hround]

theorem le_of_releaseClass_f64 (h : releaseClass n = .f64) : n ≤ 64 := by
  unfold releaseClass at h
  split_ifs at h with h64
  exact h64

theorem kmalloc_starved {k : Kernel} (hreq : requestClass n = (.f64, 64))
    (hlist : nextField k.mem (l.node .f64) = 0) (hfull : heapFull k.heap 64) :
    kmalloc l fuel n k = some (k, 0) := by
  have hsearch : searchList l fuel .f64 64 k.mem = some (k.mem, 0) := by
    simp [searchList, takeFirst, hlist]
  simp [kmalloc, hreq, hsearch, heapAlloc, hfull]

@[simp] theorem Machine.returned_kernel (m : Machine) (k : Kernel) (n p : Nat) :
    (m.returned k n p).kernel = k := by
  unfold Machine.returned
  split_ifs <;> rfl

namespace Inv
variable {m t : Machine} {k : Kernel}

/-- A call that does not wrap is served as it should be. -/
theorem survives (h : Inv l m) (hallow : Allowed m (.kmalloc n p))
    (hstep : Step l m (.kmalloc n p) t) :
    Survives m n p t := by
  have hserved := h.served hallow hstep
  obtain ⟨fuel, k, hcall, rfl⟩ := hstep
  have hinv := (h.kmalloc hallow hcall).1
  refine ⟨hserved.null, fun hp => (hserved.granted hp).2, fun _ => ?_, fun hp c hc => ?_⟩
  · rcases hreq : requestClass n with ⟨c, size⟩
    have hwrap : m.kernel.heap.ptr + size < 2 ^ 32 := by
      have hwrap := hallow.2
      rwa [hreq] at hwrap
    rw [Machine.returned_kernel]
    obtain ⟨mem, node, _, hcases⟩ := kmalloc_cases hreq h.heapMem_ne hcall
    rcases hcases with ⟨_, _, rfl⟩ | ⟨_, _, _, rfl⟩ | ⟨_, _, _, rfl⟩
    · exact Nat.le_refl _
    · exact Nat.le_refl _
    · have hbump : (heapBump m.kernel.heap size).ptr = m.kernel.heap.ptr + size :=
        Nat.mod_eq_of_lt hwrap
      exact hbump ▸ Nat.le_add_right _ _
  · -- the new pointer stands beside the old ones in a heap without overlap
    obtain ⟨bs, harena, hperm⟩ := hinv.blocks
    have hnodes : (m.returned k n p).nodes = (p - 16) :: m.nodes := by
      rw [Machine.nodes, Machine.returned, if_neg hp]
      rfl
    have hmem : c.1 - 16 ∈ m.nodes := List.mem_map.mpr ⟨c, hc, rfl⟩
    have hnodup := hperm.nodup_iff.mp harena.tiles.nodup
    rw [hnodes, List.cons_append] at hnodup
    have hne : p - 16 ≠ c.1 - 16 := by
      intro heq
      apply (List.nodup_cons.mp hnodup).1
      rw [heq]
      exact List.mem_append_left _ hmem
    refine hinv.partitioned.apart _ ?_ _ ?_ hne
    · rw [hnodes]
      exact List.mem_append_left _ List.mem_cons_self
    · rw [hnodes]
      exact List.mem_append_left _ (List.mem_cons_of_mem _ hmem)

theorem wrapped_block (h : Inv l m) (hreq : requestClass n = (.f64, 64))
    (hgive : ¬ (nextField m.kernel.mem (l.node .f64) = 0 ∧ heapFull m.kernel.heap 64))
    (hcall : Kmalloc.kmalloc l fuel n m.kernel = some (k, p)) :
    p ≠ 0 ∧ (m.returned k n p).blockSize (p - 16) ≤ 64 := by
  obtain ⟨bs, harena, hperm⟩ := h.blocks
  obtain ⟨mem, node, hsearch, hcases⟩ := kmalloc_cases hreq h.heapMem_ne hcall
  rcases harena.search_spec hreq hsearch with ⟨hzero, hmem, _⟩ | ⟨hne, hfound⟩
  · have hempty : nextField m.kernel.mem (l.node .f64) = 0 := by
      by_contra hlist
      simp only [searchList, takeFirst, if_pos hlist] at hsearch
      have hnode := congrArg Prod.snd (Option.some.inj hsearch)
      exact hlist (hnode.trans hzero)
    have hroom : ¬ heapFull m.kernel.heap 64 := fun hfull => hgive ⟨hempty, hfull⟩
    rcases hcases with ⟨hne, _⟩ | ⟨_, hfull, _⟩ | ⟨_, _, rfl, rfl⟩
    · exact absurd hzero hne
    · exact absurd hfull hroom
    · have hpayload : payload (heapMem m.kernel.heap) = heapMem m.kernel.heap + 16 := by
        have hfits := l.fits
        have hlimit := h.limit_eq
        have hptr := h.ptr_lt
        have hstart : heapStart l = l.kernelEnd + 4096 := rfl
        unfold heapFull at hroom
        unfold payload
        rw [h.heapMem_eq]
        omega
      rw [hpayload, Nat.add_sub_cancel]
      refine ⟨by omega, ?_⟩
      rw [Machine.blockSize, Machine.returned_kernel]
      exact Nat.le_of_eq (sizeField_setSize (by omega))
  · rcases hcases with ⟨_, rfl, rfl⟩ | ⟨hzero, _⟩ | ⟨hzero, _⟩
    · have hmem := harena.free_block node hfound.isFree
      rw [h.payload_eq harena hmem, Nat.add_sub_cancel]
      refine ⟨by omega, ?_⟩
      rw [Machine.blockSize, Machine.returned_kernel]
      have hsize : sizeField mem node = m.blockSize node := sizes_of_found harena hfound hmem
      rw [hsize]
      exact le_of_releaseClass_f64 hfound.class_eq
    · exact absurd hzero hne
    · exact absurd hzero hne

theorem wrapped_bump (h : Inv l m) (hreq : requestClass n = (c, size))
    (hwrap : 2 ^ 32 ≤ m.kernel.heap.ptr + size) (hsize : size < 2 ^ 32)
    (hcall : Kmalloc.kmalloc l fuel n m.kernel = some (k, p)) :
    k.heap.ptr < m.kernel.heap.ptr := by
  obtain ⟨bs, harena, hperm⟩ := h.blocks
  obtain ⟨mem, node, hsearch, hcases⟩ := kmalloc_cases hreq h.heapMem_ne hcall
  have hptr := h.ptr_lt
  have hlimit := h.limit_eq
  have hmod : (m.kernel.heap.ptr + size) % 2 ^ 32 = m.kernel.heap.ptr + size - 2 ^ 32 := by omega
  have hroom : ¬ heapFull m.kernel.heap size := by
    unfold heapFull
    omega
  have hmiss : node = 0 := by
    rcases harena.search_spec hreq hsearch with ⟨hzero, _⟩ | ⟨_, hfound⟩
    · exact hzero
    · -- no block is as long as that
      have hin := (harena.tiles.within (harena.free_block node hfound.isFree)).2
      have hlow := (harena.tiles.within (harena.free_block node hfound.isFree)).1
      have hfit := hfound.fits
      omega
  rcases hcases with ⟨hne, _⟩ | ⟨_, hfull, _⟩ | ⟨_, _, _, rfl⟩
  · exact absurd hmiss hne
  · exact absurd hfull hroom
  · have hbump : (heapBump m.kernel.heap size).ptr = m.kernel.heap.ptr + size - 2 ^ 32 := hmod
    rw [hbump]
    omega

theorem not_survives (h : Inv l m) (hn : n < 2 ^ 32) (hfits : ¬ Fits l m n)
    (hcall : Kmalloc.kmalloc l fuel n m.kernel = some (k, p)) :
    ¬ Survives m n p (m.returned k n p) := by
  intro hsurvives
  by_cases hround : n + 31 < 2 ^ 32
  · rcases hreq : requestClass n with ⟨c, size⟩
    have hwrap : 2 ^ 32 ≤ m.kernel.heap.ptr + size := by
      by_contra hlt
      apply hfits
      refine Or.inl ⟨hround, ?_⟩
      rw [hreq]
      omega
    have hsize : size < 2 ^ 32 := by
      obtain ⟨_, _, _, hslack⟩ := requestClass_spec hreq
      by_cases hlarge : 1024 < size
      · have hround' := (Nat.mod_eq_of_lt hround)
        have hle := hslack hlarge
        omega
      · omega
    have hback := h.wrapped_bump hreq hwrap hsize hcall
    by_cases hp : p = 0
    · have hsame := congrArg Machine.kernel (hsurvives.null hp)
      rw [Machine.returned_kernel] at hsame
      rw [hsame] at hback
      exact Nat.lt_irrefl _ hback
    · have hforward := hsurvives.forward hp
      rw [Machine.returned_kernel] at hforward
      omega
  · have hreq := requestClass_wrapped hn (Nat.not_lt.mp hround)
    obtain ⟨hp, hsize⟩ := h.wrapped_block hreq (fun hgive => hfits (Or.inr ⟨by omega, hgive⟩)) hcall
    have hholds := hsurvives.holds hp
    omega

theorem returns (h : Inv l m) (n : Nat) : ∃ p t, Step l m (.kmalloc n p) t := by
  obtain ⟨bs, harena, _⟩ := h.blocks
  obtain ⟨fuel, ⟨k, p⟩, hcall⟩ := kmalloc_returns (n := n) (harena.search_returns _ _)
  exact ⟨p, _, fuel, k, hcall, rfl⟩

theorem survives_of_fits (h : Inv l m) (hn : n < 2 ^ 32) (hfits : Fits l m n)
    (hstep : Step l m (.kmalloc n p) t) : Survives m n p t ∧ Inv l t := by
  rcases hfits with hfits | ⟨hwrap, hlist, hfull⟩
  · exact ⟨h.survives hfits hstep, h.step (a := .kmalloc n p) ⟨hfits, hstep⟩⟩
  · obtain ⟨fuel, k, hcall, rfl⟩ := hstep
    rw [kmalloc_starved (requestClass_wrapped hn hwrap) hlist hfull] at hcall
    cases hcall
    exact ⟨⟨fun _ => rfl, fun hp => absurd rfl hp, fun hp => absurd rfl hp,
      fun hp => absurd rfl hp⟩, h⟩

theorem of_careful (hboot : Boot l k) {as : List Action}
    (hrun : Run (Guarded (Step l) (Careful l)) ⟨k, [], []⟩ as m) : Inv l m := by
  refine hrun.invariant (Inv l) (fun m a t h hstep => ?_) hboot.inv
  obtain ⟨hcareful, hstep⟩ := hstep
  cases a with
  | kmalloc n p => exact (h.survives_of_fits hcareful.1 hcareful.2 hstep).2
  | kfree p => exact h.step (a := .kfree p) ⟨hcareful, hstep⟩
  | store b byte => exact h.step (a := .store b byte) ⟨hcareful, hstep⟩

end Inv

/-- In every history of calls that fit, a call of any size returns, and it is safe if and only
if it fits. -/
theorem extreme_sizes_safe_iff {k : Kernel} {as : List Action} {m : Machine} (hboot : Boot l k)
    (hrun : Run (Guarded (Step l) (Careful l)) ⟨k, [], []⟩ as m) {n : Nat} (hn : n < 2 ^ 32) :
    (∃ p t, Step l m (.kmalloc n p) t) ∧
      ((∀ p t, Step l m (.kmalloc n p) t → Survives m n p t) ↔ Fits l m n) := by
  have hinv := Inv.of_careful hboot hrun
  refine ⟨hinv.returns n, fun hsafe => ?_, fun hfits p t hstep =>
    (hinv.survives_of_fits hn hfits hstep).1⟩
  by_contra hfits
  obtain ⟨p, t, fuel, k, hcall, rfl⟩ := hinv.returns n
  exact hinv.not_survives hn hfits hcall (hsafe p _ ⟨fuel, k, hcall, rfl⟩)

/-- From the freshly loaded kernel a call for 1000 bytes is safe. -/
theorem extreme_sizes_safe_iff_boot :
    (∃ p t, Step smallImage ⟨bootKernel, [], []⟩ (.kmalloc 1000 p) t) ∧
      ((∀ p t, Step smallImage ⟨bootKernel, [], []⟩ (.kmalloc 1000 p) t →
        Survives ⟨bootKernel, [], []⟩ 1000 p t) ↔ Fits smallImage ⟨bootKernel, [], []⟩ 1000) :=
  extreme_sizes_safe_iff ⟨rfl, fun c => by cases c <;> rfl⟩ (.nil _) (by omega)

/-- A request for `2 ^ 32 - 20` bytes gets a block of 64. -/
theorem huge_request_gets_small_block : ¬ ∀ (m : Machine) (as : List Action) (n p : Nat)
    (t : Machine),
    Run (Guarded (Step smallImage) (Careful smallImage)) ⟨bootKernel, [], []⟩ as m → n < 2 ^ 32 →
    Step smallImage m (.kmalloc n p) t → Survives m n p t := by
  intro hclaim
  have hsafe := hclaim _ [] (2 ^ 32 - 20) 0xF0121010 _ (.nil _) (by omega) ⟨0, _, rfl, rfl⟩
  have hholds := hsafe.holds (by omega)
  exact absurd hholds (by decide)

end OsdevCourse.Kmalloc
