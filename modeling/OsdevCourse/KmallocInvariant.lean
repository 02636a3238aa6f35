import OsdevCourse.KmallocArena

/-!
# Histories of kmalloc and kfree

The clients of the allocator call `kmalloc` and `kfree` and store into what they were
given. `live` are the pointers they hold, with the sizes they asked for, and `freed` the
blocks they gave back and did not get again: both are read off the calls and their
results alone, and the theorem compares them with what the allocator has in memory.
-/

namespace OsdevCourse.Kmalloc

set_option autoImplicit false

open Memory

variable {l : Layout} {fuel n p size : Nat} {c : FreeList}

/-- What a call of `kmalloc` can do: it returns a block of a list, or NULL when the heap is
at its limit, or a block of new space. -/
theorem kmalloc_cases {k k' : Kernel} (hreq : requestClass n = (c, size))
    (hmem : heapMem k.heap ≠ 0) (h : kmalloc l fuel n k = some (k', p)) :
    ∃ mem node, searchList l fuel c size k.mem = some (mem, node) ∧
      ((node ≠ 0 ∧ p = payload node ∧ k' = { k with mem := mem }) ∨
      (node = 0 ∧ heapFull k.heap size ∧ p = 0 ∧ k' = { k with mem := mem }) ∨
      (node = 0 ∧ ¬ heapFull k.heap size ∧ p = payload (heapMem k.heap) ∧
        k' = { mem := setSize mem (heapMem k.heap) size
               heap := heapBump k.heap size
               mapped := k.mapped ++ heapMap k.heap size })) := by
  simp only [kmalloc, hreq] at h
  cases hsearch : searchList l fuel c size k.mem with
  | none => simp [hsearch] at h
  | some r =>
    obtain ⟨mem, node⟩ := r
    refine ⟨mem, node, rfl, ?_⟩
    simp only [hsearch] at h
    by_cases hnode : node = 0
    · rw [if_pos hnode] at h
      unfold heapAlloc at h
      by_cases hfull : heapFull k.heap size
      · simp only [if_pos hfull, if_true, Option.some.injEq, Prod.mk.injEq] at h
        exact Or.inr (Or.inl ⟨hnode, hfull, h.2.symm, h.1.symm⟩)
      · simp only [if_neg hfull, if_neg hmem, Option.some.injEq, Prod.mk.injEq] at h
        exact Or.inr (Or.inr ⟨hnode, hfull, h.2.symm, h.1.symm⟩)
    · simp only [if_neg hnode, Option.some.injEq, Prod.mk.injEq] at h
      exact Or.inl ⟨hnode, h.2.symm, h.1.symm⟩

theorem kmalloc_returns {k : Kernel} (hsearch : ∃ fuel r,
    searchList l fuel (requestClass n).1 (requestClass n).2 k.mem = some r) :
    ∃ fuel r, kmalloc l fuel n k = some r := by
  obtain ⟨fuel, ⟨mem, node⟩, hr⟩ := hsearch
  refine ⟨fuel, ?_⟩
  simp only [kmalloc, hr]
  split_ifs
  · exact ⟨_, rfl⟩
  · exact ⟨_, rfl⟩
  · exact ⟨_, rfl⟩

structure Machine where
  kernel : Kernel
  live : List (Nat × Nat)
  freed : List Nat

inductive Action where
  | kmalloc (size result : Nat)
  | kfree (ptr : Nat)
  | store (addr : Nat) (byte : UInt8)

namespace Machine

/-- The blocks the live pointers belong to. -/
def nodes (m : Machine) : List Nat := m.live.map fun c => c.1 - 16

/-- `node->size` -/
def blockSize (m : Machine) (node : Nat) : Nat := sizeField m.kernel.mem node

def returned (m : Machine) (k : Kernel) (size p : Nat) : Machine :=
  if p = 0 then { m with kernel := k }
  else { kernel := k, live := (p, size) :: m.live, freed := m.freed.erase (p - 16) }

def released (m : Machine) (k : Kernel) (p : Nat) : Machine :=
  if p = 0 then { m with kernel := k }
  else
    { kernel := k
      live := m.live.eraseP fun c => c.1 = p
      freed := (p - 16) :: m.freed }

def stored (m : Machine) (a : Nat) (byte : UInt8) : Machine :=
  { m with kernel := { m.kernel with mem := writeBytes m.kernel.mem a [byte] } }

end Machine

def Step (l : Layout) (m : Machine) : Action → Machine → Prop
  | .kmalloc size p, t => ∃ fuel k, kmalloc l fuel size m.kernel = some (k, p) ∧
      t = m.returned k size p
  | .kfree p, t => t = m.released (kfree l p m.kernel) p
  | .store a byte, t => t = m.stored a byte

/-- No sum of sizes wraps, only live pointers are freed, and a client stores into payloads
of its own only. -/
def Allowed (m : Machine) : Action → Prop
  | .kmalloc size _ =>
      size + 31 < 2 ^ 32 ∧ m.kernel.heap.ptr + (requestClass size).2 < 2 ^ 32
  | .kfree p => p = 0 ∨ ∃ size, (p, size) ∈ m.live
  | .store a _ => ∃ c ∈ m.live, c.1 ≤ a ∧ a < c.1 - 16 + m.blockSize (c.1 - 16)

/-- A kernel that has just been loaded: no list has a node. -/
structure Boot (l : Layout) (k : Kernel) : Prop where
  heap : k.heap = kheap l
  lists : ∀ c, nextField k.mem (l.node c) = 0

structure Inv (l : Layout) (m : Machine) : Prop where
  start_eq : m.kernel.heap.start = heapStart l
  limit_eq : m.kernel.heap.size = 1024 * 1024 * 16
  ptr_lt : m.kernel.heap.ptr < 1024 * 1024 * 16
  blocks : ∃ bs, Arena l m.blockSize m.kernel.heap.ptr bs m.freed m.kernel.mem ∧
    bs.Perm (m.nodes ++ m.freed)
  live : ∀ c ∈ m.live, 16 ≤ c.1 ∧ c.2 + 16 ≤ m.blockSize (c.1 - 16)

theorem Boot.inv {k : Kernel} (h : Boot l k) : Inv l ⟨k, [], []⟩ where
  start_eq := by
    rw [h.heap]
    rfl
  limit_eq := by
    rw [h.heap]
    rfl
  ptr_lt := by
    rw [h.heap]
    exact Nat.succ_pos _
  blocks := by
    refine ⟨[], ⟨?_, by simp, by simp, List.nodup_nil, by simp, fun c => ⟨[], ?_, by simp⟩⟩,
      List.Perm.refl _⟩
    · rw [h.heap]
      rfl
    · exact next_eq_none.mpr (h.lists c)
  live := by simp

namespace Inv
variable {m t : Machine} {bs : List Nat}

theorem heapMem_eq (h : Inv l m) : heapMem m.kernel.heap = heapStart l + m.kernel.heap.ptr := by
  have hfits := l.fits
  have hptr := h.ptr_lt
  have hstart : heapStart l = l.kernelEnd + 4096 := rfl
  unfold heapMem
  rw [h.start_eq]
  omega

theorem heapMem_ne (h : Inv l m) : heapMem m.kernel.heap ≠ 0 := by
  have hstart : heapStart l = l.kernelEnd + 4096 := rfl
  rw [h.heapMem_eq]
  omega

/-- A block lies between the end of the image and the end of the address space. -/
theorem bounds (h : Inv l m) (harena : Arena l m.blockSize m.kernel.heap.ptr bs
    m.freed m.kernel.mem)
    {b : Nat} (hb : b ∈ bs) : l.kernelEnd + 4096 ≤ b ∧ b + 64 ≤ 2 ^ 32 := by
  have hin := harena.tiles.within hb
  have hpos := (harena.granted b hb).pos
  have hfits := l.fits
  have hptr := h.ptr_lt
  have hstart : heapStart l = l.kernelEnd + 4096 := rfl
  omega

theorem payload_eq (h : Inv l m)
    (harena : Arena l m.blockSize m.kernel.heap.ptr bs m.freed m.kernel.mem)
    {b : Nat} (hb : b ∈ bs) : payload b = b + 16 := by
  have hin := h.bounds harena hb
  unfold payload
  omega

theorem mem_blocks (hperm : bs.Perm (m.nodes ++ m.freed)) {c : Nat × Nat} (hc : c ∈ m.live) :
    c.1 - 16 ∈ bs :=
  hperm.mem_iff.mpr (List.mem_append_left _ (List.mem_map.mpr ⟨c, hc, rfl⟩))

theorem store_apart (h : Inv l m)
    (harena : Arena l m.blockSize m.kernel.heap.ptr bs m.freed m.kernel.mem)
    (hperm : bs.Perm (m.nodes ++ m.freed)) {c : Nat × Nat} (hc : c ∈ m.live) {a b : Nat}
    (hlo : c.1 ≤ a) (hhi : a < c.1 - 16 + m.blockSize (c.1 - 16)) (hb : Header l bs b) :
    a < b ∨ b + 8 ≤ a := by
  have hnode := mem_blocks hperm hc
  have habove := harena.above hnode
  have hlive := (h.live c hc).1
  rcases hb with hb | ⟨d, rfl⟩
  · by_cases hne : c.1 - 16 = b
    · omega
    · have hsep := harena.tiles.apart hnode hb hne
      have hpos := (harena.granted b hb).pos
      unfold Apart at hsep
      omega
  · have hbelow := l.node_below d
    omega

theorem store (h : Inv l m) {a : Nat} {byte : UInt8} (hallow : Allowed m (.store a byte)) :
    Inv l (m.stored a byte) := by
  obtain ⟨bs, harena, hperm⟩ := h.blocks
  obtain ⟨c, hc, hlo, hhi⟩ := hallow
  have hagree : ∀ b, Header l bs b →
      AgreeOn m.kernel.mem (writeBytes m.kernel.mem a [byte]) b (b + 8) := by
    intro b hb x hx hlt
    apply writeBytes_out
    have hsep := h.store_apart harena hperm hc hlo hhi hb
    rw [List.length_singleton]
    omega
  have hsize : ∀ b ∈ bs, (m.stored a byte).blockSize b = m.blockSize b := by
    intro b hb
    exact read32_congr fun x hx hlt => hagree b (Or.inl hb) x (by omega) (by omega)
  refine ⟨h.start_eq, h.limit_eq, h.ptr_lt, ⟨bs, harena.congr hsize ?_ ?_, hperm⟩, ?_⟩
  · exact fun d x hx hlt => hagree _ (Or.inr ⟨d, rfl⟩) x hx (by omega)
  · exact fun b hb => hagree b (Or.inl (harena.free_block b hb))
  · intro e he
    rw [hsize _ (mem_blocks hperm he)]
    exact h.live e he

theorem live_eraseP {live : List (Nat × Nat)} (hp : (p, size) ∈ live) :
    (live.map fun c => c.1 - 16).Perm
      ((p - 16) :: (live.eraseP fun c => c.1 = p).map fun c => c.1 - 16) := by
  obtain ⟨c, front, back, _, hc, heq, herase⟩ :=
    List.exists_of_eraseP (p := fun c : Nat × Nat => decide (c.1 = p)) hp (by simp)
  rw [herase, heq, List.map_append, List.map_cons, List.map_append, of_decide_eq_true hc]
  exact List.perm_middle

theorem kfree (h : Inv l m) (hallow : Allowed m (.kfree p)) :
    Inv l (m.released (kfree l p m.kernel) p) := by
  unfold Machine.released Kmalloc.kfree
  by_cases hnull : p = 0
  · simp only [if_pos hnull]
    exact h
  · obtain ⟨size, hp⟩ := hallow.resolve_left hnull
    obtain ⟨bs, harena, hperm⟩ := h.blocks
    have hnode : p - 16 ∈ bs := mem_blocks (c := (p, size)) hperm hp
    have hbounds := h.bounds harena hnode
    have hp16 : 16 ≤ p := (h.live _ hp).1
    have hnodeOf : nodeOf p = p - 16 := by
      unfold nodeOf
      omega
    have hnodup : (m.nodes ++ m.freed).Nodup := hperm.nodup_iff.mp harena.tiles.nodup
    have hnew : p - 16 ∉ m.freed := fun hfreed =>
      (List.nodup_append.mp hnodup).2.2 _ (List.mem_map.mpr ⟨(p, size), hp, rfl⟩) _ hfreed rfl
    have hrelease := harena.release hnode hnew rfl rfl (by
      have hfits := l.fits
      have hptr := h.ptr_lt
      unfold heapStart
      omega)
    simp only [if_neg hnull, hnodeOf]
    have hsize : ∀ b ∈ bs, sizeField (setNext (setNext m.kernel.mem (p - 16)
        (nextField m.kernel.mem (l.node (releaseClass (m.blockSize (p - 16))))))
        (l.node (releaseClass (m.blockSize (p - 16)))) (p - 16)) b = m.blockSize b := by
      intro b hb
      rw [harena.sizeField_setNext (Or.inr ⟨_, rfl⟩) (Or.inl hb),
        harena.sizeField_setNext (Or.inl hnode) (Or.inl hb)]
      rfl
    refine ⟨h.start_eq, h.limit_eq, h.ptr_lt, ⟨bs, hrelease.congr hsize ?_ ?_, ?_⟩, ?_⟩
    · exact fun _ _ _ _ => rfl
    · exact fun _ _ _ _ _ => rfl
    · exact (hperm.trans ((live_eraseP hp).append_right _)).trans List.perm_middle.symm
    · intro c hc
      have hc : c ∈ m.live := List.mem_of_mem_eraseP hc
      have hsame := hsize _ (mem_blocks hperm hc)
      exact ⟨(h.live c hc).1, Nat.le_trans (h.live c hc).2 (Nat.le_of_eq hsame.symm)⟩

/-- A search stores links only. -/
theorem sizes_of_found {mem : Memory} {node : Nat} {c : FreeList}
    (harena : Arena l m.blockSize m.kernel.heap.ptr bs m.freed m.kernel.mem)
    (hfound : Found l m.blockSize m.kernel.heap.ptr bs m.freed c size m.kernel.mem mem node)
    {b : Nat}
    (hb : b ∈ bs) : sizeField mem b = m.blockSize b := by
  obtain ⟨a, ha, hstore⟩ := hfound.store
  have hheader : Header l bs a := by
    rcases ha with ha | rfl
    · exact Or.inl (harena.free_block a ha)
    · exact Or.inr ⟨c, rfl⟩
  rw [hstore, harena.sizeField_setNext hheader (Or.inl hb)]
  rfl

theorem take (h : Inv l m) {mem : Memory} {node : Nat} {c : FreeList}
    (harena : Arena l m.blockSize m.kernel.heap.ptr bs m.freed m.kernel.mem)
    (hperm : bs.Perm (m.nodes ++ m.freed)) (hsize : n + 16 ≤ size)
    (hfound : Found l m.blockSize m.kernel.heap.ptr bs m.freed c size m.kernel.mem mem node) :
    Inv l (m.returned { m.kernel with mem := mem } n (node + 16)) := by
  have hkeep : ∀ b ∈ bs, sizeField mem b = m.blockSize b :=
    fun _ hb => sizes_of_found harena hfound hb
  obtain ⟨hfree, hfits, _, htaken, _⟩ := hfound
  unfold Machine.returned
  rw [if_neg (by omega), Nat.add_sub_cancel]
  refine ⟨h.start_eq, h.limit_eq, h.ptr_lt, ⟨bs, htaken.congr hkeep ?_ ?_, ?_⟩, ?_⟩
  · exact fun _ _ _ _ => rfl
  · exact fun _ _ _ _ _ => rfl
  · have hmove : (m.nodes ++ m.freed).Perm (m.nodes ++ node :: m.freed.erase node) :=
      (List.perm_cons_erase hfree).append_left _
    exact (hperm.trans hmove).trans List.perm_middle
  · intro e he
    rcases List.mem_cons.mp he with rfl | he
    · have hnode : sizeField mem (node + 16 - 16) = m.blockSize node := by
        rw [Nat.add_sub_cancel]
        exact hkeep node (harena.free_block node hfree)
      refine ⟨Nat.le_add_left 16 node, ?_⟩
      exact Nat.le_trans (Nat.le_trans hsize hfits) (Nat.le_of_eq hnode.symm)
    · have hsame := hkeep _ (mem_blocks hperm he)
      exact ⟨(h.live e he).1, Nat.le_trans (h.live e he).2 (Nat.le_of_eq hsame.symm)⟩

theorem grow (h : Inv l m) {mapped : List Mapping} (hgranted : Granted size)
    (hsize : n + 16 ≤ size) (hwrap : m.kernel.heap.ptr + size < 2 ^ 32)
    (hroom : ¬ heapFull m.kernel.heap size) :
    Inv l (m.returned
      { mem := setSize m.kernel.mem (heapStart l + m.kernel.heap.ptr) size
        heap := heapBump m.kernel.heap size
        mapped := mapped } n (heapStart l + m.kernel.heap.ptr + 16)) := by
  obtain ⟨bs, harena, hperm⟩ := h.blocks
  have hptr : (heapBump m.kernel.heap size).ptr = m.kernel.heap.ptr + size :=
    Nat.mod_eq_of_lt hwrap
  have hlimit : m.kernel.heap.ptr + size < 1024 * 1024 * 16 := by
    have hlimit := h.limit_eq
    unfold heapFull at hroom
    omega
  have hagree : ∀ b, Header l bs b → AgreeOn m.kernel.mem
      (setSize m.kernel.mem (heapStart l + m.kernel.heap.ptr) size) b (b + 8) := by
    intro b hb
    apply agreeOn_write32
    rcases hb with hb | ⟨d, rfl⟩
    · have hin := (harena.tiles.within hb).2
      have hpos := (harena.granted b hb).pos
      omega
    · have hbelow := l.node_below d
      have hstart : heapStart l = l.kernelEnd + 4096 := rfl
      omega
  have hkeep : ∀ b ∈ bs, sizeField (setSize m.kernel.mem (heapStart l + m.kernel.heap.ptr) size) b =
      m.blockSize b := by
    intro b hb
    exact read32_congr fun x hx hlt => hagree b (Or.inl hb) x (by omega) (by omega)
  have hnew : sizeField (setSize m.kernel.mem (heapStart l + m.kernel.heap.ptr) size)
      (heapStart l + m.kernel.heap.ptr) = size := sizeField_setSize (by omega)
  have hgrown := harena.grow hkeep hnew hgranted
  have hfresh : heapStart l + m.kernel.heap.ptr ∉ m.freed := by
    intro hmem
    have hin := (harena.tiles.within (harena.free_block _ hmem)).2
    have hpos := (harena.granted _ (harena.free_block _ hmem)).pos
    omega
  unfold Machine.returned
  rw [if_neg (by omega), Nat.add_sub_cancel, List.erase_of_not_mem hfresh]
  refine ⟨h.start_eq, h.limit_eq, hptr ▸ hlimit, ⟨bs ++ [heapStart l + m.kernel.heap.ptr], ?_, ?_⟩,
    ?_⟩
  · have hmoved : Arena l _ (heapBump m.kernel.heap size).ptr _ m.freed _ := hptr ▸ hgrown
    refine hmoved.congr (fun _ _ => rfl) ?_ ?_
    · exact fun d x hx hlt => hagree _ (Or.inr ⟨d, rfl⟩) x hx (by omega)
    · exact fun b hb => hagree b (Or.inl (harena.free_block b hb))
  · have hadd := hperm.append_right [heapStart l + m.kernel.heap.ptr]
    exact hadd.trans List.perm_append_comm
  · intro e he
    rcases List.mem_cons.mp he with rfl | he
    · have hnode : sizeField (setSize m.kernel.mem (heapStart l + m.kernel.heap.ptr) size)
          (heapStart l + m.kernel.heap.ptr + 16 - 16) = size := by
        rw [Nat.add_sub_cancel]
        exact hnew
      refine ⟨Nat.le_add_left 16 _, ?_⟩
      exact Nat.le_trans hsize (Nat.le_of_eq hnode.symm)
    · have hsame := hkeep _ (mem_blocks hperm he)
      exact ⟨(h.live e he).1, Nat.le_trans (h.live e he).2 (Nat.le_of_eq hsame.symm)⟩

/-- One call: the invariant is kept, NULL changes nothing, and new space is used only when
no free block of the class is long enough. -/
theorem kmalloc (h : Inv l m) {k : Kernel} (hallow : Allowed m (.kmalloc n p))
    (hcall : Kmalloc.kmalloc l fuel n m.kernel = some (k, p)) :
    Inv l (m.returned k n p) ∧ (p = 0 → k = m.kernel) ∧
      (k.heap.ptr ≠ m.kernel.heap.ptr → ∀ b ∈ m.freed,
        releaseClass (m.blockSize b) = (requestClass n).1 → m.blockSize b < n + 16) := by
  obtain ⟨hn, hwrap⟩ := hallow
  rcases hreq : requestClass n with ⟨c, size⟩
  rw [hreq] at hwrap
  obtain ⟨bs, harena, hperm⟩ := h.blocks
  obtain ⟨_, hgranted, hsize, _⟩ := requestClass_spec hreq
  have hsize := hsize hn
  obtain ⟨mem, node, hsearch, hcases⟩ := kmalloc_cases hreq h.heapMem_ne hcall
  have hmiss : node = 0 → mem = m.kernel.mem ∧ ∀ b ∈ m.freed,
      releaseClass (m.blockSize b) = c → m.blockSize b < n + 16 := by
    intro hzero
    rcases harena.search_spec hreq hsearch with ⟨_, hmem, hnone⟩ | ⟨hne, _⟩
    · refine ⟨hmem, fun b hb hc => ?_⟩
      exact short_of_lt hreq (harena.granted b (harena.free_block b hb)) hc (hnone b hb hc)
    · exact absurd hzero hne
  rcases hcases with ⟨hnode, rfl, rfl⟩ | ⟨hnode, _, rfl, rfl⟩ | ⟨hnode, hroom, rfl, rfl⟩
  · rcases harena.search_spec hreq hsearch with ⟨hzero, _⟩ | ⟨_, hfound⟩
    · exact absurd hzero hnode
    · rw [h.payload_eq harena (harena.free_block node hfound.isFree)]
      exact ⟨h.take harena hperm hsize hfound, fun hzero => absurd hzero (by omega),
        fun hptr => absurd rfl hptr⟩
  · obtain ⟨rfl, _⟩ := hmiss hnode
    exact ⟨h, fun _ => rfl, fun hptr => absurd rfl hptr⟩
  · obtain ⟨rfl, hnone⟩ := hmiss hnode
    have hpayload : payload (heapMem m.kernel.heap) = heapStart l + m.kernel.heap.ptr + 16 := by
      have hfits := l.fits
      have hlimit := h.limit_eq
      have hpos := hgranted.pos
      have hstart : heapStart l = l.kernelEnd + 4096 := rfl
      unfold heapFull at hroom
      unfold payload
      rw [h.heapMem_eq]
      omega
    rw [hpayload, h.heapMem_eq]
    exact ⟨h.grow hgranted hsize hwrap hroom, fun hzero => absurd hzero (by omega), fun _ => hnone⟩

theorem step (h : Inv l m) {a : Action} (hstep : Guarded (Step l) Allowed m a t) : Inv l t := by
  obtain ⟨hallow, hstep⟩ := hstep
  cases a with
  | kmalloc size p =>
    obtain ⟨fuel, k, hcall, rfl⟩ := hstep
    exact (h.kmalloc hallow hcall).1
  | kfree p =>
    obtain rfl : t = _ := hstep
    exact h.kfree hallow
  | store a byte =>
    obtain rfl : t = _ := hstep
    exact h.store hallow

theorem of_run {k : Kernel} {as : List Action} (hboot : Boot l k)
    (hrun : Run (Guarded (Step l) Allowed) ⟨k, [], []⟩ as m) : Inv l m :=
  hrun.invariant (Inv l) (fun _ _ _ h hstep => h.step hstep) hboot.inv

theorem dvd (harena : Arena l m.blockSize m.kernel.heap.ptr bs m.freed m.kernel.mem) {b : Nat}
    (hb : b ∈ bs) : 16 ∣ b := by
  refine harena.tiles.dvd ?_ (fun x hx => (harena.granted x hx).1) hb
  have haligned := l.aligned
  unfold heapStart
  omega

end Inv

/-- What the heap looks like between two calls. -/
structure Partitioned (l : Layout) (m : Machine) : Prop where
  blocks : ∃ bs, Tiles m.blockSize m.kernel.heap.start
      (m.kernel.heap.start + m.kernel.heap.ptr) bs ∧ bs.Perm (m.nodes ++ m.freed)
  apart : ∀ a ∈ m.nodes ++ m.freed, ∀ b ∈ m.nodes ++ m.freed, a ≠ b →
    Apart a (m.blockSize a) b (m.blockSize b)
  lists : ∀ c, ∃ xs, Path (next m.kernel.mem) (l.node c) xs ∧ xs.Nodup ∧
    ∀ b, b ∈ xs ↔ b ∈ m.freed ∧ releaseClass (m.blockSize b) = c
  payloads : ∀ p size, (p, size) ∈ m.live → 16 ≤ p ∧ 16 ∣ p ∧ size ≤ m.blockSize (p - 16) - 16

/-- What a call of `kmalloc` that returned `p` did. -/
structure Served (m : Machine) (n p : Nat) (t : Machine) : Prop where
  null : p = 0 → t = m
  granted : p ≠ 0 → 16 ∣ p ∧ n ≤ t.blockSize (p - 16) - 16
  frugal : t.kernel.heap.ptr ≠ m.kernel.heap.ptr → ∀ b ∈ m.freed,
    releaseClass (m.blockSize b) = (requestClass n).1 → m.blockSize b - 16 < n

theorem Inv.partitioned {m : Machine} (h : Inv l m) : Partitioned l m := by
  obtain ⟨bs, harena, hperm⟩ := h.blocks
  refine ⟨⟨bs, h.start_eq.symm ▸ harena.tiles, hperm⟩, ?_, ?_, ?_⟩
  · intro a ha b hb hne
    exact harena.tiles.apart (hperm.mem_iff.mpr ha) (hperm.mem_iff.mpr hb) hne
  · intro c
    obtain ⟨xs, hpath, hxs⟩ := harena.lists c
    exact ⟨xs, hpath, (List.nodup_cons.mp hpath.nodup).2, hxs⟩
  · intro p size hp
    obtain ⟨hp16, hsize⟩ := h.live _ hp
    have hdvd : 16 ∣ p - 16 := Inv.dvd harena (mem_blocks (c := (p, size)) hperm hp)
    exact ⟨hp16, by omega, Nat.le_sub_of_add_le hsize⟩

theorem Inv.served {m t : Machine} (h : Inv l m) (hallow : Allowed m (.kmalloc n p))
    (hstep : Step l m (.kmalloc n p) t) : Served m n p t := by
  obtain ⟨fuel, k, hcall, rfl⟩ := hstep
  obtain ⟨hinv, hnull, hfrugal⟩ := h.kmalloc hallow hcall
  refine ⟨fun hp => ?_, fun hp => ?_, fun hptr b hb hc => ?_⟩
  · rw [Machine.returned, if_pos hp, hnull hp]
  · have hlive : (p, n) ∈ (m.returned k n p).live := by
      rw [Machine.returned, if_neg hp]
      exact List.mem_cons_self
    exact (hinv.partitioned.payloads p n hlive).2
  · have hkernel : (m.returned k n p).kernel = k := by
      unfold Machine.returned
      split_ifs <;> rfl
    rw [hkernel] at hptr
    have hlt := hfrugal hptr b hb hc
    obtain ⟨bs, harena, _⟩ := h.blocks
    have hpos : 64 ≤ m.blockSize b := (harena.granted b (harena.free_block b hb)).pos
    omega

/-- In every history the blocks of the clients and the free blocks fill the heap up to the
bump pointer without overlap, the four lists hold the free blocks by their sizes, and every
call of `kmalloc` returns and is served as it should be. -/
theorem blocks_partition_heap {k : Kernel} {as : List Action} {m : Machine} (hboot : Boot l k)
    (hrun : Run (Guarded (Step l) Allowed) ⟨k, [], []⟩ as m) :
    Partitioned l m ∧
      (∀ n, ∃ p t, Step l m (.kmalloc n p) t) ∧
      ∀ n p t, Allowed m (.kmalloc n p) → Step l m (.kmalloc n p) t → Served m n p t := by
  have hinv := Inv.of_run hboot hrun
  refine ⟨hinv.partitioned, fun n => ?_, fun n p t hallow hstep => hinv.served hallow hstep⟩
  obtain ⟨bs, harena, _⟩ := hinv.blocks
  obtain ⟨fuel, ⟨k, p⟩, hcall⟩ := kmalloc_returns (n := n) (harena.search_returns _ _)
  exact ⟨p, _, fuel, k, hcall, rfl⟩

/-- An image of a little more than 128 KiB, with the four `struct KMALLOC_FREELIST` in its
last page. -/
def smallImage : Layout where
  kernelEnd := 0xF0120000
  node
    | .f64 => 0xF011F004
    | .f512 => 0xF011F014
    | .f1024 => 0xF011F024
    | .large => 0xF011F034
  aligned := by omega
  node_pos c := by cases c <;> exact Nat.succ_pos _
  node_below c := by cases c <;> simp
  node_apart c d h := by cases c <;> cases d <;> simp [Apart] at h ⊢
  fits := by omega

def bootKernel : Kernel := { mem := fun _ => 0, heap := kheap smallImage, mapped := [] }

/-- A block is made, given back and used again for a longer request. -/
theorem blocks_partition_heap_reuse : ∃ m : Machine,
    m.live = [(0xF0121010, 40)] ∧ m.freed = [] ∧ Partitioned smallImage m := by
  have hboot : Boot smallImage bootKernel := ⟨rfl, fun c => by cases c <;> rfl⟩
  obtain ⟨m, hrun, hlive, hfreed⟩ : ∃ m : Machine, Run (Guarded (Step smallImage) Allowed)
      ⟨bootKernel, [], []⟩ [.kmalloc 10 0xF0121010, .kfree 0xF0121010, .kmalloc 40 0xF0121010] m ∧
      m.live = [(0xF0121010, 40)] ∧ m.freed = [] := by
    refine ⟨_, .cons ⟨?_, 0, _, rfl, rfl⟩ (.cons ⟨?_, rfl⟩ (.cons ⟨?_, 0, _, rfl, rfl⟩ (.nil _))),
      rfl, rfl⟩
    · exact ⟨by omega, by decide⟩
    · exact Or.inr ⟨10, List.mem_cons_self⟩
    · exact ⟨by omega, by decide⟩
  exact ⟨m, hlive, hfreed, (blocks_partition_heap hboot hrun).1⟩

end OsdevCourse.Kmalloc
