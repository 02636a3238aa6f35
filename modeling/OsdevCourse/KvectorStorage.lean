import Mathlib.Data.List.Pairwise
import OsdevCourse.ByteMemory
import OsdevCourse.Kvector

/-!
# What a vector keeps in its blocks

The array of pointers of a `kvector` lies in memory, in a block that `kmalloc(_count + 4)` gave.
The capacity that is written down is a number of pointers and the request a number of bytes: the
smallest block has room for twelve pointers, and the thirteenth is stored behind it.
-/

namespace OsdevCourse.KvectorStorage

set_option autoImplicit false

open Memory
open Kvector (blockBytes)

universe u

/-- What a caller of `kmalloc` may use. -/
structure Block where
  start : Nat
  len : Nat

def Block.Apart (b c : Block) : Prop := OsdevCourse.Apart b.start b.len c.start c.len

instance : Std.Symm Block.Apart := ⟨fun _ _ h => h.symm⟩

/-- Some bytes that the vector reads or writes by a pointer to a block. -/
structure Access where
  addr : Nat
  len : Nat
  block : Block

def Access.Inside (a : Access) : Prop :=
  a.block.start ≤ a.addr ∧ a.addr + a.len ≤ a.block.start + a.block.len

/-- The memory with the blocks that are in use, none of them empty and no two of them with an
address in common. An object of the element type lives at the start of its block. -/
structure Heap (α : Type u) where
  mem : Memory
  objects : Nat → Option α
  live : List Block
  accesses : List Access
  apart : live.Pairwise Block.Apart
  pos : ∀ b ∈ live, 0 < b.len

/-- `kvector` -/
structure Vector where
  data : Nat
  count : Nat
  allocated : Nat

/-- `kvector()` -/
def Vector.empty : Vector := { data := 0, count := 0, allocated := 0 }

section Operations
variable {α : Type u}

namespace Heap

/-- The block at a pointer, empty where there is none. -/
def blockAt (s : Heap α) (p : Nat) : Block :=
  (s.live.find? fun b => b.start = p).getD { start := p, len := 0 }

/-- `p[i] = v` -/
def store (s : Heap α) (p i v : Nat) : Heap α :=
  { s with
    mem := write32 s.mem (p + 4 * i) v
    accesses := s.accesses ++ [{ addr := p + 4 * i, len := 4, block := s.blockAt p }] }

/-- `kmemcpy(des, src, len)` -/
def kmemcpy (s : Heap α) (des src len : Nat) : Heap α :=
  { s with
    mem := writeBytes s.mem des (readBytes s.mem src len)
    accesses := s.accesses ++ [{ addr := des, len := len, block := s.blockAt des },
      { addr := src, len := len, block := s.blockAt src }] }

end Heap

/-- `kmalloc(n)` gives a block of its own; what is in the other blocks stays. -/
structure Allocates (n p : Nat) (s t : Heap α) : Prop where
  nonnull : p ≠ 0
  fits : p + blockBytes n ≤ 2 ^ 32
  live : t.live = { start := p, len := blockBytes n } :: s.live
  mem : ∀ b ∈ s.live, AgreeOn s.mem t.mem b.start (b.start + b.len)
  objects : ∀ b ∈ s.live, t.objects b.start = s.objects b.start
  accesses : t.accesses = s.accesses

structure Frees (p : Nat) (s t : Heap α) : Prop where
  live : t.live = s.live.filter fun b => b.start ≠ p
  mem : ∀ b ∈ t.live, AgreeOn s.mem t.mem b.start (b.start + b.len)
  objects : ∀ b ∈ t.live, t.objects b.start = s.objects b.start
  accesses : t.accesses = s.accesses

/-- `new T(o)`, where an object takes `size` bytes. -/
structure New (size : Nat) (o : α) (p : Nat) (s t : Heap α) :
    Prop extends Allocates size p s t where
  object : t.objects p = some o

/-- The copy of the pointers and the release of the old array. -/
def Moved (new : Nat) (v : Vector) (s t : Heap α) : Prop :=
  let copied := if 0 < v.count then s.kmemcpy new v.data (v.count * 4 % 2 ^ 32) else s
  if v.data ≠ 0 then Frees v.data copied t else t = copied

/-- `if (_count +1 >= _allocated)` -/
def Grow (new : Nat) (s : Heap α) (v : Vector) (t : Heap α) (w : Vector) : Prop :=
  if v.allocated ≤ (v.count + 1) % 2 ^ 32 then
    (∃ s', Allocates ((v.count + 4) % 2 ^ 32) new s s' ∧ Moved new v s' t) ∧
      w = { v with data := new, allocated := (v.count + 4) % 2 ^ 32 }
  else t = s ∧ w = v

/-- A call of `append`, with the addresses that `kmalloc` gives for the array, if it is asked for
one, and for the element. -/
structure Call (α : Type u) where
  value : α
  new : Nat
  moved : Nat

/-- `append` -/
def Append (size : Nat) (s : Heap α × Vector) (c : Call α) (t : Heap α × Vector) : Prop :=
  ∃ s₁ v s₂, Grow c.new s.1 s.2 s₁ v ∧ New size c.value c.moved s₁ s₂ ∧
    t = (s₂.store v.data v.count c.moved, { v with count := (v.count + 1) % 2 ^ 32 })

/-- `operator[]`: the element the pointer leads to. -/
def index (s : Heap α) (v : Vector) (i : Nat) : Option α :=
  s.objects (read32 s.mem (v.data + 4 * i))

end Operations

/-! A pointer in memory. -/

section Copy
variable {m : Memory} {des src len k : Nat}

theorem read32_copy (hk : k + 4 ≤ len) :
    read32 (writeBytes m des (readBytes m src len)) (des + k) = read32 m (src + k) := by
  have hbyte : ∀ i, i < 4 → writeBytes m des (readBytes m src len)
      (des + k + i) = m (src + k + i) := by
    intro i hi
    rw [Nat.add_assoc, Nat.add_assoc, writeBytes_in (by rw [readBytes_length]; omega),
      getD_readBytes (by omega)]
  unfold read32
  have h0 := hbyte 0 (by omega)
  rw [Nat.add_zero, Nat.add_zero] at h0
  rw [h0, hbyte 1 (by omega), hbyte 2 (by omega), hbyte 3 (by omega)]

end Copy

/-! The blocks. -/

section Blocks
variable {α : Type u} {s t : Heap α} {b c : Block} {n p : Nat}

theorem Heap.eq_of_start (hb : b ∈ s.live) (hc : c ∈ s.live)
    (hstart : b.start = c.start) : b = c := by
  by_contra hne
  have hpb := s.pos b hb
  have hpc := s.pos c hc
  have hapart := s.apart.forall hb hc hne
  unfold Block.Apart Apart at hapart
  omega

theorem Heap.blockAt_eq (hb : b ∈ s.live) : s.blockAt b.start = b := by
  unfold Heap.blockAt
  cases hfind : s.live.find? fun c => c.start = b.start with
  | none =>
    have hnone := List.find?_eq_none.mp hfind b hb
    simp at hnone
  | some c =>
    have hc := List.mem_of_find?_eq_some hfind
    have hstart := List.find?_some hfind
    rw [Option.getD_some]
    exact Heap.eq_of_start hc hb (of_decide_eq_true hstart)

theorem blockBytes_pos (n : Nat) : 48 ≤ blockBytes n := by
  have hclass := OsdevCourse.Kmalloc.requestClass_pos n
  unfold blockBytes
  omega

theorem blockBytes_small (hn : n ≤ 48) : blockBytes n = 48 := by
  unfold blockBytes
  rw [OsdevCourse.Kmalloc.requestClass_small hn]
  rfl

theorem Allocates.mem_live (h : Allocates n p s t) :
    { start := p, len := blockBytes n } ∈ t.live := by
  rw [h.live]
  exact List.mem_cons_self

theorem Allocates.keeps (h : Allocates n p s t) (hb : b ∈ s.live) : b ∈ t.live := by
  rw [h.live]
  exact List.mem_cons_of_mem _ hb

theorem Allocates.ne_start (h : Allocates n p s t) (hb : b ∈ s.live) : b.start ≠ p := by
  have hpair := t.apart
  rw [h.live, List.pairwise_cons] at hpair
  have hapart := hpair.1 b hb
  have hnew := blockBytes_pos n
  have hold := s.pos b hb
  unfold Block.Apart Apart at hapart
  simp only at hapart
  omega

theorem Frees.keeps (h : Frees p s t) (hb : b ∈ s.live) (hne : b.start ≠ p) : b ∈ t.live := by
  rw [h.live, List.mem_filter]
  exact ⟨hb, decide_eq_true hne⟩

end Blocks

/-! A vector of at most twelve elements. -/

section Appends
variable {α : Type u} {size : Nat} {s t : Heap α} {v w : Vector} {xs : List α}

/-- The pointer `p` is in the array at `data`, and the element `x` lives in a block of its own. -/
structure Slot (s : Heap α) (data i : Nat) (x : α) : Prop where
  live : ∃ b ∈ s.live, b.start = read32 s.mem (data + 4 * i) ∧ b.start ≠ data
  object : s.objects (read32 s.mem (data + 4 * i)) = some x

/-- The array has room for twelve pointers and holds the ones of the elements. -/
structure Holds (xs : List α) (s : Heap α) (v : Vector) : Prop where
  count : v.count = xs.length
  room : v.allocated ≤ v.count + 4
  null : v.data = 0 → xs = [] ∧ v.allocated = 0
  block : v.data ≠ 0 → { start := v.data, len := 48 } ∈ s.live
  slots : ∀ i x, xs[i]? = some x → Slot s v.data i x
  inside : ∀ a ∈ s.accesses, a.Inside

theorem Holds.data_ne (h : Holds xs s v) {i : Nat} {x : α} (hx : xs[i]? = some x) : v.data ≠ 0 := by
  intro hnull
  rw [(h.null hnull).1, List.getElem?_nil] at hx
  exact absurd hx (by simp)

theorem getElem?_lt {i : Nat} {x : α} (hx : xs[i]? = some x) : i < xs.length := by
  by_contra hge
  rw [List.getElem?_eq_none (by omega)] at hx
  exact absurd hx (by simp)

theorem read32_slot {m m' : Memory} {data i : Nat} (hi : i < 12)
    (hmem : AgreeOn m m' data (data + 48)) : read32 m' (data + 4 * i) = read32 m (data + 4 * i) :=
  read32_congr fun a ha hb => hmem a (by omega) (by omega)

theorem Slot.congr {data i : Nat} {x : α} (h : Slot s data i x) (hi : i < 12)
    (hmem : AgreeOn s.mem t.mem data (data + 48))
    (hlive : ∀ b ∈ s.live, b.start ≠ data → b ∈ t.live ∧ t.objects b.start = s.objects b.start) :
    Slot t data i x := by
  have hread := read32_slot hi hmem
  obtain ⟨b, hb, hstart, hne⟩ := h.live
  obtain ⟨hkept, hobject⟩ := hlive b hb hne
  refine ⟨⟨b, hkept, hread.symm ▸ hstart, hne⟩, ?_⟩
  rw [hread, ← hstart, hobject, hstart]
  exact h.object

theorem accesses_inside {as : List Access} (hold : ∀ a ∈ s.accesses, a.Inside)
    (hnew : ∀ a ∈ as, a.Inside) (hlog : t.accesses = s.accesses ++ as) :
    ∀ a ∈ t.accesses, a.Inside := by
  intro a ha
  rw [hlog] at ha
  rcases List.mem_append.mp ha with ha | ha
  · exact hold a ha
  · exact hnew a ha

theorem Holds.moved {new n : Nat} {s' : Heap α} (h : Holds xs s v)
    (hlen : xs.length ≤ 12) (hn : n ≤ 48)
    (hle : n ≤ v.count + 4) (halloc : Allocates n new s s') (hmoved : Moved new v s' t) :
    Holds xs t { v with data := new, allocated := n } := by
  have hblock := halloc.mem_live
  rw [blockBytes_small hn] at hblock
  have hat : s'.blockAt new = { start := new, len := 48 } := Heap.blockAt_eq hblock
  unfold Moved at hmoved
  by_cases hnull : v.data = 0
  · have hempty := (h.null hnull).1
    have hcount : ¬0 < v.count := by
      rw [h.count, hempty, List.length_nil]
      omega
    rw [if_neg hcount, if_neg (not_not.mpr hnull)] at hmoved
    subst hmoved
    refine ⟨h.count, hle, fun hzero => absurd hzero halloc.nonnull, fun _ => hblock, ?_, ?_⟩
    · intro i x hx
      exact absurd hnull (h.data_ne hx)
    · rw [halloc.accesses]
      exact h.inside
  · have hold := h.block hnull
    have hdata : v.data ≠ new := halloc.ne_start hold
    have hatOld : s'.blockAt v.data = { start := v.data, len := 48 } :=
      Heap.blockAt_eq (halloc.keeps hold)
    rw [if_pos hnull] at hmoved
    have hbytes : v.count * 4 % 2 ^ 32 = v.count * 4 := Nat.mod_eq_of_lt (by rw [h.count]; omega)
    rw [hbytes] at hmoved
    refine ⟨h.count, hle, fun hzero => absurd hzero halloc.nonnull, fun _ => ?_, ?_, ?_⟩
    · apply hmoved.keeps
      · split_ifs
        · exact hblock
        · exact hblock
      · exact fun heq => hdata heq.symm
    · intro i x hx
      have hi := getElem?_lt hx
      have hcount : 0 < v.count := by
        rw [h.count]
        omega
      rw [if_pos hcount] at hmoved
      have hslot := h.slots i x hx
      have hread : read32 t.mem (new + 4 * i) = read32 s.mem (v.data + 4 * i) := by
        have hfreed := hmoved.mem _ (hmoved.keeps (b := { start := new, len := 48 }) hblock
          (fun heq => hdata heq.symm))
        have hcopied : read32 (writeBytes s'.mem new (readBytes s'.mem v.data (v.count * 4)))
            (new + 4 * i) = read32 s'.mem (v.data + 4 * i) := by
          apply read32_copy
          rw [h.count]
          omega
        have hkept := halloc.mem _ hold
        exact (read32_slot (by omega) hfreed).trans (hcopied.trans (read32_slot (by omega) hkept))
      obtain ⟨b, hb, hstart, hne⟩ := hslot.live
      have hb' := halloc.keeps hb
      have hbt : b ∈ t.live := hmoved.keeps hb' hne
      refine ⟨⟨b, hbt, hread.symm ▸ hstart, halloc.ne_start hb⟩, ?_⟩
      rw [hread, ← hstart, hmoved.objects b hbt]
      have hobject := halloc.objects b hb
      have hvalue := hslot.object
      rw [← hstart] at hvalue
      exact hobject.trans hvalue
    · have hlog : ∀ a ∈ s'.accesses, a.Inside := by
        rw [halloc.accesses]
        exact h.inside
      rw [hmoved.accesses]
      split_ifs
      · refine accesses_inside hlog ?_ rfl
        intro a ha
        rw [List.mem_cons, List.mem_singleton, hat, hatOld] at ha
        have hsmall := h.count
        rcases ha with ha | ha
        · rw [ha]
          exact ⟨Nat.le_refl _, by simp only; omega⟩
        · rw [ha]
          exact ⟨Nat.le_refl _, by simp only; omega⟩
      · exact hlog

theorem Holds.grow {new : Nat} (h : Holds xs s v) (hlen : xs.length ≤ 12)
    (hgrow : Grow new s v t w) :
    Holds xs t w ∧ w.data ≠ 0 ∧ w.count = v.count := by
  have hcount := h.count
  unfold Grow at hgrow
  split_ifs at hgrow with hfull
  · obtain ⟨⟨s', halloc, hmoved⟩, hw⟩ := hgrow
    rw [hw]
    have hrequest : (v.count + 4) % 2 ^ 32 = v.count + 4 := Nat.mod_eq_of_lt (by omega)
    rw [hrequest] at halloc ⊢
    exact ⟨h.moved hlen (by omega) (Nat.le_refl _) halloc hmoved, halloc.nonnull, rfl⟩
  · obtain ⟨ht, hw⟩ := hgrow
    rw [ht, hw]
    refine ⟨h, fun hnull => ?_, rfl⟩
    have hzero := (h.null hnull).2
    omega

theorem Holds.stored {o : α} {p : Nat} (h : Holds xs s v) (hlen : xs.length < 12)
    (hdata : v.data ≠ 0)
    (hnew : New size o p s t) :
    Holds (xs ++ [o]) (t.store v.data v.count p) { v with count := (v.count + 1) % 2 ^ 32 } := by
  have hcount := h.count
  have hroom := h.room
  have hblock := h.block hdata
  have hnext : (v.count + 1) % 2 ^ 32 = v.count + 1 := Nat.mod_eq_of_lt (by omega)
  have hkept := hnew.keeps hblock
  have hat : t.blockAt v.data = { start := v.data, len := 48 } := Heap.blockAt_eq hkept
  rw [hnext]
  refine ⟨?_, ?_, fun hnull => absurd hnull hdata, fun _ => hkept, ?_, ?_⟩
  · rw [List.length_append, List.length_singleton, ← hcount]
  · exact Nat.le_trans hroom (Nat.le_succ _)
  · intro i x hx
    rcases Nat.lt_or_ge i xs.length with hi | hi
    · rw [List.getElem?_append_left hi] at hx
      have hslot : Slot t v.data i x := (h.slots i x hx).congr (by omega) (hnew.mem _ hblock)
        fun b hb _ => ⟨hnew.keeps hb, hnew.objects b hb⟩
      have hread : read32 (t.store v.data v.count p).mem (v.data + 4 * i) =
          read32 t.mem (v.data + 4 * i) := read32_write32_of_disjoint (by omega)
      obtain ⟨b, hb, hstart, hne⟩ := hslot.live
      refine ⟨⟨b, hb, hread.symm ▸ hstart, hne⟩, ?_⟩
      rw [hread]
      exact hslot.object
    · have hlast : i = xs.length := by
        have hin := getElem?_lt hx
        rw [List.length_append, List.length_singleton] at hin
        omega
      rw [hlast, List.getElem?_concat_length] at hx
      have hvalue : o = x := Option.some.inj hx
      have hsmall : p < 2 ^ 32 := by
        have hfits := hnew.fits
        have hpos := blockBytes_pos size
        omega
      have hread : read32 (t.store v.data v.count p).mem (v.data + 4 * i) = p := by
        rw [hlast, ← hcount]
        exact read32_write32 hsmall
      refine ⟨⟨_, hnew.mem_live, hread.symm, fun heq => hnew.ne_start hblock heq.symm⟩, ?_⟩
      rw [hread, ← hvalue]
      exact hnew.object
  · refine accesses_inside (s := t) ?_ ?_ rfl
    · rw [hnew.accesses]
      exact h.inside
    · intro a ha
      rw [List.mem_singleton.mp ha, hat]
      exact ⟨Nat.le_add_right _ _, by simp only; omega⟩

theorem Holds.append {c : Call α} (h : Holds xs s v) (happend : Append size (s, v) c (t, w)) :
    (xs.length < 12 → Holds (xs ++ [c.value]) t w) ∧
    (xs.length = 12 → ∃ a ∈ t.accesses, ¬a.Inside) := by
  obtain ⟨s₁, u, s₂, hgrow, hnew, hend⟩ := happend
  obtain ⟨ht, hw⟩ := Prod.mk.inj hend
  rw [ht, hw]
  constructor
  · intro hlen
    obtain ⟨hgrown, hdata, _⟩ := h.grow (Nat.le_of_lt hlen) hgrow
    exact hgrown.stored hlen hdata hnew
  · intro hlen
    obtain ⟨hgrown, hdata, _⟩ := h.grow (Nat.le_of_eq hlen) hgrow
    have hat : s₂.blockAt u.data = { start := u.data, len := 48 } :=
      Heap.blockAt_eq (hnew.keeps (hgrown.block hdata))
    refine ⟨_, List.mem_append_right _ List.mem_cons_self, fun hinside => ?_⟩
    have hcount := hgrown.count
    rw [hat] at hinside
    have hend := hinside.2
    simp only at hend
    omega

theorem Moved.accesses {new : Nat} (hmoved : Moved new v s t) {a : Access} (ha : a ∈ s.accesses) :
    a ∈ t.accesses := by
  unfold Moved at hmoved
  simp only at hmoved
  split_ifs at hmoved
  · rw [hmoved.accesses]
    exact List.mem_append_left _ ha
  · rw [hmoved.accesses]
    exact ha
  · rw [hmoved]
    exact List.mem_append_left _ ha
  · rw [hmoved]
    exact ha

theorem append_accesses {c : Call α} (happend : Append size (s, v) c (t, w)) {a : Access}
    (ha : a ∈ s.accesses) : a ∈ t.accesses := by
  obtain ⟨s₁, u, s₂, hgrow, hnew, hend⟩ := happend
  rw [(Prod.mk.inj hend).1]
  apply List.mem_append_left
  rw [hnew.accesses]
  unfold Grow at hgrow
  split_ifs at hgrow
  · obtain ⟨⟨s', halloc, hmoved⟩, _⟩ := hgrow
    apply hmoved.accesses
    rw [halloc.accesses]
    exact ha
  · rw [hgrow.1]
    exact ha

/-- A vector after so many appends. -/
def Reached (as : List (Call α)) (r : Heap α × Vector) : Prop :=
  (as.length ≤ 12 → Holds (as.map Call.value) r.1 r.2) ∧
  (12 < as.length → ∃ a ∈ r.1.accesses, ¬a.Inside)

theorem Reached.append {as : List (Call α)} {c : Call α} {r r' : Heap α × Vector}
    (h : Reached as r) (happend : Append size r c r') : Reached (as ++ [c]) r' := by
  obtain ⟨s, v⟩ := r
  obtain ⟨t, w⟩ := r'
  have hlength : (as ++ [c]).length = as.length + 1 := by
    rw [List.length_append, List.length_singleton]
  have hvalues : (as.map Call.value).length = as.length := List.length_map ..
  constructor
  · intro hle
    have hstep := (h.1 (by omega)).append happend
    rw [List.map_append]
    exact hstep.1 (by omega)
  · intro hlt
    rcases Nat.lt_or_ge 12 as.length with hlong | hshort
    · obtain ⟨a, ha, hout⟩ := h.2 hlong
      exact ⟨a, append_accesses happend ha, hout⟩
    · exact ((h.1 hshort).append happend).2 (by omega)

theorem reached {as : List (Call α)} (hempty : s.accesses = [])
    (hrun : Run (Append size) (s, Vector.empty) as (t, v)) : Reached as (t, v) := by
  apply hrun.trace_invariant Reached
  · exact fun bs r c r' h happend => h.append happend
  · refine ⟨fun _ => ⟨rfl, Nat.zero_le _, fun _ => ⟨rfl, rfl⟩, fun hne => absurd rfl hne, ?_, ?_⟩,
      fun hlt => ?_⟩
    · intro i x hx
      exact absurd hx (by simp)
    · intro a ha
      rw [hempty] at ha
      exact absurd ha List.not_mem_nil
    · exact absurd hlt (by simp)

/-- A vector stays inside its storage and gives its elements back for up to twelve appends. -/
theorem kvector_inside_iff {as : List (Call α)} (hempty : s.accesses = [])
    (hrun : Run (Append size) (s, Vector.empty) as (t, v)) :
    ((∀ a ∈ t.accesses, a.Inside) ∧ ∀ i, i < as.length → index t v i = (as.map Call.value)[i]?) ↔
      as.length ≤ 12 := by
  have hreached := reached hempty hrun
  constructor
  · rintro ⟨hinside, _⟩
    by_contra hlong
    obtain ⟨a, ha, hout⟩ := hreached.2 (by omega)
    exact hout (hinside a ha)
  · intro hle
    have hholds := hreached.1 hle
    refine ⟨hholds.inside, fun i hi => ?_⟩
    have hlen : i < (as.map Call.value).length := by rwa [List.length_map]
    rw [List.getElem?_eq_getElem hlen]
    exact (hholds.slots i _ (List.getElem?_eq_getElem hlen)).object

end Appends

/-! A heap that gives its blocks one behind the other. -/

section Runs
variable {α : Type u} {size top : Nat} {s : Heap α} {v : Vector}

def Below (top : Nat) (s : Heap α) : Prop := ∀ b ∈ s.live, b.start + b.len ≤ top

/-- A block of 48 bytes behind all the others. -/
def Heap.take (s : Heap α) (p : Nat) (o : Option α) (hbelow : Below p s) : Heap α :=
  { s with
    live := { start := p, len := 48 } :: s.live
    objects := fun x => if x = p then o else s.objects x
    apart := List.pairwise_cons.mpr ⟨fun b hb => Or.inr (hbelow b hb), s.apart⟩
    pos := List.forall_mem_cons.mpr ⟨Nat.succ_pos 47, s.pos⟩ }

def Heap.release (s : Heap α) (p : Nat) : Heap α :=
  { s with
    live := s.live.filter fun b => b.start ≠ p
    apart := s.apart.filter _
    pos := fun b hb => s.pos b (List.mem_filter.mp hb).1 }

theorem below_take {p : Nat} {o : Option α} (hbelow : Below p s) :
    Below (p + 48) (s.take p o hbelow) := by
  intro b hb
  rcases List.mem_cons.mp hb with hb | hb
  · exact Nat.le_of_eq (congrArg (fun c : Block => c.start + c.len) hb)
  · exact Nat.le_trans (hbelow b hb) (Nat.le_add_right _ _)

theorem allocates_take {n p : Nat} {o : Option α} (hbelow : Below p s) (hn : n ≤ 48) (hp : p ≠ 0)
    (hfits : p + 48 ≤ 2 ^ 32) : Allocates n p s (s.take p o hbelow) := by
  refine ⟨hp, by rwa [blockBytes_small hn], by rw [blockBytes_small hn]; rfl, fun b hb x _ _ => rfl,
    fun b hb => if_neg ?_, rfl⟩
  have hend := hbelow b hb
  have hpos := s.pos b hb
  omega

theorem exists_append (o : α) (hsize : size ≤ 48) (hcount : v.count ≤ 44) (htop : top ≠ 0)
    (hfits : top + 96 ≤ 2 ^ 32) (hbelow : Below top s) :
    ∃ t w, Append size (s, v) { value := o, new := top, moved := top + 48 } (t, w) ∧
      w.count = v.count + 1 ∧ Below (top + 96) t := by
  have hnext : (v.count + 1) % 2 ^ 32 = v.count + 1 := Nat.mod_eq_of_lt (by omega)
  have hrequest : (v.count + 4) % 2 ^ 32 = v.count + 4 := Nat.mod_eq_of_lt (by omega)
  have hgrown : ∃ s₁ w, Grow top s v s₁ w ∧ w.count = v.count ∧ Below (top + 48) s₁ := by
    unfold Grow
    by_cases hfull : v.allocated ≤ (v.count + 1) % 2 ^ 32
    · simp only [if_pos hfull, hrequest]
      have halloc : Allocates (v.count + 4) top s (s.take top none hbelow) :=
        allocates_take hbelow (by omega) htop (by omega)
      let copied := if 0 < v.count then
        (s.take top none hbelow).kmemcpy top v.data
          (v.count * 4 % 2 ^ 32) else s.take top none hbelow
      have hcopied : Below (top + 48) copied := by
        intro b hb
        have hlive : copied.live = (s.take top none hbelow).live := by
          unfold copied
          split_ifs <;> rfl
        rw [hlive] at hb
        exact below_take hbelow b hb
      by_cases hnull : v.data = 0
      · refine ⟨copied, _, ⟨⟨_, halloc, ?_⟩, rfl⟩, rfl, hcopied⟩
        unfold Moved
        rw [if_neg (not_not.mpr hnull)]
      · refine ⟨copied.release v.data, _, ⟨⟨_, halloc, ?_⟩, rfl⟩, rfl, ?_⟩
        · unfold Moved
          rw [if_pos hnull]
          exact ⟨rfl, fun b hb x _ _ => rfl, fun b hb => rfl, rfl⟩
        · exact fun b hb => hcopied b (List.mem_filter.mp hb).1
    · simp only [if_neg hfull]
      exact ⟨s, v, ⟨rfl, rfl⟩, rfl, fun b hb => Nat.le_trans (hbelow b hb) (Nat.le_add_right _ _)⟩
  obtain ⟨s₁, w, hgrow, hwcount, hbelow₁⟩ := hgrown
  have hnew : New size o (top + 48) s₁ (s₁.take (top + 48) (some o) hbelow₁) :=
    ⟨allocates_take hbelow₁ hsize (by omega) (by omega), if_pos rfl⟩
  refine ⟨_, _, ⟨s₁, w, _, hgrow, hnew, rfl⟩, ?_, below_take (o := some o) hbelow₁⟩
  simp only [hwcount, hnext]

theorem exists_appends (xs : List α) (hsize : size ≤ 48) (hcount : v.count + xs.length ≤ 45)
    (htop : top ≠ 0) (hfits : top + 96 * xs.length ≤ 2 ^ 32) (hbelow : Below top s) :
    ∃ as t w, as.map Call.value = xs ∧ Run (Append size) (s, v) as (t, w) := by
  induction xs generalizing s v top with
  | nil => exact ⟨[], s, v, rfl, .nil _⟩
  | cons x xs ih =>
    rw [List.length_cons] at hcount hfits
    obtain ⟨t, w, happend, hwcount, hbelow'⟩ := exists_append x hsize (v := v) (by omega) htop
      (by omega) hbelow
    obtain ⟨as, u, w', hvalues, hrun⟩ := ih (v := w) (by omega) (by omega) (by omega) hbelow'
    refine ⟨_ :: as, u, w', ?_, .cons happend hrun⟩
    rw [List.map_cons, hvalues]

/-- Nothing is in use. -/
def Heap.fresh (α : Type u) : Heap α where
  mem _ := 0
  objects _ := none
  live := []
  accesses := []
  apart := List.Pairwise.nil
  pos _ hb := absurd hb List.not_mem_nil

/-- Twelve numbers are appended, and the array grows on the way. -/
theorem kvector_inside_twelve : ∃ (as : List (Call Nat)) (t : Heap Nat) (v : Vector),
    as.map Call.value = List.range 12 ∧ ((∀ a ∈ t.accesses, a.Inside) ∧
      ∀ i, i < as.length → index t v i = (as.map Call.value)[i]?) := by
  obtain ⟨as, t, v, hvalues, hrun⟩ := @exists_appends Nat 4 4096 (Heap.fresh Nat) Vector.empty
    (List.range 12) (by omega) (by decide) (by omega) (by decide)
    (fun b hb => absurd hb List.not_mem_nil)
  refine ⟨as, t, v, hvalues, (kvector_inside_iff rfl hrun).mpr ?_⟩
  have hlength := congrArg List.length hvalues
  rw [List.length_map, List.length_range] at hlength
  exact Nat.le_of_eq hlength

/-- The thirteenth of thirteen numbers is stored outside. -/
theorem kvector_thirteenth_outside : ∃ (as : List (Call Nat)) (t : Heap Nat) (v : Vector),
    as.map Call.value = List.range 13 ∧
    Run (Append 4) (Heap.fresh Nat, Vector.empty) as (t, v) ∧ ∃ a ∈ t.accesses, ¬a.Inside := by
  obtain ⟨as, t, v, hvalues, hrun⟩ := @exists_appends Nat 4 4096 (Heap.fresh Nat) Vector.empty
    (List.range 13) (by omega) (by decide) (by omega) (by decide)
    (fun b hb => absurd hb List.not_mem_nil)
  have hlength := congrArg List.length hvalues
  rw [List.length_map, List.length_range] at hlength
  exact ⟨as, t, v, hvalues, hrun, (reached rfl hrun).2 (by omega)⟩

end Runs

end OsdevCourse.KvectorStorage
