import OsdevCourse.MmuInit

/-!
# Frames from `mmu_init` on

What `mmu_init` leaves satisfies the invariant when no frame is pushed twice, so every frame
it has put in the pool stays in exactly one place. `mmu_init` does not look at what it has
pushed: a memory map that lists a frame in two regions puts it in the pool twice.
-/

namespace OsdevCourse.Mmu

set_option autoImplicit false

open PageEntry

/-! ### `mmu_init` under the running kernel's handler -/

section Within
variable {k : Kernel} {f g : Fault} (hfg : Within f g)
include hfg

theorem initFrame_within {start ptIndex : Nat} {s : State} {r : Nat × State}
    (h : initFrame k f start ptIndex s = some r) : initFrame k g start ptIndex s = some r := by
  unfold initFrame at *
  split at h
  · rename_i hlow
    rw [if_pos hlow]
    exact h
  · rename_i hlow
    rw [if_neg hlow]
    split at h
    · rename_i hhigh
      rw [if_pos hhigh]
      exact h
    · rename_i hhigh
      rw [if_neg hhigh]
      simp only [Option.bind_eq_bind, Option.bind_some] at h ⊢
      split at h
      · rename_i hgrow
        rw [if_pos hgrow]
        obtain ⟨x, hx, h⟩ := Option.bind_eq_some_iff.1 h
        obtain ⟨y, hy, h⟩ := Option.bind_eq_some_iff.1 h
        obtain ⟨s₁, hs₁, h⟩ := Option.bind_eq_some_iff.1 h
        exact Option.bind_eq_some_iff.2 ⟨x, mmuMark_within hfg hx,
          Option.bind_eq_some_iff.2 ⟨y, readWord_within hfg hy,
          Option.bind_eq_some_iff.2 ⟨s₁, writeWord_within hfg hs₁, h⟩⟩⟩
      · rename_i hgrow
        rw [if_neg hgrow]
        obtain ⟨s₁, hs₁, h⟩ := Option.bind_eq_some_iff.1 h
        exact Option.bind_eq_some_iff.2 ⟨s₁, writeWord_within hfg hs₁, h⟩

theorem initFrames_within {n start ptIndex : Nat} {s : State} {r : Nat × State}
    (h : initFrames k f n start ptIndex s = some r) :
    initFrames k g n start ptIndex s = some r := by
  induction n generalizing start ptIndex s with
  | zero => exact h
  | succ n ih =>
    simp only [initFrames, Option.bind_eq_bind, Option.bind_eq_some_iff] at h ⊢
    obtain ⟨x, hx, h⟩ := h
    exact ⟨x, initFrame_within hfg hx, ih h⟩

theorem initRegions_within {map : List Region} {ptIndex : Nat} {s : State} {r : Nat × State}
    (h : initRegions k f map ptIndex s = some r) : initRegions k g map ptIndex s = some r := by
  induction map generalizing ptIndex s with
  | nil => exact h
  | cons region map ih =>
    simp only [initRegions, Option.bind_eq_bind] at h ⊢
    split at h
    · rename_i hother
      rw [if_pos hother]
      exact ih h
    · rename_i hram
      rw [if_neg hram]
      obtain ⟨x, hx, h⟩ := Option.bind_eq_some_iff.1 h
      exact Option.bind_eq_some_iff.2 ⟨x, initFrames_within hfg hx, ih h⟩

theorem mmuInit_within {map : List Region} {s s' : State} (h : mmuInit k f map s = some s') :
    mmuInit k g map s = some s' := by
  unfold mmuInit at *
  simp only [Option.bind_eq_bind, Option.bind_eq_some_iff] at h ⊢
  obtain ⟨x, hx, h⟩ := h
  exact ⟨x, initRegions_within hfg hx, h⟩

end Within

theorem pageFault_zero_within (k : Kernel) (g : Fault) : Within (pageFault k 0) g := by
  intro addr s s' h
  exact absurd h (by simp [pageFault, int0E])

theorem mmuInit_quiet {k : Kernel} {ram : Memory} {map : List Region}
    (hnodup : (usableFrames k map).Nodup) {depth : Nat} {s : State}
    (h : mmuInit k (pageFault k depth) map (bootState k ram) = some s) :
    ∃ ptIndex, Filling k (usableFrames k map) ptIndex s ∧ 1024 * ptIndex ≤ s.framesIndex ∧
      Quiet k (loopStart k (bootState k ram)) s := by
  have hdeep : ∀ d, mmuInit k (pageFault k (d + 1)) map (bootState k ram) = some s →
      ∃ ptIndex, Filling k (usableFrames k map) ptIndex s ∧ 1024 * ptIndex ≤ s.framesIndex ∧
        Quiet k (loopStart k (bootState k ram)) s := by
    intro d hd
    obtain ⟨ptIndex, s', hs', hleft⟩ := mmuInit_spec k ram map hnodup d
    have heq := (mmuInit_within (pageFaultFed_within k (d + 1)) hs').symm.trans hd
    rw [Option.some.inj heq] at hleft
    exact ⟨ptIndex, hleft⟩
  cases depth with
  | zero => exact hdeep 0 (mmuInit_within (pageFault_zero_within k _) h)
  | succ depth => exact hdeep depth h

theorem mmuInit_filling {k : Kernel} {ram : Memory} {map : List Region}
    (hnodup : (usableFrames k map).Nodup) {depth : Nat} {s : State}
    (h : mmuInit k (pageFault k depth) map (bootState k ram) = some s) :
    ∃ ptIndex, Filling k (usableFrames k map) ptIndex s ∧ 1024 * ptIndex ≤ s.framesIndex := by
  obtain ⟨ptIndex, hfilling, hlow, _⟩ := mmuInit_quiet hnodup h
  exact ⟨ptIndex, hfilling, hlow⟩

/-! ### The invariant after `mmu_init` -/

theorem initPte_frame {k : Kernel} {i : Nat} (h : present (initPte k i) = true) :
    (frameOf (initPte k i)).toNat < k.kernelEnd := by
  unfold initPte at *
  have hend := k.end_le
  have himage := k.inImage k.pd (by simp)
  split at h
  · rename_i hi
    rw [if_pos hi, BitVec.ofNat_add, frameOf_static (isFrame_ofNat (Nat.dvd_mul_right 4096 i)),
      BitVec.toNat_ofNat, Nat.mod_eq_of_lt (by omega)]
    cases hi.2 with
    | inl hzero =>
      rw [hzero]
      omega
    | inr hlt => omega
  · exact absurd h (by decide)

theorem initPte_not_ondemand (k : Kernel) (i : Nat) :
    initPte k i &&& mmuPageOndemand = 0#32 := by
  unfold initPte
  split
  · have hframe := isFrame_ofNat (Nat.dvd_mul_right 4096 i)
    rw [BitVec.ofNat_add, add_flags hframe (show IsFlags 3#32 from by decide),
      BitVec.and_or_distrib_right,
      isFrame_and_flags hframe (show IsFlags mmuPageOndemand from by decide)]
    rfl
  · rfl

/-- The state after `mmu_init`: the pages of the image are the only ones in use. -/
def afterInit (k : Kernel) (s : State) : Machine where
  state := s
  uses := fun p => if mapped k s p = true then .fixed else .free
  clones := []
  hand := none
  aside := none

namespace Filling
variable {k : Kernel} {pushed : List Word} {ptIndex : Nat} {s : State}
  (h : Filling k pushed ptIndex s)
include h

theorem slot_present {j : Nat} : present (s.mem k.framepoolPt j) = true ↔ j ≤ ptIndex := by
  constructor
  · intro hpresent
    cases Nat.lt_or_ge ptIndex j with
    | inl hlt =>
      rw [h.empty j hlt] at hpresent
      exact absurd hpresent (by decide)
    | inr hle => exact hle
  · exact h.page_present

theorem pde_present {d : Nat} (hpresent : present (Mmu.pde k s d) = true) :
    d = 1023 ∨ d = 1022 ∨ d = 960 := by
  unfold Mmu.pde at hpresent
  rw [h.directory] at hpresent
  unfold initPde at hpresent
  split at hpresent
  · exact .inl ‹_›
  · split at hpresent
    · exact .inr (.inl ‹_›)
    · split at hpresent
      · exact .inr (.inr ‹_›)
      · exact absurd hpresent (by decide)

theorem pte_image {p : Nat} (hd : p / 1024 = 960) : pte k s p = initPte k (p % 1024) := by
  unfold pte table Mmu.pde
  rw [hd, h.directory 960]
  exact (congrArg (fun f => s.mem f (p % 1024)) (frameOf_static k.isFrame_pt)).trans
    (h.bootTable _)

/-- The only pages that are mapped below the pool array are the image's. -/
theorem mapped_image {p : Nat} (hp : p < pageLimit) (hmapped : mapped k s p = true) :
    (frameOf (pte k s p)).toNat < k.kernelEnd := by
  obtain ⟨hpde, hpte⟩ := mapped_iff.1 hmapped
  have hd : p / 1024 = 960 := by
    have hlimit : p / 1024 < 1022 := by
      unfold pageLimit mmuFramepoolVma at hp
      omega
    have hcases := h.pde_present hpde
    omega
  rw [h.pte_image hd] at hpte ⊢
  exact initPte_frame hpte

theorem frames_nodup (hnodup : pushed.Nodup) :
    ((List.range s.framesIndex).map (poolWord k s)).Nodup :=
  (List.nodup_append.1 (h.perm.nodup_iff.2 hnodup)).1

theorem word_backed {i : Nat} (hi : i < s.framesIndex) :
    present (s.mem k.framepoolPt (i / 1024)) = true := by
  have hhigh := h.high
  exact h.page_present (by omega)

/-- The pages of the pool behind the first are the ones that are backed. -/
theorem mem_pages (hroom : s.framesIndex < 2 ^ 20) (hlow : 1024 * ptIndex ≤ s.framesIndex)
    {f : Word} :
    f ∈ ((List.range ptIndex).map fun j => poolPage k s (j + 1)) ↔
      ∃ j, 0 < j ∧ j < 1024 ∧ present (s.mem k.framepoolPt j) = true ∧ poolPage k s j = f := by
  constructor
  · intro hf
    obtain ⟨j, hj, heq⟩ := List.mem_map.1 hf
    have hlt := List.mem_range.1 hj
    exact ⟨j + 1, by omega, by omega, h.page_present (by omega), heq⟩
  · intro hf
    obtain ⟨j, hpos, _, hpresent, heq⟩ := hf
    have hle := h.slot_present.1 hpresent
    refine List.mem_map.2 ⟨j - 1, List.mem_range.2 (by omega), ?_⟩
    rw [Nat.sub_add_cancel hpos]
    exact heq

section Invariant
variable (hframes : ∀ f ∈ pushed, PoolFrame k f) (hnodup : pushed.Nodup)
  (hlow : 1024 * ptIndex ≤ s.framesIndex) (outside : Word → Prop)
include hframes hnodup hlow

/-- What `mmu_init` has left in the pool and behind its array. -/
def left : Pool k where
  frames := (List.range s.framesIndex).map (poolWord k s)
  entries := s.mem k.framepoolPt
  put := pushed
  outside := outside
  nodup := h.frames_nodup hnodup
  isFrame := by
    intro f hf
    exact (hframes f (h.perm.subset (List.mem_append_left _ hf))).isFrame
  aboveImage := by
    intro f hf
    exact (hframes f (h.perm.subset (List.mem_append_left _ hf))).aboveImage
  length_le := by
    rw [List.length_map, List.length_range]
    exact Nat.le_of_lt (h.framesIndex_lt hframes hnodup)
  populated := by
    intro i hi
    rw [List.length_map, List.length_range] at hi
    exact h.word_backed hi
  settled := by
    intro j
    cases Nat.lt_or_ge ptIndex j with
    | inl hlt => exact .inr (h.empty j hlt)
    | inr hle => exact .inl (h.page_present hle)
  injective := by
    intro i _ j _ hi hj heq
    exact h.poolPage_inj hframes hnodup (h.slot_present.1 hi) (h.slot_present.1 hj) heq
  apart := by
    intro j _ hj
    have hle := h.slot_present.1 hj
    refine ⟨?_, h.poolPage_ne hframes hle⟩
    intro hmem
    obtain ⟨i, hi, heq⟩ := List.mem_map.1 hmem
    exact h.poolWord_ne_poolPage hframes hnodup (List.mem_range.1 hi) hle heq
  mem_put := by
    intro f
    rw [← h.perm.mem_iff, contents, List.mem_append]
    exact or_congr Iff.rfl (h.mem_pages (h.framesIndex_lt hframes hnodup) hlow)

theorem own : ∀ f ∈ (h.left hframes hnodup hlow outside).frames,
    OwnedOnce (holds k (afterInit k s)) f := by
  intro f hf
  obtain ⟨i, hi, heq⟩ := List.mem_map.1 hf
  have hlt : i < s.framesIndex := List.mem_range.1 hi
  have habove := (hframes f (heq ▸ h.poolWord_mem hlt)).aboveImage
  have hstatic := ne_static hframes (heq ▸ h.poolWord_mem hlt)
  refine ⟨.pool i, holds_pool.2 ⟨hlt, heq⟩, ?_⟩
  intro q hq
  cases q with
  | pool j =>
    obtain ⟨hj, hword⟩ := holds_pool.1 hq
    rw [h.poolWord_inj hnodup hj hlt (hword.trans heq.symm)]
  | page p =>
    obtain ⟨hp, _, hmapped, hframe⟩ := holds_page.1 hq
    have hbelow := h.mapped_image hp hmapped
    rw [show frameOf (pte k s p) = f from hframe] at hbelow
    unfold Kernel.kend at habove
    omega
  | table d =>
    exfalso
    obtain ⟨_, hpresent, htable⟩ := holds_table.1 hq
    have hword : table k s d = frameOf (initPde k d) := congrArg frameOf (h.directory d)
    apply hstatic
    rw [← show table k s d = f from htable, hword]
    rcases h.pde_present hpresent with hd | hd | hd
    · simp [hd, initPde, frameOf_static k.isFrame_pd, Kernel.statics]
    · simp [hd, initPde, frameOf_static k.isFrame_framepoolPt, Kernel.statics]
    · simp [hd, initPde, frameOf_static k.isFrame_pt, Kernel.statics]
  | backing j =>
    obtain ⟨⟨_, _, hpresent⟩, hpage⟩ := holds_backing.1 hq
    exact absurd (heq.trans hpage.symm)
      (h.poolWord_ne_poolPage hframes hnodup hlt (h.slot_present.1 hpresent))
  | directory n => exact absurd hq (by simp [holds, afterInit])
  | hand => exact absurd hq (by simp [holds, afterInit])
  | aside => exact absurd hq (by simp [holds, afterInit])

variable (himage : ∀ f : Word, f.toNat < k.kernelEnd → outside f)
include himage

theorem inv : Inv (h.left hframes hnodup hlow outside) (afterInit k s) where
  cr3 := .inl h.cr3
  selfEntry := h.directory 1023
  poolEntry := h.directory 1022
  bootEntry := h.directory 960
  poolTable := fun _ => rfl
  own := h.own hframes hnodup hlow outside
  inPool := by
    intro i hi
    exact List.mem_map_of_mem (List.mem_range.2 hi)
  inTables := by
    intro d hd hne hpresent
    have hcases := h.pde_present hpresent
    omega
  settled := by
    intro d hd
    cases Nat.decEq d 960 with
    | isTrue heq =>
      left
      rw [heq]
      unfold Mmu.pde
      rw [show (afterInit k s).state = s from rfl, h.directory]
      exact present_static k.isFrame_pt
    | isFalse hne =>
      right
      refine (h.directory d).trans ?_
      unfold initPde
      rw [if_neg (by omega), if_neg (by omega), if_neg hne]
  demand := by
    intro p hp huse
    simp only [afterInit] at huse
    split at huse <;> exact absurd huse (by decide)
  notDemand := by
    intro p hp _ hmapped
    exact himage _ (h.mapped_image hp hmapped)
  inUse := by
    intro p hp hmapped
    simp only [afterInit] at hmapped ⊢
    rw [if_pos hmapped]
    decide
  ondemand := by
    intro p hp hpresent hondemand
    exfalso
    apply hondemand
    have hd : p / 1024 = 960 := by
      have hlimit : p / 1024 < 1022 := by
        unfold pageLimit mmuFramepoolVma at hp
        omega
      have hcases := h.pde_present hpresent
      omega
    rw [show pte k (afterInit k s).state p = pte k s p from rfl, h.pte_image hd]
    exact initPte_not_ondemand k _
  inClones := by simp [afterInit]
  inHand := by simp [afterInit]
  inAside := by simp [afterInit]
  cloneUser := by simp [afterInit]
  cloneKernel := by simp [afterInit]
  cloneSelf := by simp [afterInit]
  clondpd := by simp [afterInit]

theorem ready : Ready (h.left hframes hnodup hlow outside) (afterInit k s) :=
  ⟨h.inv hframes hnodup hlow outside himage, rfl, rfl⟩

end Invariant

end Filling

/-! ### Frames are conserved -/

/-- The place of a frame as the state alone shows it, with every present page table entry
below the pool array. -/
def heldIn (k : Kernel) (s : State) : Place → Option Word
  | .pool i => if i < s.framesIndex then some (poolWord k s i) else none
  | .page p => if p < pageLimit ∧ mapped k s p = true then some (frameOf (pte k s p)) else none
  | .table d => if d < 1024 ∧ present (pde k s d) = true then some (table k s d) else none
  | .backing j =>
    if 0 < j ∧ j < 1024 ∧ present (s.mem k.framepoolPt j) = true then some (poolPage k s j)
    else none
  | .directory _ | .hand | .aside => none

section Held
variable {k : Kernel} {L : Pool k} {m : Machine} (h : Inv L m)
include h

theorem Inv.put_owned : ∀ f ∈ L.put, OwnedOnce (holds k m) f := by
  intro f hf
  cases (L.mem_put f).1 hf with
  | inl hmem => exact h.own f hmem
  | inr hback =>
    obtain ⟨j, hpos, hj, hpresent, heq⟩ := hback
    obtain ⟨hframes, hstatic⟩ := L.apart j hj hpresent
    rw [heq] at hframes hstatic
    simp only [List.mem_cons, List.not_mem_nil, or_false, not_or] at hstatic
    have hpage : ∀ i, poolPage k m.state i = frameOf (L.entries i) := fun i =>
      congrArg frameOf (h.poolTable i)
    refine ⟨.backing j, holds_backing.2 ⟨⟨hpos, hj, ?_⟩, (hpage j).trans heq⟩, ?_⟩
    · rw [h.poolTable]
      exact hpresent
    intro q hq
    cases q with
    | backing i =>
      obtain ⟨⟨_, hi, hpresent'⟩, hframe⟩ := holds_backing.1 hq
      rw [h.poolTable] at hpresent'
      rw [L.injective i hi j hj hpresent' hpresent ((hpage i).symm.trans (hframe.trans heq.symm))]
    | pool i =>
      obtain ⟨hi, hword⟩ := holds_pool.1 hq
      exact absurd (hword ▸ h.inPool i hi) hframes
    | page p =>
      obtain ⟨hp, huse, hmapped, hframe⟩ := holds_page.1 hq
      exact absurd (hframe ▸ h.demand p hp huse hmapped) hframes
    | table d =>
      exfalso
      obtain ⟨hd, hpresent', htable⟩ := holds_table.1 hq
      cases Nat.lt_or_ge d 1022 with
      | inl hlow =>
        cases h.table_cases hlow hpresent' with
        | inl hpt => exact hstatic.2.1 (htable.symm.trans hpt)
        | inr hmem => exact hframes (htable ▸ hmem)
      | inr hhigh =>
        cases Nat.decEq d 1022 with
        | isTrue hd =>
          rw [hd, table, h.poolEntry, frameOf_static k.isFrame_framepoolPt] at htable
          exact hstatic.2.2 htable.symm
        | isFalse hne =>
          rw [show d = 1023 by omega, table, h.selfEntry, frameOf_static k.isFrame_pd] at htable
          exact hstatic.1 htable.symm
    | directory n => exact absurd (h.inClones f (List.mem_of_getElem? hq)) hframes
    | hand => exact absurd (h.inHand f hq) hframes
    | aside => exact absurd (h.inAside f hq) hframes

/-- In one directory, and with no frame of the pool mapped without allocation, what the state
shows is what the history says. -/
theorem Inv.heldIn_iff (hclones : m.clones = []) (hhand : m.hand = none) (haside : m.aside = none)
    {f : Word} (hf : ¬ L.outside f) (q : Place) : heldIn k m.state q = some f ↔
    holds k m q = some f := by
  cases q with
  | page p =>
    rw [holds_page]
    simp only [heldIn, Option.ite_none_right_eq_some, Option.some.injEq]
    constructor
    · intro hheld
      obtain ⟨⟨hp, hmapped⟩, hframe⟩ := hheld
      refine ⟨hp, ?_, hmapped, hframe⟩
      cases Classical.em (m.uses p = .demand) with
      | inl huse => exact huse
      | inr huse => exact absurd (hframe ▸ h.notDemand p hp huse hmapped) hf
    · intro hheld
      obtain ⟨hp, _, hmapped, hframe⟩ := hheld
      exact ⟨⟨hp, hmapped⟩, hframe⟩
  | directory n => simp [heldIn, holds, hclones]
  | hand => simp [heldIn, holds, hhand]
  | aside => simp [heldIn, holds, haside]
  | _ => exact Iff.rfl

end Held

/-- The calls and page faults of a kernel that stays in one directory. -/
def OneDirectory : Op → Prop
  | .mmap .. | .munmap .. | .fault _ => True
  | .clone | .switch _ => False

theorem Step.clones_nil {k : Kernel} {m m' : Machine} {op : Op} (hop : OneDirectory op)
    (h : m.clones = []) (hstep : Step k m op m') : m'.clones = [] := by
  cases hstep with
  | mmap _ => exact h
  | munmap _ => exact h
  | fault _ _ => exact h
  | clone _ => exact absurd hop (by simp [OneDirectory])
  | switch _ => exact absurd hop (by simp [OneDirectory])

section Conservation
variable {k : Kernel} {ram : Memory} {map : List Region} {depth : Nat} {s : State}

/-- The steps in one directory that map without allocation only frames that never were in
the pool. -/
def Disciplined (k : Kernel) (map : List Region) : Machine → Op → Machine → Prop :=
  Guarded (Step k) fun m op =>
    Allowed k (fun f => f ∉ usableFrames k map) m op ∧ OneDirectory op

theorem frames_conserved (hdistinct : (usableFrames k map).Nodup)
    (hinit : mmuInit k (pageFault k depth) map (bootState k ram) = some s) {m : Machine}
    (hrun : Reachable (Disciplined k map) (afterInit k s) m) :
    (∀ f ∈ usableFrames k map, OwnedOnce (heldIn k m.state) f) ∧
      (∀ i < m.state.framesIndex, poolWord k m.state i ∈ usableFrames k map) ∧
      m.state.framesIndex ≤ s.framesIndex := by
  obtain ⟨ptIndex, hfilling, hlow⟩ := mmuInit_filling hdistinct hinit
  have hpool : ∀ f ∈ usableFrames k map, PoolFrame k f := usableFrames_poolFrame
  have himage : ∀ f : Word, f.toNat < k.kernelEnd → f ∉ usableFrames k map := by
    intro f hf hmem
    have habove := (hpool f hmem).aboveImage
    unfold Kernel.kend at habove
    omega
  let L := hfilling.left hpool hdistinct hlow fun f => f ∉ usableFrames k map
  have hinv : Ready L m ∧ m.clones = [] := by
    refine hrun.invariant (fun m => Ready L m ∧ m.clones = []) ?_
      ⟨hfilling.ready hpool hdistinct hlow _ himage, rfl⟩
    intro m₁ op m₂ h hstep
    obtain ⟨⟨hallowed, hop⟩, hstep⟩ := hstep
    exact ⟨hstep.ready h.1 hallowed, hstep.clones_nil hop h.2⟩
  obtain ⟨hready, hclones⟩ := hinv
  refine ⟨?_, ?_, ?_⟩
  · intro f hf
    refine (hready.inv.put_owned f hf).congr ?_
    exact hready.inv.heldIn_iff hclones hready.hand hready.aside fun hout => hout hf
  · intro i hi
    exact L.put_of_mem (hready.inv.inPool i hi)
  · have hle := hready.inv.framesIndex_le
    rw [show L.frames.length = s.framesIndex from
      (List.length_map _).trans List.length_range] at hle
    exact hle

end Conservation

/-! ### A small machine -/

/-- An image of six pages at 1 MiB, and a region of RAM behind it. -/
def smallKernel : Kernel where
  pd := 0x101000#32
  pt := 0x102000#32
  framepoolPt := 0x103000#32
  framepoolFirstpage := 0x104000#32
  kernelEnd := 0x106000
  nodup := by simp
  isFrame := by simp [IsFrame, frameOf]
  inImage := by simp
  end_aligned := ⟨262, by simp⟩
  end_le := by simp

def smallRam (pages : Nat) : Region := ⟨0x107000, 4096 * pages, 1⟩

def smallInit (map : List Region) : Option State :=
  mmuInit smallKernel (pageFault smallKernel 4) map (bootState smallKernel fun _ _ => 0#32)

/-- The state `mmu_init` leaves with the same frame in two regions of the memory map. -/
def listedTwice : State := (smallInit [smallRam 1, smallRam 1]).get (by decide +kernel)

theorem frame_listed_twice : smallInit [smallRam 1, smallRam 1] = some listedTwice ∧
    0x107000#32 ∈ usableFrames smallKernel [smallRam 1, smallRam 1] ∧
    ¬ OwnedOnce (heldIn smallKernel listedTwice) 0x107000#32 := by
  have hfirst : heldIn smallKernel listedTwice (.pool 0) = some 0x107000#32 := by decide +kernel
  have hsecond : heldIn smallKernel listedTwice (.pool 1) = some 0x107000#32 := by decide +kernel
  refine ⟨(Option.some_get _).symm, by decide +kernel, ?_⟩
  intro h
  exact absurd (h.eq_place hfirst hsecond) (by simp)

def smallStart : State := (smallInit [smallRam 4]).get (by decide +kernel)

/-- `mmu_mmap` of two pages on demand. -/
def smallMapped : Bool × State :=
  (mmuMmap (pageFaultFed smallKernel 4) 0x400000 0#32 8192 mmuProtRw smallStart).get
    (by decide +kernel)

/-- The first of them touched. -/
def smallTouched : State :=
  (pageFaultFed smallKernel 4 0x400004 smallMapped.2).get (by decide +kernel)

theorem frames_conserved_touched :
    ∃ m : Machine, m.state = smallTouched ∧
      (∀ f ∈ usableFrames smallKernel [smallRam 4], OwnedOnce (heldIn smallKernel m.state) f) ∧
      (∀ i < m.state.framesIndex,
        poolWord smallKernel m.state i ∈ usableFrames smallKernel [smallRam 4]) ∧
      m.state.framesIndex ≤ smallStart.framesIndex := by
  have hinit : smallInit [smallRam 4] = some smallStart := (Option.some_get _).symm
  have hmapped : mmuMmap (pageFaultFed smallKernel 4) 0x400000 0#32 8192 mmuProtRw smallStart =
      some smallMapped := (Option.some_get _).symm
  have htouched : pageFaultFed smallKernel 4 0x400004 smallMapped.2 = some smallTouched :=
    (Option.some_get _).symm
  have hpages : ∀ i < pages 8192, i = 0 ∨ i = 1 := by
    intro i hi
    unfold pages at hi
    omega
  refine ⟨_, rfl, frames_conserved (by decide +kernel) hinit ⟨[.mmap _ _ _ _, .fault _],
    .cons ⟨⟨⟨⟨by decide, ?_⟩, ?_, .inl rfl⟩, True.intro⟩, .mmap hmapped⟩
      (.cons ⟨⟨by simp [Allowed], True.intro⟩, .fault (by decide +kernel) htouched⟩ (.nil _))⟩⟩
  · intro i hi
    unfold imagePage
    have hcases := hpages i hi
    omega
  · intro i hi
    refine ⟨fun _ => ?_, fun hflag => absurd (by decide) hflag⟩
    rcases hpages i hi with heq | heq <;> rw [heq] <;> decide +kernel

end OsdevCourse.Mmu
