import OsdevCourse.MmuRuns
import Mathlib.Data.List.Nodup
import Mathlib.Data.List.Perm.Basic

/-!
# The frame pool after `mmu_init`

The loop of `mmu_init` pushes the usable frames of the memory map. Every 1024 frames the
pool array needs another page: the loop marks it, touches it, and the page fault it takes
pops the frame pushed last to put it there. What is in the pool and behind its array is,
in every turn of the loop, a permutation of what has been pushed.
-/

namespace OsdevCourse.Mmu

set_option autoImplicit false

open PageEntry

/-! ### The frames that are pushed -/

def Usable (k : Kernel) (start : Nat) : Prop := k.kend ≤ start ∧ start < 0x100000000

instance (k : Kernel) (start : Nat) : Decidable (Usable k start) :=
  inferInstanceAs (Decidable (_ ∧ _))

/-- The frames of `n` turns of the inner loop that are not skipped. -/
def usableFrom (k : Kernel) : Nat → Nat → List Word
  | 0, _ => []
  | n + 1, start =>
    if Usable k start then BitVec.ofNat 32 start :: usableFrom k n (start + 4096)
    else usableFrom k n (start + 4096)

/-- The frames `mmu_init` pushes, in their order. -/
def usableFrames (k : Kernel) (map : List Region) : List Word :=
  map.flatMap fun r =>
    if r.type ≠ 1 then [] else usableFrom k ((r.stop - r.start) / 4096) r.start

structure PoolFrame (k : Kernel) (f : Word) : Prop where
  isFrame : IsFrame f
  aboveImage : k.kend ≤ f.toNat

theorem isFrame_ofNat {n : Nat} (h : 4096 ∣ n) : IsFrame (BitVec.ofNat 32 n) := by
  rw [isFrame_iff, BitVec.toNat_ofNat]
  omega

theorem usable_poolFrame {k : Kernel} {start : Nat} (haligned : 4096 ∣ start)
    (h : Usable k start) : PoolFrame k (BitVec.ofNat 32 start) := by
  refine ⟨isFrame_ofNat haligned, ?_⟩
  rw [BitVec.toNat_ofNat, Nat.mod_eq_of_lt h.2]
  exact h.1

theorem usableFrom_poolFrame {k : Kernel} {n start : Nat} (haligned : 4096 ∣ start) :
    ∀ f ∈ usableFrom k n start, PoolFrame k f := by
  induction n generalizing start with
  | zero =>
    intro f hf
    exact absurd hf List.not_mem_nil
  | succ n ih =>
    intro f hf
    have hnext : ∀ g ∈ usableFrom k n (start + 4096), PoolFrame k g := ih (by omega)
    unfold usableFrom at hf
    split at hf
    · rename_i husable
      cases List.mem_cons.1 hf with
      | inl heq =>
        rw [heq]
        exact usable_poolFrame haligned husable
      | inr hmem => exact hnext f hmem
    · exact hnext f hf

theorem usableFrames_poolFrame {k : Kernel} {map : List Region} :
    ∀ f ∈ usableFrames k map, PoolFrame k f := by
  intro f hf
  unfold usableFrames at hf
  rw [List.mem_flatMap] at hf
  obtain ⟨r, _, hf⟩ := hf
  split at hf
  · exact absurd hf List.not_mem_nil
  · apply usableFrom_poolFrame _ f hf
    unfold Region.start
    exact Nat.dvd_mul_left 4096 _

theorem poolFrames_length_lt {k : Kernel} {fs : List Word} (hnodup : fs.Nodup)
    (h : ∀ f ∈ fs, PoolFrame k f) : fs.length < 2 ^ 20 := by
  have hinjective : (fs.map fun f => f.toNat / 4096 - 1).Nodup := by
    refine List.Nodup.map_on ?_ hnodup
    intro a ha b hb heq
    have ha' := isFrame_iff.1 (h a ha).isFrame
    have hb' := isFrame_iff.1 (h b hb).isFrame
    have hak := (h a ha).aboveImage
    have hbk := (h b hb).aboveImage
    unfold Kernel.kend at hak hbk
    apply BitVec.eq_of_toNat_eq
    omega
  have hsub : (fs.map fun f => f.toNat / 4096 - 1) ⊆ List.range (2 ^ 20 - 1) := by
    intro n hn
    obtain ⟨f, hf, rfl⟩ := List.mem_map.1 hn
    have hlt := f.isLt
    rw [List.mem_range]
    omega
  have hle := (List.subperm_of_subset hinjective hsub).length_le
  rw [List.length_map, List.length_range] at hle
  omega

/-! ### The loop -/

/-- The directory `mmu_init` and `boot.s` have filled in. -/
def initPde (k : Kernel) (d : Nat) : Word :=
  if d = 1023 then k.pd + 3#32
  else if d = 1022 then k.framepoolPt + 3#32
  else if d = 960 then k.pt + 3#32
  else 0#32

/-- The boot table. -/
def initPte (k : Kernel) (i : Nat) : Word :=
  if i < 1024 ∧ (i = 0 ∨ 4096 * i + 3 < k.kernelEnd) then BitVec.ofNat 32 (4096 * i + 3) else 0#32

/-- The directory below the pool array and the boot table are as `boot.s` has left them. -/
structure BootHalf (k : Kernel) (mem : Memory) : Prop where
  directory : ∀ d < 1022, mem k.pd d = initPde k d
  bootTable : ∀ i, mem k.pt i = initPte k i

/-- From the one state to the other the TLB has been told of every store, and no store has
changed that part of the page tables. -/
inductive Quiet (k : Kernel) : State → State → Prop where
  | refl (s : State) : Quiet k s s
  | index {s s' : State} (n : Nat) : Quiet k s s' → Quiet k s { s' with framesIndex := n }
  | stored {s s' s'' : State} : Quiet k s s' → s''.trace = .stored s''.mem :: s'.trace →
      s''.cr3 = s'.cr3 → BootHalf k s''.mem → Quiet k s s''
  | invlpg {s s' : State} (addr : Nat) : Quiet k s s' → Quiet k s (s'.invlpg addr)

theorem Quiet.trans {k : Kernel} {s s' s'' : State} (h : Quiet k s s') (h' : Quiet k s' s'') :
    Quiet k s s'' := by
  induction h' with
  | refl => exact h
  | index n _ ih => exact ih.index n
  | stored _ htrace hcr3 hboot ih => exact ih.stored htrace hcr3 hboot
  | invlpg addr _ ih => exact ih.invlpg addr

theorem BootHalf.off {k : Kernel} {mem mem' : Memory} {g : Word} (h : BootHalf k mem)
    (hpd : g ≠ k.pd) (hpt : g ≠ k.pt) (hagree : ∀ f, f ≠ g → ∀ j, mem' f j = mem f j) :
    BootHalf k mem' := by
  refine ⟨?_, ?_⟩
  · intro d hd
    rw [hagree _ hpd.symm]
    exact h.directory d hd
  · intro i
    rw [hagree _ hpt.symm]
    exact h.bootTable i

/-- What is in the pool, and then what is behind its array. -/
def contents (k : Kernel) (ptIndex : Nat) (s : State) : List Word :=
  (List.range s.framesIndex).map (poolWord k s) ++
    (List.range ptIndex).map fun j => poolPage k s (j + 1)

/-- Between two turns: the pool fills its first `ptIndex + 1` pages and holds, with the
frames behind them, what has been pushed. -/
structure Filling (k : Kernel) (pushed : List Word) (ptIndex : Nat) (s : State) : Prop where
  cr3 : s.cr3 = k.pd
  high : s.framesIndex ≤ 1024 * (ptIndex + 1)
  directory : ∀ d, s.mem k.pd d = initPde k d
  bootTable : ∀ i, s.mem k.pt i = initPte k i
  firstPage : s.mem k.framepoolPt 0 = k.framepoolFirstpage + 3#32
  backed : ∀ j, 0 < j → j ≤ ptIndex → present (s.mem k.framepoolPt j) = true
  empty : ∀ j, ptIndex < j → s.mem k.framepoolPt j = 0#32
  perm : (contents k ptIndex s).Perm pushed

namespace Filling
variable {k : Kernel} {pushed : List Word} {ptIndex : Nat} {s : State}
  (h : Filling k pushed ptIndex s)
include h

theorem page_present {j : Nat} (hj : j ≤ ptIndex) : present (s.mem k.framepoolPt j) = true := by
  cases Nat.eq_zero_or_pos j with
  | inl hzero =>
    rw [hzero, h.firstPage]
    exact present_static k.isFrame_framepoolFirstpage
  | inr hpos => exact h.backed j hpos hj

theorem poolPage_zero : poolPage k s 0 = k.framepoolFirstpage := by
  unfold poolPage
  rw [h.firstPage]
  exact frameOf_static k.isFrame_framepoolFirstpage

theorem poolPage_mem {j : Nat} (hpos : 0 < j) (hj : j ≤ ptIndex) : poolPage k s j ∈ pushed := by
  apply h.perm.subset
  apply List.mem_append_right
  rw [List.mem_map]
  exact ⟨j - 1, List.mem_range.2 (by omega), by rw [Nat.sub_add_cancel hpos]⟩

theorem poolWord_mem {i : Nat} (hi : i < s.framesIndex) : poolWord k s i ∈ pushed := by
  apply h.perm.subset
  apply List.mem_append_left
  exact List.mem_map_of_mem (List.mem_range.2 hi)

theorem bootHalf : BootHalf k s.mem := ⟨fun d _ => h.directory d, h.bootTable⟩

theorem selfMapped : SelfMapped s := by
  unfold SelfMapped
  rw [h.cr3, h.directory]
  exact ⟨present_static k.isFrame_pd, frameOf_static k.isFrame_pd⟩

theorem pool : s.mem s.cr3 1022 = k.framepoolPt + 3#32 := by
  rw [h.cr3, h.directory]
  rfl

section Frames
variable (hframes : ∀ f ∈ pushed, PoolFrame k f)
include hframes

omit h in
theorem ne_static {f : Word} (hf : f ∈ pushed) : f ∉ k.statics := by
  intro hmem
  have hbelow := (k.inImage f hmem).2
  have habove := (hframes f hf).aboveImage
  unfold Kernel.kend at habove
  omega

theorem poolPage_ne {j : Nat} (hj : j ≤ ptIndex) :
    poolPage k s j ∉ [k.pd, k.pt, k.framepoolPt] := by
  intro hmem
  cases Nat.eq_zero_or_pos j with
  | inl hzero =>
    rw [hzero, h.poolPage_zero] at hmem
    simp only [List.mem_cons, List.not_mem_nil, or_false] at hmem
    rcases hmem with heq | heq | heq
    · exact k.pd_ne_framepoolFirstpage heq.symm
    · exact k.pt_ne_framepoolFirstpage heq.symm
    · exact k.framepoolPt_ne_framepoolFirstpage heq.symm
  | inr hpos =>
    apply ne_static hframes (h.poolPage_mem hpos hj)
    simp only [List.mem_cons, List.not_mem_nil, or_false] at hmem
    rcases hmem with heq | heq | heq <;> simp [heq, Kernel.statics]

variable (hnodup : pushed.Nodup)
include hnodup

theorem poolPage_inj {i j : Nat} (hi : i ≤ ptIndex) (hj : j ≤ ptIndex)
    (heq : poolPage k s i = poolPage k s j) : i = j := by
  have hback := (List.nodup_append.1 (h.perm.nodup_iff.2 hnodup)).2.1
  have hzero : ∀ a, 0 < a → a ≤ ptIndex → poolPage k s a ≠ poolPage k s 0 := by
    intro a hpos ha hsame
    apply ne_static hframes (h.poolPage_mem hpos ha)
    rw [hsame, h.poolPage_zero]
    simp [Kernel.statics]
  cases Nat.eq_zero_or_pos i with
  | inl hi0 =>
    cases Nat.eq_zero_or_pos j with
    | inl hj0 => rw [hi0, hj0]
    | inr hjpos =>
      rw [hi0] at heq
      exact absurd heq.symm (hzero j hjpos hj)
  | inr hipos =>
    cases Nat.eq_zero_or_pos j with
    | inl hj0 =>
      rw [hj0] at heq
      exact absurd heq (hzero i hipos hi)
    | inr hjpos =>
      have hinj := List.inj_on_of_nodup_map hback
        (List.mem_range.2 (show i - 1 < ptIndex by omega))
        (List.mem_range.2 (show j - 1 < ptIndex by omega))
      simp only [Nat.sub_add_cancel hipos, Nat.sub_add_cancel hjpos] at hinj
      have := hinj heq
      omega

omit hframes in
theorem poolWord_inj {i j : Nat} (hi : i < s.framesIndex) (hj : j < s.framesIndex)
    (heq : poolWord k s i = poolWord k s j) : i = j := by
  have hfront := (List.nodup_append.1 (h.perm.nodup_iff.2 hnodup)).1
  exact List.inj_on_of_nodup_map hfront (List.mem_range.2 hi) (List.mem_range.2 hj) heq

theorem poolWord_ne_poolPage {i j : Nat} (hi : i < s.framesIndex) (hj : j ≤ ptIndex) :
    poolWord k s i ≠ poolPage k s j := by
  have hapart := (List.nodup_append.1 (h.perm.nodup_iff.2 hnodup)).2.2
  cases Nat.eq_zero_or_pos j with
  | inl hzero =>
    intro heq
    apply ne_static hframes (h.poolWord_mem hi)
    rw [heq, hzero, h.poolPage_zero]
    simp [Kernel.statics]
  | inr hpos =>
    refine hapart _ (List.mem_map_of_mem (List.mem_range.2 hi)) _ ?_
    rw [List.mem_map]
    exact ⟨j - 1, List.mem_range.2 (by omega), by rw [Nat.sub_add_cancel hpos]⟩

end Frames

theorem push (hframes : ∀ f ∈ pushed, PoolFrame k f) (hnodup : pushed.Nodup)
    (hslot : s.framesIndex / 1024 ≤ ptIndex) (w : Word) :
    Filling k (pushed ++ [w]) ptIndex
      { s.set (poolPage k s (s.framesIndex / 1024)) (s.framesIndex % 1024) w with
        framesIndex := s.framesIndex + 1 } := by
  let s' : State := { s.set (poolPage k s (s.framesIndex / 1024)) (s.framesIndex % 1024) w with
    framesIndex := s.framesIndex + 1 }
  have hstatic := h.poolPage_ne hframes hslot
  simp only [List.mem_cons, List.not_mem_nil, or_false, not_or] at hstatic
  have hagree : ∀ f, f ≠ poolPage k s (s.framesIndex / 1024) → ∀ j, s'.mem f j = s.mem f j :=
    fun f hf j => set_mem_frame _ _ _ _ hf j
  have hpage : ∀ j, poolPage k s' j = poolPage k s j := poolPage_agree hagree hstatic.2.2
  have hnew : poolWord k s' s.framesIndex = w := by
    unfold poolWord
    rw [hpage]
    exact set_mem_same _ _ _ _
  have hold : ∀ i < s.framesIndex, poolWord k s' i = poolWord k s i := by
    intro i hi
    unfold poolWord
    rw [hpage]
    refine (set_mem _ _ _ _ _ _).trans (if_neg ?_)
    rintro ⟨hsame, hmod⟩
    have hdiv := h.poolPage_inj hframes hnodup (by omega) hslot hsame
    omega
  refine ⟨h.cr3, ?_, ?_, ?_, ?_, ?_, ?_, ?_⟩
  · simp only
    omega
  · intro d
    exact (hagree _ (Ne.symm hstatic.1) d).trans (h.directory d)
  · intro i
    exact (hagree _ (Ne.symm hstatic.2.1) i).trans (h.bootTable i)
  · exact (hagree _ (Ne.symm hstatic.2.2) 0).trans h.firstPage
  · intro j hpos hj
    rw [hagree _ (Ne.symm hstatic.2.2)]
    exact h.backed j hpos hj
  · intro j hj
    exact (hagree _ (Ne.symm hstatic.2.2) j).trans (h.empty j hj)
  · have hcontents : contents k ptIndex s' =
        ((List.range s.framesIndex).map (poolWord k s) ++ [w]) ++
          (List.range ptIndex).map fun j => poolPage k s (j + 1) := by
      unfold contents
      simp only [hpage]
      rw [show s'.framesIndex = s.framesIndex + 1 from rfl, List.range_succ, List.map_append,
        List.map_singleton, hnew]
      congr 2
      apply List.map_congr_left
      intro i hi
      exact hold i (List.mem_range.1 hi)
    rw [hcontents, List.append_assoc]
    -- The new frame goes past the frames behind the array.
    refine (List.Perm.append_left _ List.perm_append_comm).trans ?_
    rw [← List.append_assoc]
    exact h.perm.append_right [w]

theorem push_quiet (hframes : ∀ f ∈ pushed, PoolFrame k f)
    (hslot : s.framesIndex / 1024 ≤ ptIndex) (w : Word) :
    Quiet k s { s.set (poolPage k s (s.framesIndex / 1024)) (s.framesIndex % 1024) w with
      framesIndex := s.framesIndex + 1 } := by
  have hstatic := h.poolPage_ne hframes hslot
  simp only [List.mem_cons, List.not_mem_nil, or_false, not_or] at hstatic
  have hstored : Quiet k s
      (s.set (poolPage k s (s.framesIndex / 1024)) (s.framesIndex % 1024) w) :=
    (Quiet.refl s).stored rfl rfl
      (h.bootHalf.off hstatic.1 hstatic.2.1 fun f hf j => set_mem_frame _ _ _ _ hf j)
  exact hstored.index _

/-- The entry `mmu_init` marks the next page of the array with. -/
def growEntry : Word := mmuPageOndemand ||| (mmuPageOndemand &&& mmuProtMask)

section Grow
variable (hframes : ∀ f ∈ pushed, PoolFrame k f) (hfull : s.framesIndex = 1024 * (ptIndex + 1))
  (hroom : s.framesIndex < 2 ^ 20)
include hframes hfull hroom

theorem faultable_grow :
    Faultable k (framesVma s.framesIndex) (s.set k.framepoolPt (ptIndex + 1) growEntry) ∧
      poolWord k (s.set k.framepoolPt (ptIndex + 1) growEntry) (s.framesIndex - 1) =
        poolWord k s (s.framesIndex - 1) := by
  have hpd : ∀ d, (s.set k.framepoolPt (ptIndex + 1) growEntry).mem k.pd d = initPde k d :=
    fun d => (set_mem_frame _ _ _ _ k.pd_ne_framepoolPt d).trans (h.directory d)
  have hlast : (s.framesIndex - 1) / 1024 = ptIndex := by omega
  have hstatic := h.poolPage_ne hframes (Nat.le_refl ptIndex)
  simp only [List.mem_cons, List.not_mem_nil, or_false, not_or] at hstatic
  have hword : poolWord k (s.set k.framepoolPt (ptIndex + 1) growEntry) (s.framesIndex - 1) =
      poolWord k s (s.framesIndex - 1) := by
    have hpage : poolPage k (s.set k.framepoolPt (ptIndex + 1) growEntry) ptIndex =
        poolPage k s ptIndex := by
      unfold poolPage
      rw [set_mem_word _ _ _ _ _ (Nat.ne_of_lt (Nat.lt_succ_self ptIndex))]
    unfold poolWord
    rw [hlast, hpage]
    exact set_mem_frame _ _ _ _ hstatic.2.2 _
  have htop := h.poolWord_mem (i := s.framesIndex - 1) (by omega)
  have hne := ne_static hframes htop
  simp only [Kernel.statics, List.mem_cons, List.not_mem_nil, or_false, not_or] at hne
  have hpde : (s.set k.framepoolPt (ptIndex + 1) growEntry).mem
      (s.set k.framepoolPt (ptIndex + 1) growEntry).cr3
      (mmuPdIndex (framesVma s.framesIndex)) = k.framepoolPt + 3#32 := by
    rw [set_cr3, h.cr3, hpd, mmuPdIndex_framesVma hroom]
    rfl
  refine ⟨⟨?_, ?_, ?_, ?_, ?_, ?_, ?_, ?_, ?_, ?_⟩, hword⟩
  · unfold SelfMapped
    rw [set_cr3, h.cr3, hpd]
    exact ⟨present_static k.isFrame_pd, frameOf_static k.isFrame_pd⟩
  · rw [hpde]
    exact present_static k.isFrame_framepoolPt
  · simp only [set_framesIndex]
    omega
  · simp only [set_framesIndex]
    omega
  · rw [set_cr3, h.cr3, hpd]
    rfl
  · rw [set_framesIndex, hlast, set_mem_word _ _ _ _ _ (by omega)]
    exact h.page_present (Nat.le_refl _)
  · rw [set_framesIndex, hword]
    exact (hframes _ htop).isFrame
  · rw [set_framesIndex, hword, set_cr3, h.cr3]
    exact hne.1
  · rw [set_framesIndex, hword, hpde, frameOf_static k.isFrame_framepoolPt]
    exact hne.2.2.1
  · intro heq
    rw [hpde, frameOf_static k.isFrame_framepoolPt, set_cr3, h.cr3] at heq
    exact absurd heq.symm k.pd_ne_framepoolPt

theorem grow_mem (g : Word) (j : Nat) :
    (faultIn k (framesVma s.framesIndex) (s.set k.framepoolPt (ptIndex + 1) growEntry)).mem g j =
      if g = k.framepoolPt ∧ j = ptIndex + 1 then
        poolWord k s (s.framesIndex - 1) ||| (growEntry &&& mmuProtMask) ||| mmuProtPresent
      else if g = poolWord k s (s.framesIndex - 1) then 0#32
      else s.mem g j := by
  have hword := (h.faultable_grow hframes hfull hroom).2
  have htop := h.poolWord_mem (i := s.framesIndex - 1) (by omega)
  have hne := ne_static hframes htop
  simp only [Kernel.statics, List.mem_cons, List.not_mem_nil, or_false, not_or] at hne
  have hindex : s.framesIndex / 1024 = ptIndex + 1 := by omega
  have hpool : (s.set k.framepoolPt (ptIndex + 1) growEntry).mem k.pd 1022 =
      k.framepoolPt + 3#32 :=
    (set_mem_frame _ _ _ _ k.pd_ne_framepoolPt _).trans (h.directory _)
  unfold faultIn
  simp only [set_framesIndex, hword, mmuPdIndex_framesVma hroom, mmuPtIndex_framesVma hroom,
    hindex, set_cr3, h.cr3, hpool, frameOf_static k.isFrame_framepoolPt, set_mem_same]
  rw [if_pos (by omega)]
  simp only [set_mem, zero_mem, invlpg_mem]
  cases Classical.em (g = k.pd) with
  | inl hg =>
    subst hg
    simp only [true_and, k.pd_ne_framepoolPt, false_and, if_false, Ne.symm hne.1]
    split
    · rename_i hd
      rw [hd, h.directory]
      rfl
    · rfl
  | inr hg =>
    simp only [hg, false_and, if_false]
    cases Classical.em (g = poolWord k s (s.framesIndex - 1)) with
    | inl hf =>
      have hgpt : g ≠ k.framepoolPt := by
        rw [hf]
        exact hne.2.2.1
      rw [if_pos hf, if_neg fun hand => hgpt hand.1, if_pos hf]
    | inr hf =>
      simp only [hf, if_false]
      split
      · rfl
      · rfl

theorem grow (hnodup : pushed.Nodup) :
    Filling k pushed (ptIndex + 1)
      (faultIn k (framesVma s.framesIndex) (s.set k.framepoolPt (ptIndex + 1) growEntry)) := by
  let s' := faultIn k (framesVma s.framesIndex) (s.set k.framepoolPt (ptIndex + 1) growEntry)
  let f := poolWord k s (s.framesIndex - 1)
  have hmem := h.grow_mem hframes hfull hroom
  have htop : f ∈ pushed := h.poolWord_mem (i := s.framesIndex - 1) (by omega)
  have hne := ne_static hframes htop
  simp only [Kernel.statics, List.mem_cons, List.not_mem_nil, or_false, not_or] at hne
  have hcr3 : s'.cr3 = s.cr3 := by
    simp only [s', faultIn]
    split <;> rfl
  have hindex : s'.framesIndex = s.framesIndex - 1 := by
    simp only [s', faultIn]
    split <;> rfl
  have hnewEntry : s'.mem k.framepoolPt (ptIndex + 1) =
      f ||| (growEntry &&& mmuProtMask) ||| mmuProtPresent := (hmem _ _).trans (if_pos ⟨rfl, rfl⟩)
  have hentry : ∀ j, j ≠ ptIndex + 1 → s'.mem k.framepoolPt j = s.mem k.framepoolPt j := by
    intro j hj
    rw [hmem, if_neg fun hand => hj hand.2, if_neg (Ne.symm hne.2.2.1)]
  have hpage : ∀ j, j ≠ ptIndex + 1 → poolPage k s' j = poolPage k s j := by
    intro j hj
    unfold poolPage
    rw [hentry j hj]
  have hnewPage : poolPage k s' (ptIndex + 1) = f := by
    unfold poolPage
    rw [hnewEntry]
    exact frameOf_installed _ (hframes _ htop).isFrame
  have hword : ∀ i < s.framesIndex - 1, poolWord k s' i = poolWord k s i := by
    intro i hi
    have hslot : i / 1024 ≤ ptIndex := by omega
    have hstatic := h.poolPage_ne hframes hslot
    simp only [List.mem_cons, List.not_mem_nil, or_false, not_or] at hstatic
    unfold poolWord
    rw [hpage _ (by omega), hmem, if_neg fun hand => hstatic.2.2 hand.1,
      if_neg fun heq => h.poolWord_ne_poolPage hframes hnodup (by omega) hslot heq.symm]
  refine ⟨hcr3.trans h.cr3, ?_, ?_, ?_, ?_, ?_, ?_, ?_⟩
  · rw [hindex]
    omega
  · intro d
    rw [hmem, if_neg fun hand => k.pd_ne_framepoolPt hand.1, if_neg (Ne.symm hne.1)]
    exact h.directory d
  · intro i
    rw [hmem, if_neg fun hand => k.pt_ne_framepoolPt hand.1, if_neg (Ne.symm hne.2.1)]
    exact h.bootTable i
  · rw [hentry 0 (by omega)]
    exact h.firstPage
  · intro j hpos hj
    cases Nat.decEq j (ptIndex + 1) with
    | isTrue heq =>
      rw [heq, hnewEntry]
      exact present_installed _ _
    | isFalse hne =>
      rw [hentry j hne]
      exact h.backed j hpos (by omega)
  · intro j hj
    rw [hentry j (by omega)]
    exact h.empty j (by omega)
  · have hcontents : contents k (ptIndex + 1) s' =
        (List.range (s.framesIndex - 1)).map (poolWord k s) ++
          ((List.range ptIndex).map (fun j => poolPage k s (j + 1)) ++ [f]) := by
      have hslots : (List.range (s.framesIndex - 1)).map (poolWord k s') =
          (List.range (s.framesIndex - 1)).map (poolWord k s) :=
        List.map_congr_left fun i hi => hword i (List.mem_range.1 hi)
      have hpages : ((List.range ptIndex).map fun j => poolPage k s' (j + 1)) =
          (List.range ptIndex).map fun j => poolPage k s (j + 1) := by
        apply List.map_congr_left
        intro j hj
        have hlt := List.mem_range.1 hj
        exact hpage _ (by omega)
      unfold contents
      rw [hindex, List.range_succ, List.map_append, List.map_singleton, hnewPage, hslots, hpages]
    have hbefore : contents k ptIndex s =
        (List.range (s.framesIndex - 1)).map (poolWord k s) ++
          ([f] ++ (List.range ptIndex).map fun j => poolPage k s (j + 1)) := by
      unfold contents
      rw [show s.framesIndex = s.framesIndex - 1 + 1 by omega, List.range_succ, List.map_append,
        List.map_singleton, List.append_assoc]
      rfl
    rw [hcontents]
    refine (List.Perm.append_left _ List.perm_append_comm).trans ?_
    rw [← hbefore]
    exact h.perm

theorem grow_quiet : Quiet k s
    (faultIn k (framesVma s.framesIndex) (s.set k.framepoolPt (ptIndex + 1) growEntry)) := by
  have hword := (h.faultable_grow hframes hfull hroom).2
  have hne := ne_static hframes (h.poolWord_mem (i := s.framesIndex - 1) (by omega))
  simp only [Kernel.statics, List.mem_cons, List.not_mem_nil, or_false, not_or] at hne
  let s₁ := s.set k.framepoolPt (ptIndex + 1) growEntry
  have hboot₁ : BootHalf k s₁.mem :=
    h.bootHalf.off k.pd_ne_framepoolPt.symm k.pt_ne_framepoolPt.symm
      fun f hf j => set_mem_frame _ _ _ _ hf j
  have hmarked : Quiet k s s₁ := (Quiet.refl s).stored rfl rfl hboot₁
  have htable : frameOf (s₁.mem s₁.cr3 (mmuPdIndex (framesVma s.framesIndex))) = k.framepoolPt := by
    have hpde : s₁.mem s₁.cr3 1022 = k.framepoolPt + 3#32 := by
      have hcr3 : s₁.cr3 = k.pd := h.cr3
      rw [hcr3]
      exact (set_mem_frame _ _ _ _ k.pd_ne_framepoolPt _).trans (h.directory _)
    rw [mmuPdIndex_framesVma hroom, hpde]
    exact frameOf_static k.isFrame_framepoolPt
  let s₂ := ({ s₁ with framesIndex := s.framesIndex - 1 } : State).set k.framepoolPt
    (mmuPtIndex (framesVma s.framesIndex)) (poolWord k s₁ (s.framesIndex - 1) |||
      (s₁.mem k.framepoolPt (mmuPtIndex (framesVma s.framesIndex)) &&& mmuProtMask) |||
      mmuProtPresent)
  have hboot₂ : BootHalf k s₂.mem :=
    hboot₁.off k.pd_ne_framepoolPt.symm k.pt_ne_framepoolPt.symm
      fun f hf j => set_mem_frame _ _ _ _ hf j
  have hinstalled : Quiet k s s₂ := (hmarked.index _).stored rfl rfl hboot₂
  let s₃ := (s₂.invlpg (framesVma s.framesIndex)).zero (poolWord k s₁ (s.framesIndex - 1))
  have hboot₃ : BootHalf k s₃.mem := by
    have hf : poolWord k s₁ (s.framesIndex - 1) = poolWord k s (s.framesIndex - 1) := hword
    refine hboot₂.off (g := poolWord k s₁ (s.framesIndex - 1)) ?_ ?_
      fun f hf j => zero_mem_frame _ _ hf j
    · rw [hf]
      exact hne.1
    · rw [hf]
      exact hne.2.1
  have hcleared : Quiet k s s₃ := (hinstalled.invlpg _).stored rfl rfl hboot₃
  unfold faultIn
  simp only [set_framesIndex]
  rw [if_pos (by rw [mmuPdIndex_framesVma hroom]; omega), htable]
  refine hcleared.stored rfl rfl ⟨?_, ?_⟩
  · intro d hd
    rw [set_mem_word _ _ _ _ _ (by rw [mmuPdIndex_framesVma hroom]; omega)]
    exact hboot₃.directory d hd
  · intro i
    rw [set_mem_frame _ _ _ _ k.pd_ne_pt.symm]
    exact hboot₃.bootTable i

end Grow

theorem framesIndex_lt (hframes : ∀ f ∈ pushed, PoolFrame k f) (hnodup : pushed.Nodup) :
    s.framesIndex < 2 ^ 20 := by
  have hlength := h.perm.length_eq
  have hlt := poolFrames_length_lt hnodup hframes
  unfold contents at hlength
  rw [List.length_append, List.length_map, List.length_range] at hlength
  omega

theorem translate_slot {i : Nat} (hi : i < 2 ^ 20) (hslot : i / 1024 ≤ ptIndex) :
    translate s (framesVma i) = some (poolPage k s (i / 1024), i % 1024) :=
  translate_framesVma hi h.pool (h.page_present hslot)

/-- The loop touches the next page of the array and the handler puts a frame there. -/
theorem grow_calls (hframes : ∀ f ∈ pushed, PoolFrame k f) (hnodup : pushed.Nodup)
    (hfull : s.framesIndex = 1024 * (ptIndex + 1)) (depth : Nat) :
    ∃ s', mmuMark (pageFaultFed k (depth + 1)) (framesVma s.framesIndex) 0#32 mmuPageOndemand s =
        some (true, s.set k.framepoolPt (ptIndex + 1) growEntry) ∧
      (∃ w, readWord (pageFaultFed k (depth + 1)) (framesVma s.framesIndex)
        (s.set k.framepoolPt (ptIndex + 1) growEntry) = some (w, s')) ∧
      Filling k pushed (ptIndex + 1) s' ∧ s'.framesIndex = s.framesIndex - 1 ∧ Quiet k s s' := by
  have hroom := h.framesIndex_lt hframes hnodup
  have hindex : s.framesIndex / 1024 = ptIndex + 1 := by omega
  have hpde : s.mem s.cr3 (mmuPdIndex (framesVma s.framesIndex)) = k.framepoolPt + 3#32 := by
    rw [mmuPdIndex_framesVma hroom]
    exact h.pool
  have hpresent : present (s.mem s.cr3 (mmuPdIndex (framesVma s.framesIndex))) = true := by
    rw [hpde]
    exact present_static k.isFrame_framepoolPt
  have hempty : s.mem k.framepoolPt (ptIndex + 1) = 0#32 := h.empty _ (by omega)
  obtain ⟨hfaultable, _⟩ := h.faultable_grow hframes hfull hroom
  have hgrown := h.grow hframes hfull hroom hnodup
  let s₁ := s.set k.framepoolPt (ptIndex + 1) growEntry
  let s₂ := faultIn k (framesVma s.framesIndex) s₁
  have hpde₁ : s₁.mem s₁.cr3 (mmuPdIndex (framesVma s.framesIndex)) = k.framepoolPt + 3#32 := by
    have hcr3 : s₁.cr3 ≠ k.framepoolPt := by
      rw [show s₁.cr3 = s.cr3 from rfl, h.cr3]
      exact k.pd_ne_framepoolPt
    exact (set_mem_frame _ _ _ _ hcr3 _).trans hpde
  have hpte₁ : s₁.mem (frameOf (s₁.mem s₁.cr3 (mmuPdIndex (framesVma s.framesIndex))))
      (mmuPtIndex (framesVma s.framesIndex)) = growEntry := by
    rw [hpde₁, frameOf_static k.isFrame_framepoolPt, mmuPtIndex_framesVma hroom, hindex]
    exact set_mem_same _ _ _ _
  have hunmapped : translate s₁ (framesVma s.framesIndex) = none := by
    unfold translate
    simp only [hpte₁, show present growEntry = false from by decide, Bool.false_eq_true, if_false,
      ite_self]
  have hfault : pageFaultFed k (depth + 1) (framesVma s.framesIndex) s₁ = some s₂ := by
    refine int0E_eq hfaultable ?_ (by rw [hpte₁]; decide) depth
    intro fault
    unfold mmuAllocFed
    rw [if_pos hfaultable.index_pos]
    exact mmuAlloc_eq hfaultable.index_pos hfaultable.index_le hfaultable.pool hfaultable.page
  refine ⟨s₂, ?_, ?_, hgrown, ?_, h.grow_quiet hframes hfull hroom⟩
  · rw [mmuMark_present _ _ _ h.selfMapped hpresent, hpde, frameOf_static k.isFrame_framepoolPt,
      mmuPtIndex_framesVma hroom, hindex, marked_demand _ (by decide)]
    · rfl
    · rw [hempty]
      exact not_present_zero
  · have hmapped := hgrown.translate_slot hroom (by omega)
    exact ⟨_, readWord_handled hunmapped hfault hmapped⟩
  · simp only [s₂, faultIn]
    split <;> rfl

end Filling

/-- What one turn of the inner loop pushes. -/
def usableTurn (k : Kernel) (start : Nat) : List Word :=
  if Usable k start then [BitVec.ofNat 32 start] else []

section Loop
variable {k : Kernel} {pushed : List Word} {ptIndex start : Nat} {s : State} (depth : Nat)

theorem initFrame_spec (h : Filling k pushed ptIndex s) (hlow : 1024 * ptIndex ≤ s.framesIndex)
    (hframes : ∀ f ∈ pushed ++ usableTurn k start, PoolFrame k f)
    (hnodup : (pushed ++ usableTurn k start).Nodup) :
    ∃ ptIndex' s', initFrame k (pageFaultFed k (depth + 1)) start ptIndex s = some (ptIndex', s') ∧
      Filling k (pushed ++ usableTurn k start) ptIndex' s' ∧
      1024 * ptIndex' ≤ s'.framesIndex ∧ Quiet k s s' := by
  unfold usableTurn at *
  cases Classical.em (Usable k start) with
  | inr hskip =>
    refine ⟨ptIndex, s, ?_, ?_, hlow, .refl s⟩
    · unfold initFrame
      unfold Usable at hskip
      split
      · rfl
      · rw [if_pos (by omega)]
    · rw [if_neg hskip, List.append_nil]
      exact h
  | inl husable =>
    rw [if_pos husable] at hframes hnodup ⊢
    have hframes₀ : ∀ f ∈ pushed, PoolFrame k f := fun f hf => hframes f (List.mem_append_left _ hf)
    have hnodup₀ : pushed.Nodup := (List.nodup_append.1 hnodup).1
    have hroom := h.framesIndex_lt hframes₀ hnodup₀
    have hhigh := h.high
    unfold initFrame
    rw [if_neg (Nat.not_lt.2 husable.1), if_neg (Nat.not_le.2 husable.2)]
    cases Nat.decEq ptIndex (s.framesIndex / 1024) with
    | isTrue heq =>
      have hwrite : writeWord (pageFaultFed k (depth + 1)) (framesVma s.framesIndex)
          (BitVec.ofNat 32 start) s = some (s.set (poolPage k s (s.framesIndex / 1024))
            (s.framesIndex % 1024) (BitVec.ofNat 32 start)) :=
        writeWord_of_translate (h.translate_slot hroom (by omega)) _
      rw [if_neg (by simpa using heq)]
      simp only [Option.bind_eq_bind, Option.bind_some, hwrite]
      refine ⟨_, _, rfl, h.push hframes₀ hnodup₀ (by omega) _, ?_,
        h.push_quiet hframes₀ (by omega) _⟩
      simp only [set_framesIndex]
      omega
    | isFalse hne =>
      -- The array is full: its next page takes the frame pushed last.
      have hfull : s.framesIndex = 1024 * (ptIndex + 1) := by omega
      obtain ⟨s', hmark, ⟨w, hread⟩, hgrown, hindex, hquiet⟩ :=
        h.grow_calls hframes₀ hnodup₀ hfull depth
      have hwrite : writeWord (pageFaultFed k (depth + 1)) (framesVma s'.framesIndex)
          (BitVec.ofNat 32 start) s' = some (s'.set (poolPage k s' (s'.framesIndex / 1024))
            (s'.framesIndex % 1024) (BitVec.ofNat 32 start)) :=
        writeWord_of_translate (hgrown.translate_slot (by omega) (by omega)) _
      have hnext : s.framesIndex / 1024 = ptIndex + 1 := by omega
      rw [if_pos (by simpa using hne)]
      simp only [Option.bind_eq_bind, Option.bind_some, hmark, set_framesIndex, hread,
        hwrite, hnext]
      refine ⟨_, _, rfl, hgrown.push hframes₀ hnodup₀ (by omega) _, ?_,
        hquiet.trans (hgrown.push_quiet hframes₀ (by omega) _)⟩
      simp only
      omega

theorem initFrames_spec (n : Nat) (h : Filling k pushed ptIndex s)
    (hlow : 1024 * ptIndex ≤ s.framesIndex)
    (hframes : ∀ f ∈ pushed ++ usableFrom k n start, PoolFrame k f)
    (hnodup : (pushed ++ usableFrom k n start).Nodup) :
    ∃ ptIndex' s',
      initFrames k (pageFaultFed k (depth + 1)) n start ptIndex s = some (ptIndex', s') ∧
      Filling k (pushed ++ usableFrom k n start) ptIndex' s' ∧
      1024 * ptIndex' ≤ s'.framesIndex ∧ Quiet k s s' := by
  induction n generalizing pushed ptIndex start s with
  | zero =>
    refine ⟨ptIndex, s, rfl, ?_, hlow, .refl s⟩
    rw [usableFrom, List.append_nil]
    exact h
  | succ n ih =>
    have hsplit : usableFrom k (n + 1) start = usableTurn k start ++ usableFrom k n
        (start + 4096) := by
      unfold usableTurn
      rw [usableFrom]
      split <;> rfl
    rw [hsplit, ← List.append_assoc] at hframes hnodup ⊢
    obtain ⟨p₁, s₁, hturn, h₁, hlow₁, hquiet₁⟩ := initFrame_spec depth h hlow
      (fun f hf => hframes f (List.mem_append_left _ hf)) (List.nodup_append.1 hnodup).1
    obtain ⟨p₂, s₂, hrest, h₂, hlow₂, hquiet₂⟩ := ih h₁ hlow₁ hframes hnodup
    refine ⟨p₂, s₂, ?_, h₂, hlow₂, hquiet₁.trans hquiet₂⟩
    simp only [initFrames, hturn, Option.bind_eq_bind, Option.bind_some]
    exact hrest

theorem initRegions_spec (map : List Region) (h : Filling k pushed ptIndex s)
    (hlow : 1024 * ptIndex ≤ s.framesIndex)
    (hframes : ∀ f ∈ pushed ++ usableFrames k map, PoolFrame k f)
    (hnodup : (pushed ++ usableFrames k map).Nodup) :
    ∃ ptIndex' s',
      initRegions k (pageFaultFed k (depth + 1)) map ptIndex s = some (ptIndex', s') ∧
      Filling k (pushed ++ usableFrames k map) ptIndex' s' ∧
      1024 * ptIndex' ≤ s'.framesIndex ∧ Quiet k s s' := by
  induction map generalizing pushed ptIndex s with
  | nil =>
    refine ⟨ptIndex, s, rfl, ?_, hlow, .refl s⟩
    rw [usableFrames, List.flatMap_nil, List.append_nil]
    exact h
  | cons r map ih =>
    have hsplit : usableFrames k (r :: map) =
        (if r.type ≠ 1 then [] else usableFrom k ((r.stop - r.start) / 4096) r.start) ++
          usableFrames k map := List.flatMap_cons
    rw [hsplit] at hframes hnodup ⊢
    simp only [initRegions, Option.bind_eq_bind]
    cases Nat.decEq r.type 1 with
    | isFalse hother =>
      simp only [if_pos hother, List.nil_append] at hframes hnodup ⊢
      exact ih h hlow hframes hnodup
    | isTrue hram =>
      have hkeep : ¬ r.type ≠ 1 := fun hne => hne hram
      simp only [if_neg hkeep, ← List.append_assoc] at hframes hnodup ⊢
      obtain ⟨p₁, s₁, hregion, h₁, hlow₁, hquiet₁⟩ := initFrames_spec depth _ h hlow
        (fun f hf => hframes f (List.mem_append_left _ hf)) (List.nodup_append.1 hnodup).1
      rw [hregion, Option.bind_some]
      obtain ⟨p₂, s₂, hrest, h₂, hlow₂, hquiet₂⟩ := ih h₁ hlow₁ hframes hnodup
      exact ⟨p₂, s₂, hrest, h₂, hlow₂, hquiet₁.trans hquiet₂⟩

end Loop

/-! ### The state `mmu_init` starts from and the one it leaves -/

/-- The state when the loop of `mmu_init` begins. -/
def loopStart (k : Kernel) (s : State) : State :=
  { ((((s.set k.pd (mmuPdIndex mmuPdVma) (k.pd + 3#32)).set k.pd (mmuPdIndex mmuFramepoolVma)
    (k.framepoolPt + 3#32)).set k.framepoolPt 0 (k.framepoolFirstpage + 3#32)).loadCr3 k.pd) with
    framesIndex := 0 }

theorem loopStart_filling (k : Kernel) (ram : Memory) :
    Filling k [] 0 (loopStart k (bootState k ram)) := by
  have hpt := k.pd_ne_pt
  have hfp := k.pd_ne_framepoolPt
  have hptfp := k.pt_ne_framepoolPt
  refine ⟨rfl, by simp [loopStart], ?_, ?_, ?_, ?_, ?_, by simp [contents, loopStart]⟩
  · intro d
    simp only [loopStart, loadCr3_mem, set_mem, hfp, false_and, if_false, true_and, initPde,
      bootState, if_true, show mmuPdIndex mmuFramepoolVma = 1022 from rfl,
      show mmuPdIndex mmuPdVma = 1023 from rfl]
    cases Nat.decEq d 1022 with
    | isTrue heq => simp [heq]
    | isFalse hne => simp [hne]
  · intro i
    simp only [loopStart, loadCr3_mem, set_mem, hpt.symm, hptfp, false_and, if_false, initPte,
      bootState, if_true]
  · simp only [loopStart, loadCr3_mem, set_mem_same]
  · intro j hpos hj
    omega
  · intro j hj
    simp only [loopStart, loadCr3_mem, set_mem, hfp.symm, false_and, if_false, bootState,
      hptfp.symm, true_and, true_or, if_true]
    rw [if_neg (by omega)]

theorem mmuInit_spec (k : Kernel) (ram : Memory) (map : List Region)
    (hnodup : (usableFrames k map).Nodup) (depth : Nat) :
    ∃ ptIndex s, mmuInit k (pageFaultFed k (depth + 1)) map (bootState k ram) = some s ∧
      Filling k (usableFrames k map) ptIndex s ∧ 1024 * ptIndex ≤ s.framesIndex ∧
      Quiet k (loopStart k (bootState k ram)) s := by
  obtain ⟨ptIndex, s, hloop, hfilling, hlow, hquiet⟩ :=
    initRegions_spec depth map (loopStart_filling k ram)
    (by simp) (by rw [List.nil_append]; exact usableFrames_poolFrame)
    (by rw [List.nil_append]; exact hnodup)
  rw [List.nil_append] at hfilling
  refine ⟨ptIndex, s, ?_, hfilling, hlow, hquiet⟩
  unfold mmuInit
  change (initRegions k (pageFaultFed k (depth + 1)) map 0 (loopStart k (bootState k ram)) >>=
    fun x => some x.2) = some s
  rw [hloop]
  rfl

end OsdevCourse.Mmu
