import OsdevCourse.MmuWindow
import OsdevCourse.MmuFrames

/-!
# What every frame is used for

The page tables of all processes. A frame has one role, and whatever refers to it refers to it
in that role: an entry of a directory to a page table for its place, an entry of a page table to
the page of that entry, a slot of `MMU_frames` to a frame that is free. No two references then
share a frame. The directories need not agree on their kernel halves, and the windows may show
another directory than the active one.

The history variable `fixed` tells the page table entries that `mmu_mark` has written without
allocation.
-/

namespace OsdevCourse.Mmu

set_option autoImplicit false

open PageEntry

inductive Role where
  | foreign
  | poolTable
  | backing (j : Nat)
  | directory
  | table (owner : Word) (d : Nat)
  | page (t : Word) (i : Nat)
  | pool (i : Nat)
  | loose
  deriving DecidableEq

namespace Role

def IsTable : Role → Prop
  | .table _ _ => True
  | _ => False

/-- The frames of the pool that are neither a directory nor a page table. -/
def IsData : Role → Prop
  | .page _ _ | .pool _ | .loose => True
  | _ => False

/-- The frames that are free or in hand. -/
def IsIdle : Role → Prop
  | .pool _ | .loose => True
  | _ => False

theorem IsIdle.isData {r : Role} (h : r.IsIdle) : r.IsData := by
  cases r with
  | pool i => exact True.intro
  | loose => exact True.intro
  | _ => exact h.elim

end Role

/-- The memory manager with the directories of the processes. -/
structure Spaces where
  state : State
  clones : List Word
  fixed : Word → Nat → Prop

def Spaces.dirs (k : Kernel) (x : Spaces) : List Word := k.pd :: x.clones

/-- The directory that a page table belongs to: the tables of the kernel half are shared. -/
def owner (k : Kernel) (dir : Word) (d : Nat) : Word := if d < 512 then dir else k.pd

/-- The roles of the frames that are never given out, and of the directories. -/
structure Named {k : Kernel} (L : Pool k) (role : Word → Role) (x : Spaces) : Prop where
  pd : role k.pd = .directory
  pt : role k.pt = .table k.pd 960
  poolPt : role k.framepoolPt = .poolTable
  backing : ∀ j < 1024, present (L.entries j) = true → role (frameOf (L.entries j)) = .backing j
  data : ∀ f, (role f).IsData → f ∈ L.frames
  clone : ∀ c ∈ x.clones, role c = .directory ∧ c ∈ L.frames

/-- What the directories refer to. -/
structure DirsOk (k : Kernel) (role : Word → Role) (x : Spaces) : Prop where
  cr3 : x.state.cr3 ∈ x.dirs k
  cloneSelf : ∀ c ∈ x.clones, x.state.mem c 1023 = c + 3#32
  kernelSelf : ∃ dir ∈ x.dirs k, x.state.mem k.pd 1023 = dir + 3#32
  poolEntry : ∀ a ∈ x.dirs k, x.state.mem a 1022 = k.framepoolPt + 3#32
  settled : ∀ a ∈ x.dirs k, ∀ d < 1022,
    present (x.state.mem a d) = true ∨ x.state.mem a d = 0#32
  tables : ∀ a ∈ x.dirs k, ∀ d < 1022, present (x.state.mem a d) = true →
    role (frameOf (x.state.mem a d)) = .table (owner k a d) d
  clondpd : x.clones ≠ [] → present (x.state.mem k.pd 959) = true ∧
    ∀ c ∈ x.clones, x.state.mem c 959 = x.state.mem k.pd 959

/-- What the slots of `MMU_frames` refer to. -/
structure SlotsOk {k : Kernel} (L : Pool k) (role : Word → Role) (s : State) : Prop where
  poolTable : ∀ j, s.mem k.framepoolPt j = L.entries j
  inPool : ∀ i < s.framesIndex, role (poolWord k s i) = .pool i

/-- What the page tables refer to. -/
structure TablesOk {k : Kernel} (L : Pool k) (role : Word → Role) (x : Spaces) : Prop where
  pages : ∀ t i, (role t).IsTable → i < 1024 → present (x.state.mem t i) = true →
    ¬ x.fixed t i → role (frameOf (x.state.mem t i)) = .page t i
  fixedPages : ∀ t i, x.fixed t i → (role t).IsTable ∧ i < 1024 ∧
    present (x.state.mem t i) = true ∧ L.outside (frameOf (x.state.mem t i))
  installed : ∀ t i, (role t).IsTable → i < 1024 → present (x.state.mem t i) = true →
    x.state.mem t i &&& mmuPageOndemand = 0#32

structure Roles {k : Kernel} (L : Pool k) (role : Word → Role) (x : Spaces) : Prop where
  named : Named L role x
  dirsOk : DirsOk k role x
  slots : SlotsOk L role x.state
  tables : TablesOk L role x

/-! ### Which changes a part does not see -/

section Unseen
variable {k : Kernel} {L : Pool k} {role role' : Word → Role} {x x' : Spaces}

theorem DirsOk.congr (h : DirsOk k role x) (hclones : x'.clones = x.clones)
    (hcr3 : x'.state.cr3 = x.state.cr3)
    (hmem : ∀ a ∈ x.dirs k, ∀ j, x'.state.mem a j = x.state.mem a j)
    (hrole : ∀ f, (role f).IsTable → role' f = role f) : DirsOk k role' x' := by
  have hdirs : x'.dirs k = x.dirs k := congrArg (List.cons k.pd) hclones
  have hpd : k.pd ∈ x.dirs k := List.mem_cons_self ..
  have hclone : ∀ c ∈ x.clones, c ∈ x.dirs k := fun c hc => List.mem_cons_of_mem _ hc
  refine ⟨?_, ?_, ?_, ?_, ?_, ?_, ?_⟩
  · rw [hdirs, hcr3]
    exact h.cr3
  · intro c hc
    rw [hclones] at hc
    rw [hmem c (hclone c hc)]
    exact h.cloneSelf c hc
  · rw [hdirs, hmem _ hpd]
    exact h.kernelSelf
  · intro a ha
    rw [hdirs] at ha
    rw [hmem a ha]
    exact h.poolEntry a ha
  · intro a ha d hd
    rw [hdirs] at ha
    rw [hmem a ha]
    exact h.settled a ha d hd
  · intro a ha d hd hpresent
    rw [hdirs] at ha
    rw [hmem a ha] at hpresent ⊢
    have hold := h.tables a ha d hd hpresent
    rw [hrole _ (by rw [hold]; exact True.intro)]
    exact hold
  · intro hne
    rw [hclones] at hne
    obtain ⟨hpresent, hall⟩ := h.clondpd hne
    rw [hmem _ hpd]
    refine ⟨hpresent, ?_⟩
    intro c hc
    rw [hclones] at hc
    rw [hmem c (hclone c hc)]
    exact hall c hc

theorem SlotsOk.congr {s s' : State} (h : SlotsOk L role s)
    (hindex : s'.framesIndex ≤ s.framesIndex)
    (htable : ∀ j, s'.mem k.framepoolPt j = s.mem k.framepoolPt j)
    (hword : ∀ i < s'.framesIndex, poolWord k s' i = poolWord k s i)
    (hrole : ∀ i < s'.framesIndex, role' (poolWord k s i) = role (poolWord k s i)) :
    SlotsOk L role' s' := by
  refine ⟨?_, ?_⟩
  · intro j
    rw [htable]
    exact h.poolTable j
  · intro i hi
    rw [hword i hi, hrole i hi]
    exact h.inPool i (by omega)

theorem TablesOk.congr (h : TablesOk L role x) (hfixed : x'.fixed = x.fixed)
    (htable : ∀ t, (role' t).IsTable ↔ (role t).IsTable)
    (hmem : ∀ t, (role t).IsTable → ∀ j, x'.state.mem t j = x.state.mem t j)
    (hpage : ∀ f t i, role f = .page t i → frameOf (x.state.mem t i) = f →
      present (x.state.mem t i) = true → role' f = .page t i) : TablesOk L role' x' := by
  refine ⟨?_, ?_, ?_⟩
  · intro t i ht hi hpresent hfree
    rw [htable] at ht
    rw [hfixed] at hfree
    rw [hmem t ht] at hpresent ⊢
    exact hpage _ t i (h.pages t i ht hi hpresent hfree) rfl hpresent
  · intro t i hfix
    rw [hfixed] at hfix
    obtain ⟨ht, hi, hpresent, hout⟩ := h.fixedPages t i hfix
    rw [hmem t ht, htable]
    exact ⟨ht, hi, hpresent, hout⟩
  · intro t i ht hi hpresent
    rw [htable] at ht
    rw [hmem t ht] at hpresent ⊢
    exact h.installed t i ht hi hpresent

end Unseen

namespace Named
variable {k : Kernel} {L : Pool k} {role : Word → Role} {x : Spaces} (h : Named L role x)
include h

theorem dir {a : Word} (ha : a ∈ x.dirs k) : role a = .directory := by
  cases List.mem_cons.1 ha with
  | inl heq => rw [heq]; exact h.pd
  | inr hmem => exact (h.clone a hmem).1

theorem isFrame_dir {a : Word} (ha : a ∈ x.dirs k) : IsFrame a := by
  cases List.mem_cons.1 ha with
  | inl heq => rw [heq]; exact k.isFrame_pd
  | inr hmem => exact L.isFrame a (h.clone a hmem).2

theorem update {f : Word} (hf : f ∈ L.frames) (hclone : f ∉ x.clones) (r : Role) :
    Named L (Function.update role f r) x := by
  have hne : ∀ g, g ∉ L.frames → Function.update role f r g = role g := by
    intro g hg
    apply Function.update_of_ne
    intro heq
    rw [heq] at hg
    exact hg hf
  have hstatic : ∀ g ∈ k.statics, g ∉ L.frames := fun g hg hmem => L.ne_static hmem hg
  refine ⟨?_, ?_, ?_, ?_, ?_, ?_⟩
  · rw [hne _ (hstatic _ (by simp [Kernel.statics]))]
    exact h.pd
  · rw [hne _ (hstatic _ (by simp [Kernel.statics]))]
    exact h.pt
  · rw [hne _ (hstatic _ (by simp [Kernel.statics]))]
    exact h.poolPt
  · intro j hj hpresent
    rw [hne _ (L.apart j hj hpresent).1]
    exact h.backing j hj hpresent
  · intro g hdata
    cases Classical.em (g = f) with
    | inl heq => rw [heq]; exact hf
    | inr hgf =>
      rw [Function.update_of_ne hgf] at hdata
      exact h.data g hdata
  · intro c hc
    have hcf : c ≠ f := fun heq => hclone (heq ▸ hc)
    rw [Function.update_of_ne hcf]
    exact h.clone c hc

end Named

namespace Roles
variable {k : Kernel} {L : Pool k} {role : Word → Role} {x : Spaces} (h : Roles L role x)
include h

/-! ### Frames that are apart -/

theorem clone_ne_data {f : Word} (hf : (role f).IsData) : f ∉ x.clones := by
  intro hmem
  rw [(h.named.clone f hmem).1] at hf
  exact hf

theorem poolWord_off_data {s' : State} {f : Word} (hf : (role f).IsData)
    (hagree : ∀ g, g ≠ f → ∀ j, s'.mem g j = x.state.mem g j) {i : Nat}
    (hi : i < L.frames.length) : poolWord k s' i = poolWord k x.state i := by
  obtain ⟨hj, hbacked⟩ := L.slot_backed hi
  refine poolWord_agree hagree ?_ ?_
  · intro heq
    rw [heq, h.named.poolPt] at hf
    exact hf
  · intro heq
    unfold poolPage at heq
    rw [h.slots.poolTable] at heq
    rw [← heq, h.named.backing _ hj hbacked] at hf
    exact hf

theorem slots_nodup : ((List.range x.state.framesIndex).map (poolWord k x.state)).Nodup := by
  apply List.Nodup.map_on ?_ List.nodup_range
  intro i hi j hj heq
  have hrole := h.slots.inPool i (List.mem_range.1 hi)
  rw [heq, h.slots.inPool j (List.mem_range.1 hj)] at hrole
  exact (Role.pool.inj hrole).symm

theorem slot_mem {i : Nat} (hi : i < x.state.framesIndex) : poolWord k x.state i ∈ L.frames := by
  apply h.named.data
  rw [h.slots.inPool i hi]
  exact True.intro

theorem slots_subset : (List.range x.state.framesIndex).map (poolWord k x.state) ⊆ L.frames := by
  intro f hf
  obtain ⟨i, hi, heq⟩ := List.mem_map.1 hf
  rw [← heq]
  exact h.slot_mem (List.mem_range.1 hi)

/-- The pool never holds more than `mmu_init` left in it. -/
theorem framesIndex_le : x.state.framesIndex ≤ L.frames.length := by
  have hle := (List.subperm_of_subset h.slots_nodup h.slots_subset).length_le
  rw [List.length_map, List.length_range] at hle
  exact hle

theorem framesIndex_le_pow : x.state.framesIndex ≤ 2 ^ 20 :=
  Nat.le_trans h.framesIndex_le L.length_le

theorem framesIndex_lt {f : Word} (hf : f ∈ L.frames) (hout : ∀ i, role f ≠ .pool i) :
    x.state.framesIndex < L.frames.length := by
  have hfresh : f ∉ (List.range x.state.framesIndex).map (poolWord k x.state) := by
    intro hmem
    obtain ⟨i, hi, heq⟩ := List.mem_map.1 hmem
    apply hout i
    rw [← heq]
    exact h.slots.inPool i (List.mem_range.1 hi)
  have hsub : f :: (List.range x.state.framesIndex).map (poolWord k x.state) ⊆ L.frames := by
    intro g hg
    cases List.mem_cons.1 hg with
    | inl heq => rw [heq]; exact hf
    | inr hmem => exact h.slots_subset hmem
  have hnodup := List.nodup_cons.2 ⟨hfresh, h.slots_nodup⟩
  have hle := (List.subperm_of_subset hnodup hsub).length_le
  rw [List.length_cons, List.length_map, List.length_range] at hle
  exact hle

theorem pool_present {i : Nat} (hi : i < L.frames.length) :
    present (x.state.mem k.framepoolPt (i / 1024)) = true := by
  rw [h.slots.poolTable]
  exact L.populated i hi

theorem poolPage_role {i : Nat} (hi : i < L.frames.length) :
    role (poolPage k x.state (i / 1024)) = .backing (i / 1024) := by
  obtain ⟨hj, hbacked⟩ := L.slot_backed hi
  unfold poolPage
  rw [h.slots.poolTable]
  exact h.named.backing _ hj hbacked

theorem pool_kept {s' : State} (hpt : ∀ j, s'.mem k.framepoolPt j = x.state.mem k.framepoolPt j)
    (hbacking : ∀ g b j, role g = .backing b →
      ¬ (b = x.state.framesIndex / 1024 ∧ j = x.state.framesIndex % 1024) →
      s'.mem g j = x.state.mem g j) {i : Nat} (hi : i < x.state.framesIndex) :
    poolWord k s' i = poolWord k x.state i := by
  have hle := h.framesIndex_le
  have hpage : poolPage k s' (i / 1024) = poolPage k x.state (i / 1024) := by
    unfold poolPage
    rw [hpt]
  unfold poolWord
  rw [hpage]
  apply hbacking _ _ _ (h.poolPage_role (by omega))
  intro hand
  omega

theorem slots_kept {s' : State} (p : Role → Prop) (hpt : ¬ p .poolTable)
    (hbacking : ∀ b, ¬ p (.backing b))
    (hmem : ∀ g, ¬ p (role g) → ∀ j, s'.mem g j = x.state.mem g j) {i : Nat}
    (hi : i < x.state.framesIndex) : poolWord k s' i = poolWord k x.state i := by
  apply h.pool_kept ?_ ?_ hi
  · apply hmem
    rw [h.named.poolPt]
    exact hpt
  · intro g b j hg _
    apply hmem
    rw [hg]
    exact hbacking b

theorem active_pool : x.state.mem x.state.cr3 1022 = k.framepoolPt + 3#32 :=
  h.dirsOk.poolEntry _ h.dirsOk.cr3

theorem recursive : ∃ dir ∈ x.dirs k, Recursive x.state dir ∧
    x.state.mem dir 1023 = dir + 3#32 := by
  have hrec : ∀ dir ∈ x.dirs k, x.state.mem x.state.cr3 1023 = dir + 3#32 →
      x.state.mem dir 1023 = dir + 3#32 → Recursive x.state dir := by
    intro dir hdir hactive hown
    have hframe := h.named.isFrame_dir hdir
    refine ⟨?_, ?_, ?_, ?_⟩
    · rw [hactive]
      exact present_static hframe
    · rw [hactive]
      exact frameOf_static hframe
    · rw [hown]
      exact present_static hframe
    · rw [hown]
      exact frameOf_static hframe
  cases List.mem_cons.1 h.dirsOk.cr3 with
  | inr hmem =>
    have hself := h.dirsOk.cloneSelf _ hmem
    exact ⟨_, h.dirsOk.cr3, hrec _ h.dirsOk.cr3 hself hself, hself⟩
  | inl heq =>
    obtain ⟨dir, hdir, hkernel⟩ := h.dirsOk.kernelSelf
    have hown : x.state.mem dir 1023 = dir + 3#32 := by
      cases List.mem_cons.1 hdir with
      | inl hpd => rw [hpd] at hkernel ⊢; exact hkernel
      | inr hmem => exact h.dirsOk.cloneSelf _ hmem
    refine ⟨dir, hdir, hrec dir hdir ?_ hown, hown⟩
    rw [heq]
    exact hkernel

/-! ### The effects -/

theorem congr_state {s' : State} (hmem : s'.mem = x.state.mem) (hcr3 : s'.cr3 = x.state.cr3)
    (hindex : s'.framesIndex = x.state.framesIndex) : Roles L role { x with state := s' } := by
  obtain ⟨⟨mem, cr3, framesIndex, trace⟩, clones, fixed⟩ := x
  obtain ⟨mem', cr3', framesIndex', trace'⟩ := s'
  subst hmem hcr3 hindex
  obtain ⟨hnamed, hdirs, hslots, htables⟩ := h
  exact ⟨⟨hnamed.pd, hnamed.pt, hnamed.poolPt, hnamed.backing, hnamed.data, hnamed.clone⟩,
    ⟨hdirs.cr3, hdirs.cloneSelf, hdirs.kernelSelf, hdirs.poolEntry, hdirs.settled, hdirs.tables,
      hdirs.clondpd⟩,
    ⟨hslots.poolTable, hslots.inPool⟩,
    ⟨htables.pages, htables.fixedPages, htables.installed⟩⟩

theorem pop (hpos : 0 < x.state.framesIndex) :
    Roles L (Function.update role (poolWord k x.state (x.state.framesIndex - 1)) .loose)
      { x with state := { x.state with framesIndex := x.state.framesIndex - 1 } } := by
  have htop := h.slots.inPool (x.state.framesIndex - 1) (by omega)
  generalize hf : poolWord k x.state (x.state.framesIndex - 1) = f at htop ⊢
  have hdata : (role f).IsData := by
    rw [htop]
    exact True.intro
  have hkeep : ∀ g, role g ≠ role f → Function.update role f .loose g = role g := by
    intro g hg
    apply Function.update_of_ne
    intro heq
    exact hg (congrArg role heq)
  refine ⟨?_, ?_, ?_, ?_⟩
  · have hnamed := h.named.update (h.named.data f hdata) (h.clone_ne_data hdata) .loose
    exact ⟨hnamed.pd, hnamed.pt, hnamed.poolPt, hnamed.backing, hnamed.data, hnamed.clone⟩
  · refine h.dirsOk.congr rfl rfl (fun _ _ _ => rfl) ?_
    intro g hg
    apply hkeep
    intro heq
    rw [heq, htop] at hg
    exact hg
  · refine h.slots.congr (Nat.sub_le _ _) (fun _ => rfl) (fun _ _ => rfl) ?_
    intro i hi
    simp only at hi
    apply hkeep
    rw [h.slots.inPool i (by omega), htop]
    intro heq
    have := Role.pool.inj heq
    omega
  · refine h.tables.congr rfl ?_ (fun _ _ _ => rfl) ?_
    · intro t
      cases Classical.em (t = f) with
      | inl heq =>
        rw [heq, Function.update_self, htop]
        exact Iff.rfl
      | inr hne => rw [Function.update_of_ne hne]
    · intro g t i hg _ _
      rw [hkeep g (by rw [hg, htop]; simp)]
      exact hg

theorem recast {f : Word} (hdata : (role f).IsData) (hpool : ∀ i, role f ≠ .pool i)
    (hfree : ∀ t i, role f = .page t i → present (x.state.mem t i) = true →
      frameOf (x.state.mem t i) ≠ f) {r : Role}
    (htable : r.IsTable → ∀ j < 1024, x.state.mem f j = 0#32) :
    Roles L (Function.update role f r) x := by
  have hnotTable : ¬ (role f).IsTable := by
    intro hcase
    cases hrole : role f with
    | table o d => rw [hrole] at hdata; exact hdata
    | _ => rw [hrole] at hcase; exact hcase
  have hkeep : ∀ g, role g ≠ role f → Function.update role f r g = role g := by
    intro g hg
    apply Function.update_of_ne
    intro heq
    exact hg (congrArg role heq)
  have hotherTable : ∀ t, (role t).IsTable → t ≠ f := by
    intro t ht heq
    rw [heq] at ht
    exact hnotTable ht
  have hpage : ∀ g t i, role g = .page t i → present (x.state.mem t i) = true →
      frameOf (x.state.mem t i) = g → Function.update role f r g = .page t i := by
    intro g t i hg hpresent hframe
    cases Classical.em (g = f) with
    | inl heq =>
      rw [heq] at hg hframe
      exact absurd hframe (hfree t i hg hpresent)
    | inr hne =>
      rw [Function.update_of_ne hne]
      exact hg
  refine ⟨h.named.update (h.named.data f hdata) (h.clone_ne_data hdata) r, ?_, ?_, ?_⟩
  · refine h.dirsOk.congr rfl rfl (fun _ _ _ => rfl) ?_
    intro g hg
    exact Function.update_of_ne (hotherTable g hg) _ _
  · refine h.slots.congr (Nat.le_refl _) (fun _ => rfl) (fun _ _ => rfl) ?_
    intro i hi
    apply hkeep
    rw [h.slots.inPool i hi]
    exact (hpool i).symm
  · refine ⟨?_, ?_, ?_⟩
    · intro t i ht hi hpresent hfix
      cases Classical.em (t = f) with
      | inl heq =>
        rw [heq, Function.update_self] at ht
        rw [heq, htable ht i hi, not_present_zero] at hpresent
        exact Bool.noConfusion hpresent
      | inr hne =>
        rw [Function.update_of_ne hne] at ht
        exact hpage _ t i (h.tables.pages t i ht hi hpresent hfix) hpresent rfl
    · intro t i hfix
      obtain ⟨ht, hrest⟩ := h.tables.fixedPages t i hfix
      rw [Function.update_of_ne (hotherTable t ht)]
      exact ⟨ht, hrest⟩
    · intro t i ht hi hpresent
      cases Classical.em (t = f) with
      | inl heq =>
        rw [heq, Function.update_self] at ht
        rw [heq, htable ht i hi, not_present_zero] at hpresent
        exact Bool.noConfusion hpresent
      | inr hne =>
        rw [Function.update_of_ne hne] at ht
        exact h.tables.installed t i ht hi hpresent

theorem write {f : Word} (hdata : (role f).IsData) {s' : State}
    (hagree : ∀ g, g ≠ f → ∀ j, s'.mem g j = x.state.mem g j)
    (hcr3 : s'.cr3 = x.state.cr3) (hindex : s'.framesIndex = x.state.framesIndex) :
    Roles L role { x with state := s' } := by
  refine ⟨⟨h.named.pd, h.named.pt, h.named.poolPt, h.named.backing, h.named.data, h.named.clone⟩,
    ?_, ?_, ?_⟩
  · refine h.dirsOk.congr rfl hcr3 ?_ (fun _ _ => rfl)
    intro a ha j
    apply hagree
    intro heq
    rw [← heq, h.named.dir ha] at hdata
    exact hdata
  · refine h.slots.congr (Nat.le_of_eq hindex) ?_ ?_ (fun _ _ => rfl)
    · intro j
      apply hagree
      intro heq
      rw [← heq, h.named.poolPt] at hdata
      exact hdata
    · intro i hi
      have hle := h.framesIndex_le
      simp only [hindex] at hi
      exact h.poolWord_off_data hdata hagree (by omega)
  · refine h.tables.congr rfl (fun _ => Iff.rfl) ?_ (fun _ _ _ hpage _ _ => hpage)
    intro t ht j
    apply hagree
    intro heq
    rw [← heq] at hdata
    cases hrole : role t with
    | table o d => rw [hrole] at hdata; exact hdata
    | _ => rw [hrole] at ht; exact ht

theorem push {f : Word} (hloose : role f = .loose) {s' : State}
    (hmem : ∀ g j, s'.mem g j =
      if g = poolPage k x.state (x.state.framesIndex / 1024) ∧ j = x.state.framesIndex % 1024
      then f else x.state.mem g j)
    (hcr3 : s'.cr3 = x.state.cr3) (hindex : s'.framesIndex = x.state.framesIndex + 1) :
    Roles L (Function.update role f (.pool x.state.framesIndex)) { x with state := s' } := by
  have hdata : (role f).IsData := by
    rw [hloose]
    exact True.intro
  have hf := h.named.data f hdata
  have hlt := h.framesIndex_lt hf (by rw [hloose]; simp)
  have hpage := h.poolPage_role hlt
  have hoff : ∀ g, role g ≠ .backing (x.state.framesIndex / 1024) →
      ∀ j, s'.mem g j = x.state.mem g j := by
    intro g hg j
    rw [hmem, if_neg]
    intro hand
    apply hg
    rw [hand.1]
    exact hpage
  have hkeep : ∀ g, role g ≠ .loose → Function.update role f (.pool x.state.framesIndex) g =
      role g := by
    intro g hg
    apply Function.update_of_ne
    intro heq
    rw [heq] at hg
    exact hg hloose
  have hpoolPt : ∀ j, s'.mem k.framepoolPt j = x.state.mem k.framepoolPt j :=
    hoff _ (by rw [h.named.poolPt]; simp)
  have hpages : ∀ j, poolPage k s' j = poolPage k x.state j := by
    intro j
    unfold poolPage
    rw [hpoolPt]
  have hnew : poolWord k s' x.state.framesIndex = f := by
    unfold poolWord
    rw [hpages, hmem, if_pos ⟨rfl, rfl⟩]
  have hold : ∀ i < x.state.framesIndex, poolWord k s' i = poolWord k x.state i := by
    intro i hi
    refine h.pool_kept hpoolPt ?_ hi
    intro g b j hg hother
    rw [hmem, if_neg]
    intro hand
    rw [hand.1, hpage] at hg
    exact hother ⟨(Role.backing.inj hg).symm, hand.2⟩
  refine ⟨?_, ?_, ?_, ?_⟩
  · have hnamed := h.named.update hf (h.clone_ne_data hdata) (.pool x.state.framesIndex)
    exact ⟨hnamed.pd, hnamed.pt, hnamed.poolPt, hnamed.backing, hnamed.data, hnamed.clone⟩
  · refine h.dirsOk.congr rfl hcr3 ?_ ?_
    · intro a ha
      apply hoff
      rw [h.named.dir ha]
      simp
    · intro g hg
      apply hkeep
      intro heq
      rw [heq] at hg
      exact hg
  · refine ⟨?_, ?_⟩
    · intro j
      exact (hpoolPt j).trans (h.slots.poolTable j)
    · intro i hi
      simp only [hindex] at hi
      cases Nat.lt_succ_iff_lt_or_eq.1 hi with
      | inl hlow =>
        rw [hold i hlow, hkeep _ (by rw [h.slots.inPool i hlow]; simp)]
        exact h.slots.inPool i hlow
      | inr heq => rw [heq, hnew, Function.update_self]
  · refine h.tables.congr rfl ?_ ?_ ?_
    · intro t
      cases Classical.em (t = f) with
      | inl heq =>
        rw [heq, Function.update_self, hloose]
        exact Iff.rfl
      | inr hne => rw [Function.update_of_ne hne]
    · intro t ht
      apply hoff
      intro heq
      rw [heq] at ht
      exact ht
    · intro g t i hg _ _
      rw [hkeep g (by rw [hg]; simp)]
      exact hg

theorem setPte {t : Word} (ht : (role t).IsTable) {i : Nat} (hi : i < 1024) {w : Word} {s' : State}
    (hmem : ∀ g j, s'.mem g j = if g = t ∧ j = i then w else x.state.mem g j)
    (hcr3 : s'.cr3 = x.state.cr3) (hindex : s'.framesIndex = x.state.framesIndex)
    {fixed' : Word → Nat → Prop} (hother : ∀ u j, ¬ (u = t ∧ j = i) → (fixed' u j ↔ x.fixed u j))
    (hpage : present w = true → ¬ fixed' t i → role (frameOf w) = .page t i)
    (hfixed : fixed' t i → present w = true ∧ L.outside (frameOf w))
    (hinstalled : present w = true → w &&& mmuPageOndemand = 0#32) :
    Roles L role { x with state := s', fixed := fixed' } := by
  have hsame : s'.mem t i = w := by
    rw [hmem, if_pos ⟨rfl, rfl⟩]
  have hoff : ∀ g j, ¬ (g = t ∧ j = i) → s'.mem g j = x.state.mem g j := by
    intro g j hne
    rw [hmem, if_neg hne]
  have hagree : ∀ g, ¬ (role g).IsTable → ∀ j, s'.mem g j = x.state.mem g j := by
    intro g hg j
    apply hoff
    intro hand
    rw [hand.1] at hg
    exact hg ht
  refine ⟨⟨h.named.pd, h.named.pt, h.named.poolPt, h.named.backing, h.named.data, h.named.clone⟩,
    ?_, ?_, ⟨?_, ?_, ?_⟩⟩
  · refine h.dirsOk.congr rfl hcr3 ?_ (fun _ _ => rfl)
    intro a ha
    apply hagree
    rw [h.named.dir ha]
    exact id
  · have hpoolPt : ∀ j, s'.mem k.framepoolPt j = x.state.mem k.framepoolPt j := by
      apply hagree
      rw [h.named.poolPt]
      exact id
    refine h.slots.congr (Nat.le_of_eq hindex) hpoolPt ?_ (fun _ _ => rfl)
    intro j hj
    simp only [hindex] at hj
    exact h.slots_kept Role.IsTable id (fun _ => id) hagree hj
  · intro u j hu hj hpresent hfree
    cases Classical.em (u = t ∧ j = i) with
    | inl hand =>
      obtain ⟨hut, hji⟩ := hand
      subst hut hji
      simp only [hsame] at hpresent ⊢
      exact hpage hpresent hfree
    | inr hne =>
      simp only [hoff u j hne] at hpresent ⊢
      exact h.tables.pages u j hu hj hpresent fun hfix => hfree ((hother u j hne).2 hfix)
  · intro u j hfix
    cases Classical.em (u = t ∧ j = i) with
    | inl hand =>
      obtain ⟨hut, hji⟩ := hand
      subst hut hji
      simp only [hsame]
      exact ⟨ht, hi, hfixed hfix⟩
    | inr hne =>
      simp only [hoff u j hne]
      exact h.tables.fixedPages u j ((hother u j hne).1 hfix)
  · intro u j hu hj hpresent
    cases Classical.em (u = t ∧ j = i) with
    | inl hand =>
      obtain ⟨hut, hji⟩ := hand
      subst hut hji
      simp only [hsame] at hpresent ⊢
      exact hinstalled hpresent
    | inr hne =>
      simp only [hoff u j hne] at hpresent ⊢
      exact h.tables.installed u j hu hj hpresent

section Directory
variable {a : Word} (ha : a ∈ x.dirs k) {d : Nat} {w : Word} {s' : State}
  (hmem : ∀ g j, s'.mem g j = if g = a ∧ j = d then w else x.state.mem g j)
  (hcr3 : s'.cr3 = x.state.cr3) (hindex : s'.framesIndex = x.state.framesIndex)
include ha hmem hcr3 hindex

omit hcr3 in
theorem of_dirs (hdirs : DirsOk k role { x with state := s' }) :
    Roles L role { x with state := s' } := by
  have hagree : ∀ g, role g ≠ .directory → ∀ j, s'.mem g j = x.state.mem g j := by
    intro g hg j
    rw [hmem, if_neg]
    intro hand
    apply hg
    rw [hand.1]
    exact h.named.dir ha
  refine ⟨⟨h.named.pd, h.named.pt, h.named.poolPt, h.named.backing, h.named.data, h.named.clone⟩,
    hdirs, ?_, ?_⟩
  · have hpoolPt : ∀ j, s'.mem k.framepoolPt j = x.state.mem k.framepoolPt j := by
      apply hagree
      rw [h.named.poolPt]
      simp
    refine h.slots.congr (Nat.le_of_eq hindex) hpoolPt ?_ (fun _ _ => rfl)
    intro j hj
    simp only [hindex] at hj
    exact h.slots_kept (fun r => r = .directory) (by simp) (by simp) hagree hj
  · refine h.tables.congr rfl (fun _ => Iff.rfl) ?_ (fun _ _ _ hpage _ _ => hpage)
    intro t ht
    apply hagree
    intro heq
    rw [heq] at ht
    exact ht

/-- An entry of a directory comes to refer to a page table for its place. -/
theorem setPde (hd : d < 1022) (hw : present w = true)
    (htable : role (frameOf w) = .table (owner k a d) d)
    (hclondpd : d = 959 → x.clones = [] ∨ w = x.state.mem k.pd 959) :
    Roles L role { x with state := s' } := by
  refine h.of_dirs ha hmem hindex ⟨?_, ?_, ?_, ?_, ?_, ?_, ?_⟩
  · simp only [hcr3]
    exact h.dirsOk.cr3
  · intro c hc
    simp only [hmem, if_neg (show ¬ (c = a ∧ 1023 = d) by omega)]
    exact h.dirsOk.cloneSelf c hc
  · simp only [hmem, if_neg (show ¬ (k.pd = a ∧ 1023 = d) by omega)]
    exact h.dirsOk.kernelSelf
  · intro b hb
    simp only [hmem, if_neg (show ¬ (b = a ∧ 1022 = d) by omega)]
    exact h.dirsOk.poolEntry b hb
  · intro b hb e he
    simp only [hmem]
    split
    · exact .inl hw
    · exact h.dirsOk.settled b hb e he
  · intro b hb e he hpresent
    simp only [hmem] at hpresent ⊢
    split at hpresent
    · rename_i hand
      rw [if_pos hand, hand.1, hand.2]
      exact htable
    · rename_i hne
      rw [if_neg hne]
      exact h.dirsOk.tables b hb e he hpresent
  · intro hne
    simp only at hne ⊢
    obtain ⟨hpresent, hall⟩ := h.dirsOk.clondpd hne
    have hsame : ∀ b ∈ x.dirs k, s'.mem b 959 = x.state.mem k.pd 959 := by
      intro b hb
      have hold : x.state.mem b 959 = x.state.mem k.pd 959 := by
        cases List.mem_cons.1 hb with
        | inl heq => rw [heq]
        | inr hclone => exact hall b hclone
      rw [hmem]
      split
      · rename_i hand
        cases hclondpd hand.2.symm with
        | inl hnil => exact absurd hnil hne
        | inr heq => exact heq
      · exact hold
    rw [hsame k.pd (List.mem_cons_self ..)]
    exact ⟨hpresent, fun c hc => hsame c (List.mem_cons_of_mem _ hc)⟩

end Directory

/-- `INT_0E` copies the last entry of the directory that the windows show to `MMU_PD`. -/
theorem setSelf {dir : Word} (hdir : dir ∈ x.dirs k) {s' : State}
    (hmem : ∀ g j, s'.mem g j = if g = k.pd ∧ j = 1023 then dir + 3#32 else x.state.mem g j)
    (hcr3 : s'.cr3 = x.state.cr3) (hindex : s'.framesIndex = x.state.framesIndex) :
    Roles L role { x with state := s' } := by
  have hlow : ∀ g j, j < 1023 → s'.mem g j = x.state.mem g j := by
    intro g j hj
    rw [hmem, if_neg (by omega)]
  refine h.of_dirs (List.mem_cons_self ..) hmem hindex ⟨?_, ?_, ?_, ?_, ?_, ?_, ?_⟩
  · simp only [hcr3]
    exact h.dirsOk.cr3
  · intro c hc
    have hne : c ≠ k.pd := L.ne_pd (h.named.clone c hc).2
    simp only [hmem, if_neg fun hand => hne (And.left hand)]
    exact h.dirsOk.cloneSelf c hc
  · refine ⟨dir, hdir, ?_⟩
    simp only [hmem, and_self, if_true]
  · intro b hb
    simp only [hlow b 1022 (by omega)]
    exact h.dirsOk.poolEntry b hb
  · intro b hb e he
    simp only [hlow b e (by omega)]
    exact h.dirsOk.settled b hb e he
  · intro b hb e he hpresent
    simp only [hlow b e (by omega)] at hpresent ⊢
    exact h.dirsOk.tables b hb e he hpresent
  · intro hne
    simp only [hlow _ 959 (by omega)]
    exact h.dirsOk.clondpd hne

theorem switch {dir : Word} (hdir : dir ∈ x.dirs k) :
    Roles L role { x with state := x.state.loadCr3 dir } := by
  refine ⟨⟨h.named.pd, h.named.pt, h.named.poolPt, h.named.backing, h.named.data, h.named.clone⟩,
    ?_, ⟨h.slots.poolTable, h.slots.inPool⟩,
    ⟨h.tables.pages, h.tables.fixedPages, h.tables.installed⟩⟩
  exact ⟨hdir, h.dirsOk.cloneSelf, h.dirsOk.kernelSelf, h.dirsOk.poolEntry, h.dirsOk.settled,
    h.dirsOk.tables, h.dirsOk.clondpd⟩

theorem addClone {f : Word} (hrole : role f = .directory) (hf : f ∈ L.frames)
    (huser : ∀ d < 512, x.state.mem f d = 0#32)
    (hkernel : ∀ d, 512 ≤ d → d < 1023 → x.state.mem f d = x.state.mem k.pd d)
    (hself : x.state.mem f 1023 = f + 3#32) (hclondpd : present (x.state.mem k.pd 959) = true) :
    Roles L role { x with clones := x.clones ++ [f] } := by
  have hpd : k.pd ∈ x.dirs k := List.mem_cons_self ..
  have hclones : ∀ c, c ∈ x.clones ++ [f] ↔ c ∈ x.clones ∨ c = f := by
    intro c
    rw [List.mem_append, List.mem_singleton]
  have hdirs : ∀ a, a ∈ Spaces.dirs k { x with clones := x.clones ++ [f] } ↔
      a ∈ x.dirs k ∨ a = f := by
    intro a
    unfold Spaces.dirs
    simp only [List.mem_cons, hclones, or_assoc]
  refine ⟨?_, ?_, ⟨h.slots.poolTable, h.slots.inPool⟩,
    ⟨h.tables.pages, h.tables.fixedPages, h.tables.installed⟩⟩
  · refine ⟨h.named.pd, h.named.pt, h.named.poolPt, h.named.backing, h.named.data, ?_⟩
    intro c hc
    cases (hclones c).1 hc with
    | inl hmem => exact h.named.clone c hmem
    | inr heq => rw [heq]; exact ⟨hrole, hf⟩
  · refine ⟨?_, ?_, ?_, ?_, ?_, ?_, ?_⟩
    · exact (hdirs _).2 (.inl h.dirsOk.cr3)
    · intro c hc
      cases (hclones c).1 hc with
      | inl hmem => exact h.dirsOk.cloneSelf c hmem
      | inr heq => rw [heq]; exact hself
    · obtain ⟨dir, hdir, heq⟩ := h.dirsOk.kernelSelf
      exact ⟨dir, (hdirs dir).2 (.inl hdir), heq⟩
    · intro a ha
      cases (hdirs a).1 ha with
      | inl hmem => exact h.dirsOk.poolEntry a hmem
      | inr heq =>
        rw [heq]
        exact (hkernel 1022 (by omega) (by omega)).trans (h.dirsOk.poolEntry _ hpd)
    · intro a ha d hd
      cases (hdirs a).1 ha with
      | inl hmem => exact h.dirsOk.settled a hmem d hd
      | inr heq =>
        rw [heq]
        cases Nat.lt_or_ge d 512 with
        | inl hlow => exact .inr (huser d hlow)
        | inr hhigh =>
          simp only [hkernel d hhigh (by omega)]
          exact h.dirsOk.settled _ hpd d hd
    · intro a ha d hd hpresent
      cases (hdirs a).1 ha with
      | inl hmem => exact h.dirsOk.tables a hmem d hd hpresent
      | inr heq =>
        rw [heq] at hpresent ⊢
        cases Nat.lt_or_ge d 512 with
        | inl hlow =>
          simp only [huser d hlow, not_present_zero] at hpresent
          exact Bool.noConfusion hpresent
        | inr hhigh =>
          simp only [hkernel d hhigh (by omega)] at hpresent ⊢
          rw [h.dirsOk.tables _ hpd d hd hpresent]
          unfold owner
          rw [if_neg (by omega), if_neg (by omega)]
    · intro _
      refine ⟨hclondpd, ?_⟩
      intro c hc
      cases (hclones c).1 hc with
      | inr heq => rw [heq]; exact hkernel 959 (by omega) (by omega)
      | inl hmem =>
        exact (h.dirsOk.clondpd (List.ne_nil_of_mem hmem)).2 c hmem

end Roles

end OsdevCourse.Mmu
