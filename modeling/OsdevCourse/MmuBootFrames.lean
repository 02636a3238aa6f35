import OsdevCourse.MmuForeign

/-!
# The frames that `mmu_init` leaves alone

`mmu_init` writes to the frames of the image that are its own and to frames that it pushes. A frame
behind the image that the memory map does not list as usable holds after it what the boot loader has
put there, and what a run writes after that leaves it alone as well: the modules and the device
memory.
-/

namespace OsdevCourse.Mmu

set_option autoImplicit false

open PageEntry

namespace Filling
variable {k : Kernel} {pushed : List Word} {ptIndex : Nat} {s : State}
    (h : Filling k pushed ptIndex s)
  {f : Word} (hstatic : f ∉ k.statics) (hpushed : f ∉ pushed)
include h hstatic hpushed

theorem poolPage_apart {j : Nat} (hj : j ≤ ptIndex) : f ≠ poolPage k s j := by
  rintro rfl
  rcases Nat.eq_zero_or_pos j with rfl | hpos
  · apply hstatic
    rw [h.poolPage_zero]
    simp [Kernel.statics]
  · exact hpushed (h.poolPage_mem hpos hj)

theorem push_apart (hslot : s.framesIndex / 1024 ≤ ptIndex) (w : Word) (j : Nat) :
    (s.set (poolPage k s (s.framesIndex / 1024)) (s.framesIndex % 1024) w).mem f j = s.mem f j :=
  set_mem_frame _ _ _ _ (h.poolPage_apart hstatic hpushed hslot) j

theorem grow_apart (hframes : ∀ f ∈ pushed, PoolFrame k f) (hnodup : pushed.Nodup)
    (hfull : s.framesIndex = 1024 * (ptIndex + 1)) (depth : Nat) {w : Word} {s' : State}
    (hread : readWord (pageFaultFed k (depth + 1)) (framesVma s.framesIndex)
      (s.set k.framepoolPt (ptIndex + 1) growEntry) = some (w, s')) (j : Nat) :
    s'.mem f j = s.mem f j := by
  have hroom := h.framesIndex_lt hframes hnodup
  have hindex : s.framesIndex / 1024 = ptIndex + 1 := by omega
  obtain ⟨hfaultable, _⟩ := h.faultable_grow hframes hfull hroom
  have hgrown := h.grow hframes hfull hroom hnodup
  let s₁ := s.set k.framepoolPt (ptIndex + 1) growEntry
  have hpde : s₁.mem s₁.cr3 (mmuPdIndex (framesVma s.framesIndex)) = k.framepoolPt + 3#32 := by
    have hcr3 : s₁.cr3 = k.pd := h.cr3
    rw [hcr3, mmuPdIndex_framesVma hroom]
    exact (set_mem_frame _ _ _ _ k.pd_ne_framepoolPt _).trans (h.directory _)
  have hpte : s₁.mem (frameOf (s₁.mem s₁.cr3 (mmuPdIndex (framesVma s.framesIndex))))
      (mmuPtIndex (framesVma s.framesIndex)) = growEntry := by
    rw [hpde, frameOf_static k.isFrame_framepoolPt, mmuPtIndex_framesVma hroom, hindex]
    exact set_mem_same _ _ _ _
  have hunmapped : translate s₁ (framesVma s.framesIndex) = none := by
    unfold translate
    simp only [hpte, show present growEntry = false from by decide, Bool.false_eq_true,
      if_false, ite_self]
  have hfault : pageFaultFed k (depth + 1) (framesVma s.framesIndex) s₁ =
      some (faultIn k (framesVma s.framesIndex) s₁) := by
    apply int0E_eq hfaultable
    · intro fault
      unfold mmuAllocFed
      rw [if_pos hfaultable.index_pos]
      exact mmuAlloc_eq hfaultable.index_pos hfaultable.index_le hfaultable.pool hfaultable.page
    · rw [hpte]
      decide
  have hmapped := hgrown.translate_slot hroom (Nat.le_of_eq hindex)
  have hsame := Option.some.inj (hread.symm.trans (readWord_handled hunmapped hfault hmapped))
  have htable : f ≠ k.framepoolPt := by
    rintro rfl
    exact hstatic (by simp [Kernel.statics])
  have htop : f ≠ poolWord k s (s.framesIndex - 1) := by
    rintro rfl
    exact hpushed (h.poolWord_mem (by omega))
  rw [(Prod.mk.inj hsame).2, h.grow_mem hframes hfull hroom,
    if_neg fun hand => htable hand.1, if_neg htop]

end Filling

section Loop
variable {k : Kernel} {pushed : List Word} {ptIndex start : Nat} {s : State}
    {r : Nat × State} (depth : Nat)
  {f : Word} (hstatic : f ∉ k.statics)
include hstatic

theorem initFrame_apart (h : Filling k pushed ptIndex s)
    (hlow : 1024 * ptIndex ≤ s.framesIndex) (hframes : ∀ f ∈ pushed, PoolFrame k f)
    (hnodup : pushed.Nodup)
    (hpushed : f ∉ pushed)
    (hr : initFrame k (pageFaultFed k (depth + 1)) start ptIndex s = some r) (j : Nat) :
    r.2.mem f j = s.mem f j := by
  have hroom := h.framesIndex_lt hframes hnodup
  have hhigh := h.high
  unfold initFrame at hr
  split at hr
  · rw [← Option.some.inj hr]
  · split at hr
    · rw [← Option.some.inj hr]
    · by_cases heq : ptIndex = s.framesIndex / 1024
      · have hwrite : writeWord (pageFaultFed k (depth + 1)) (framesVma s.framesIndex)
            (BitVec.ofNat 32 start) s = some (s.set (poolPage k s (s.framesIndex / 1024))
              (s.framesIndex % 1024) (BitVec.ofNat 32 start)) :=
          writeWord_of_translate (h.translate_slot hroom (by omega)) _
        rw [if_neg (by simpa using heq)] at hr
        simp only [Option.bind_eq_bind, Option.bind_some, hwrite, Option.some.injEq] at hr
        rw [← hr]
        exact h.push_apart hstatic hpushed (by omega) _ j
      · have hfull : s.framesIndex = 1024 * (ptIndex + 1) := by omega
        obtain ⟨s', hmark, ⟨w, hread⟩, hgrown, hindex, _⟩ := h.grow_calls hframes hnodup hfull depth
        have hwrite : writeWord (pageFaultFed k (depth + 1)) (framesVma s'.framesIndex)
            (BitVec.ofNat 32 start) s' = some (s'.set (poolPage k s' (s'.framesIndex / 1024))
              (s'.framesIndex % 1024) (BitVec.ofNat 32 start)) :=
          writeWord_of_translate (hgrown.translate_slot (by omega) (by omega)) _
        rw [if_pos (by simpa using heq)] at hr
        simp only [Option.bind_eq_bind, Option.bind_some, hmark, set_framesIndex, hread, hwrite,
          Option.some.injEq] at hr
        rw [← hr]
        exact (hgrown.push_apart hstatic hpushed (by omega) _ j).trans
          (h.grow_apart hstatic hpushed hframes hnodup hfull depth hread j)

theorem initFrames_apart (n : Nat) (h : Filling k pushed ptIndex s)
    (hlow : 1024 * ptIndex ≤ s.framesIndex)
    (hframes : ∀ f ∈ pushed ++ usableFrom k n start, PoolFrame k f)
    (hnodup : (pushed ++ usableFrom k n start).Nodup) (hpushed : f ∉ pushed ++ usableFrom k n start)
    (hr : initFrames k (pageFaultFed k (depth + 1)) n start ptIndex s = some r) (j : Nat) :
    r.2.mem f j = s.mem f j := by
  induction n generalizing pushed ptIndex start s with
  | zero => rw [← Option.some.inj hr]
  | succ n ih =>
    have hsplit : usableFrom k (n + 1) start = usableTurn k start ++ usableFrom k n
        (start + 4096) := by
      unfold usableTurn
      rw [usableFrom]
      split <;> rfl
    rw [hsplit, ← List.append_assoc] at hframes hnodup hpushed
    obtain ⟨p₁, s₁, hturn, h₁, hlow₁, _⟩ := initFrame_spec depth h hlow
      (fun f hf => hframes f (List.mem_append_left _ hf)) (List.nodup_append.1 hnodup).1
    have hfirst := initFrame_apart depth hstatic h hlow
      (fun f hf => hframes f (List.mem_append_left _ (List.mem_append_left _ hf)))
      (List.nodup_append.1 (List.nodup_append.1 hnodup).1).1
      (fun hf => hpushed (List.mem_append_left _ (List.mem_append_left _ hf))) hturn j
    simp only [initFrames, hturn, Option.bind_eq_bind, Option.bind_some] at hr
    exact (ih h₁ hlow₁ hframes hnodup hpushed hr).trans hfirst

theorem initRegions_apart (map : List Region) (h : Filling k pushed ptIndex s)
    (hlow : 1024 * ptIndex ≤ s.framesIndex)
    (hframes : ∀ f ∈ pushed ++ usableFrames k map, PoolFrame k f)
    (hnodup : (pushed ++ usableFrames k map).Nodup) (hpushed : f ∉ pushed ++ usableFrames k map)
    (hr : initRegions k (pageFaultFed k (depth + 1)) map ptIndex s = some r) (j : Nat) :
    r.2.mem f j = s.mem f j := by
  induction map generalizing pushed ptIndex s with
  | nil => rw [← Option.some.inj hr]
  | cons region map ih =>
    have hsplit : usableFrames k (region :: map) =
        (if region.type ≠ 1 then []
          else usableFrom k ((region.stop - region.start) / 4096) region.start) ++
          usableFrames k map := List.flatMap_cons
    rw [hsplit] at hframes hnodup hpushed
    simp only [initRegions, Option.bind_eq_bind] at hr
    by_cases hram : region.type = 1
    · have hkeep : ¬ region.type ≠ 1 := fun hne => hne hram
      simp only [if_neg hkeep, ← List.append_assoc] at hframes hnodup hpushed hr
      obtain ⟨p₁, s₁, hregion, h₁, hlow₁, _⟩ := initFrames_spec depth _ h hlow
        (fun f hf => hframes f (List.mem_append_left _ hf)) (List.nodup_append.1 hnodup).1
      have hfirst := initFrames_apart depth hstatic _ h hlow
        (fun f hf => hframes f (List.mem_append_left _ hf)) (List.nodup_append.1 hnodup).1
        (fun hf => hpushed (List.mem_append_left _ hf)) hregion j
      rw [hregion, Option.bind_some] at hr
      exact (ih h₁ hlow₁ hframes hnodup hpushed hr).trans hfirst
    · simp only [if_pos hram, List.nil_append, Option.bind_some] at hframes hnodup hpushed hr
      exact ih h hlow hframes hnodup hpushed hr

end Loop

section Boot
variable {k : Kernel} {ram : Memory} {map : List Region} {depth : Nat} {s : State}
  (hdistinct : (usableFrames k map).Nodup)
  (hinit : mmuInit k (pageFault k depth) map (bootState k ram) = some s)
include hdistinct hinit

theorem mmuInit_apart {f : Word} (hstatic : f ∉ k.statics)
    (husable : f ∉ usableFrames k map) (j : Nat) :
    s.mem f j = ram f j := by
  have hfed : ∃ d, mmuInit k (pageFaultFed k (d + 1)) map (bootState k ram) = some s := by
    obtain ⟨ptIndex, s', hs', _⟩ := mmuInit_spec k ram map hdistinct depth
    have hwithin := mmuInit_within (pageFaultFed_within k (depth + 1)) hs'
    rcases Nat.eq_zero_or_pos depth with rfl | hpos
    · have hdeep := mmuInit_within (pageFault_zero_within k (pageFault k 1)) hinit
      rw [Option.some.inj (hdeep.symm.trans hwithin)]
      exact ⟨0, hs'⟩
    · obtain ⟨d, rfl⟩ := Nat.exists_eq_succ_of_ne_zero (Nat.ne_of_gt hpos)
      obtain ⟨_, s'', hs'', _⟩ := mmuInit_spec k ram map hdistinct d
      have hsame := mmuInit_within (pageFaultFed_within k (d + 1)) hs''
      rw [Option.some.inj (hinit.symm.trans hsame)]
      exact ⟨d, hs''⟩
  obtain ⟨d, hrun⟩ := hfed
  unfold mmuInit at hrun
  change (initRegions k (pageFaultFed k (d + 1)) map 0 (loopStart k (bootState k ram)) >>=
    fun x => some x.2) = some s at hrun
  rw [Option.bind_eq_bind, Option.bind_eq_some_iff] at hrun
  obtain ⟨r, hloop, hs⟩ := hrun
  have hkept := initRegions_apart d hstatic map (loopStart_filling k ram) (by simp)
    (by rw [List.nil_append]; exact usableFrames_poolFrame)
    (by rw [List.nil_append]; exact hdistinct)
    (by rw [List.nil_append]; exact husable) hloop j
  simp only [Kernel.statics, List.mem_cons, List.not_mem_nil, or_false, not_or] at hstatic
  obtain ⟨hpd, hpt, hpool, hfirst⟩ := hstatic
  rw [← Option.some.inj hs, hkept]
  simp only [loopStart, loadCr3_mem, set_mem, hpd, hpool, false_and, if_false,
    bootState, hpt, hfirst,
    or_self]

end Boot

namespace Filling
variable {k : Kernel} {map : List Region} {ptIndex : Nat} {s : State}
  (h : Filling k (usableFrames k map) ptIndex s) (hdistinct : (usableFrames k map).Nodup)
  (hlow : 1024 * ptIndex ≤ s.framesIndex) (outside : Word → Prop)
include h hdistinct hlow

theorem start_settled (himage : ∀ f : Word, f.toNat < k.kernelEnd → outside f) :
    Settled (h.left usableFrames_poolFrame hdistinct hlow outside) (Spaces.start k s) := by
  refine ⟨h.start_roles usableFrames_poolFrame hdistinct hlow outside himage, ?_⟩
  intro a ha d hd hpresent
  rw [List.mem_singleton.1 ha] at hpresent ⊢
  have hcases := h.pde_present hpresent
  have heq : d = 960 := by omega
  left
  rw [heq]
  exact (congrArg frameOf (h.directory 960)).trans (frameOf_static k.isFrame_pt)

theorem foreign {f : Word} (hstatic : f ∉ k.statics) (husable : f ∉ usableFrames k map) :
    Foreign (h.left usableFrames_poolFrame hdistinct hlow outside) f := by
  have hput := (h.left usableFrames_poolFrame hdistinct hlow outside).mem_put f
  refine ⟨?_, ?_, ?_, fun hf => husable (hput.2 (.inl hf))⟩
  · rintro rfl
    exact hstatic (by simp [Kernel.statics])
  · rintro rfl
    exact hstatic (by simp [Kernel.statics])
  · intro j hj hpresent heq
    rcases Nat.eq_zero_or_pos j with rfl | hpos
    · apply hstatic
      have hfirst : frameOf (s.mem k.framepoolPt 0) = k.framepoolFirstpage := h.poolPage_zero
      rw [heq, show (h.left usableFrames_poolFrame hdistinct hlow outside).entries 0 =
        s.mem k.framepoolPt 0
        from rfl, hfirst]
      simp [Kernel.statics]
    · exact husable (hput.2 (.inr ⟨j, hpos, hj, hpresent, heq.symm⟩))

end Filling

theorem not_static {k : Kernel} {f : Word} (h : k.kernelEnd ≤ f.toNat) : f ∉ k.statics := by
  intro hmem
  have hin := (k.inImage f hmem).2
  omega

end OsdevCourse.Mmu
