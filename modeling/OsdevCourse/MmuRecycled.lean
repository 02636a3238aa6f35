import OsdevCourse.MmuAlike

/-!
# Recycled frames

Frames travel between the processes as pages, page tables and directories. A frame that `INT_0E`
brings in reads as zeros until a program writes to it, and what a program reads does not depend on
what the free frames held when the machine started.
-/

namespace OsdevCourse.Mmu

set_option autoImplicit false

open PageEntry

/-! ### Bytes of a word -/

def byteOf (w : Word) (n : Nat) : BitVec 8 := (w >>> (8 * n)).setWidth 8

/-- The word with another byte in place `n`. -/
def withByte (w : Word) (n : Nat) (b : BitVec 8) : Word :=
  (w &&& ~~~((BitVec.allOnes 8).setWidth 32 <<< (8 * n))) ||| (b.setWidth 32 <<< (8 * n))

theorem byteOf_zero (n : Nat) : byteOf 0#32 n = 0#8 := by
  unfold byteOf
  rw [BitVec.zero_ushiftRight]
  rfl

theorem byteOf_withByte_ne (w : Word) (b : BitVec 8) {n m : Nat} (hn : n < 4) (hne : n ≠ m) :
    byteOf (withByte w m b) n = byteOf w n := by
  unfold byteOf withByte
  apply BitVec.eq_of_getLsbD_eq
  intro i hi
  simp only [BitVec.getLsbD_setWidth, BitVec.getLsbD_ushiftRight, BitVec.getLsbD_or,
    BitVec.getLsbD_and, BitVec.getLsbD_not, BitVec.getLsbD_shiftLeft, BitVec.getLsbD_allOnes]
  rcases Nat.lt_or_gt_of_ne hne with hlt | hgt
  · have hlow : 8 * n + i < 8 * m := by omega
    have hword : 8 * n + i < 32 := by omega
    simp [hlow, hword]
  · have hhigh : ¬ 8 * n + i - 8 * m < 8 := by omega
    have hword : 8 * n + i < 32 := by omega
    have hbit : b.getLsbD (8 * n + i - 8 * m) = false := BitVec.getLsbD_of_ge _ _ (by omega)
    simp [hhigh, hword, hbit]

/-- The byte at an offset into a frame. -/
def byteAt (s : State) (f : Word) (o : Nat) : BitVec 8 := byteOf (s.mem f (o / 4)) (o % 4)

theorem byteAt_zero {s : State} {f : Word} (hzero : ∀ j, s.mem f j = 0#32) (o : Nat) :
    byteAt s f o = 0#8 := by
  unfold byteAt
  rw [hzero]
  exact byteOf_zero _

theorem byteAt_congr {s s' : State} {f : Word} (hmem : ∀ j, s'.mem f j = s.mem f j) (o : Nat) :
    byteAt s' f o = byteAt s f o := by
  unfold byteAt
  rw [hmem]

/-! ### Which frames are behind a page -/

/-- A page is named by its page table and the index of its entry there: two directories that
share the table have the page in common. Some directory has the table below the pool array, and the
entry maps the frame. -/
def Mapped (k : Kernel) (x : Spaces) (e : Word × Nat) (f : Word) : Prop :=
  ∃ a ∈ x.dirs k, ∃ d < 1022, present (x.state.mem a d) = true ∧ frameOf (x.state.mem a d) = e.1 ∧
    e.2 < 1024 ∧ present (x.state.mem e.1 e.2) = true ∧ frameOf (x.state.mem e.1 e.2) = f

/-- The page of an address in the directory `a`. -/
def pageOf (s : State) (a : Word) (addr : Nat) : Word × Nat :=
  (Spaces.tableOf s a addr, mmuPtIndex addr)

theorem DemandPage.mapped {k : Kernel} {x : Spaces} {a f : Word} {addr : Nat}
    (h : DemandPage k x a addr f) : Mapped k x (pageOf x.state a addr) f :=
  ⟨a, h.dir, _, h.below, h.present_pde, rfl, mmuPtIndex_lt addr, h.present_pte, h.frame⟩

namespace Roles
variable {k : Kernel} {L : Pool k} {role : Word → Role} {x : Spaces} (h : Roles L role x)
include h

theorem mapped_role (hout : ∀ f ∈ L.frames, ¬ L.outside f) {e : Word × Nat} {f : Word}
    (hf : f ∈ L.frames) (hmapped : Mapped k x e f) : role f = .page e.1 e.2 := by
  obtain ⟨a, ha, d, hd, hpde, htable, hi, hpte, rfl⟩ := hmapped
  have hrole := h.table_role ha hd hpde
  rw [htable] at hrole
  apply h.tables.pages _ _ hrole hi hpte
  intro hfix
  exact hout _ hf (h.tables.fixedPages _ _ hfix).2.2.2

theorem mapped_before {x' : Spaces} {e : Word × Nat} {f : Word}
    (hdirs : ∀ a ∈ x'.dirs k, ∀ d < 1022, present (x'.state.mem a d) = true →
      (∃ b ∈ x.dirs k, x'.state.mem a d = x.state.mem b d) ∨
        ∀ j, x'.state.mem (frameOf (x'.state.mem a d)) j = 0#32)
    (htables : (role e.1).IsTable → present (x'.state.mem e.1 e.2) = true →
      frameOf (x'.state.mem e.1 e.2) = f →
        present (x.state.mem e.1 e.2) = true ∧ frameOf (x.state.mem e.1 e.2) = f)
    (hmapped : Mapped k x' e f) : Mapped k x e f := by
  obtain ⟨a, ha, d, hd, hpde, htable, hi, hpte, hframe⟩ := hmapped
  rcases hdirs a ha d hd hpde with ⟨b, hb, heq⟩ | hzero
  · rw [heq] at hpde htable
    have hrole := h.table_role hb hd hpde
    rw [htable] at hrole
    obtain ⟨hpte', hframe'⟩ := htables hrole hpte hframe
    exact ⟨b, hb, d, hd, hpde, htable, hi, hpte', hframe'⟩
  · rw [htable] at hzero
    rw [hzero, not_present_zero] at hpte
    exact Bool.noConfusion hpte

theorem mapped_congr {s' : State} {e : Word × Nat} {f : Word}
    (hdirs : ∀ a ∈ x.dirs k, ∀ j, s'.mem a j = x.state.mem a j)
    (htables : ∀ u, (role u).IsTable → ∀ i, s'.mem u i = x.state.mem u i)
    {fixed' : Word → Nat → Prop} (hmapped : Mapped k { x with state := s', fixed := fixed' } e f) :
    Mapped k x e f := by
  apply h.mapped_before ?_ ?_ hmapped
  · intro a ha d _ _
    exact .inl ⟨a, ha, hdirs a ha d⟩
  · intro hu hpresent hframe
    rw [htables _ hu] at hpresent hframe
    exact ⟨hpresent, hframe⟩

variable {e : Word × Nat} {f : Word}

theorem withTable_mapped {addr : Nat} (hd : mmuPdIndex addr < 1022) (htable : HasTable x.state addr)
    (hmapped : Mapped k { x with state := withTable k addr x.state } e f) : Mapped k x e f := by
  obtain ⟨role', htabled⟩ := h.withTable_tabled hd htable
  apply h.mapped_before ?_ ?_ hmapped
  · intro a ha d hlow _
    rcases htabled.entry h hd ha (show d < 1023 by omega) with hsame | ⟨_, hzero⟩
    · exact .inl ⟨a, ha, hsame⟩
    · exact .inr hzero
  · intro hu hpresent hframe
    have hkept := htabled.mem_other h hd (g := e.1) (fun hdir => h.table_ne_dir hdir hu rfl)
      (by intro hrole; rw [hrole] at hu; exact hu) e.2
    simp only [hkept] at hpresent hframe
    exact ⟨hpresent, hframe⟩

theorem marked_mapped (hout : ∀ f ∈ L.frames, ¬ L.outside f) (hf : f ∈ L.frames) {t : Word}
    (ht : (role t).IsTable) {i addr : Nat} {paddr flag : Word}
    (hallowed : flag &&& mmuPageNoalloc ≠ 0#32 → IsFrame paddr ∧ L.outside paddr)
    {fixed' : Word → Nat → Prop}
    (hmapped : Mapped k
      { x with state := (marked t i addr paddr flag x.state).2, fixed := fixed' } e f) :
    Mapped k x e f := by
  apply h.mapped_before ?_ ?_ hmapped
  · intro a ha d _ _
    exact .inl ⟨a, ha, marked_mem_frame (h.table_ne_dir ha ht).symm d⟩
  · intro _ hpresent hframe
    simp only at hpresent hframe
    by_cases hand : e.1 = t ∧ e.2 = i
    · obtain ⟨rfl, rfl⟩ := hand
      cases hold : present (x.state.mem e.1 e.2) with
      | false =>
        exfalso
        by_cases hflag : flag &&& mmuPageNoalloc = 0#32
        · rw [marked_demand hold hflag, set_mem_same, not_present_ondemand] at hpresent
          exact Bool.noConfusion hpresent
        · obtain ⟨hpaddr, houtside⟩ := hallowed hflag
          rw [marked_fixed hold hflag, invlpg_mem, set_mem_same,
            frameOf_installed _ hpaddr] at hframe
          rw [hframe] at houtside
          exact hout f hf houtside
      | true =>
        refine ⟨rfl, ?_⟩
        by_cases hflag : flag &&& mmuPageNoalloc = 0#32
        · rw [marked_reprotected hold hflag, set_mem_same, frameOf_reprotected] at hframe
          exact hframe
        · rw [marked_refused hold hflag] at hframe
          exact hframe
    · rw [marked_mem_other hand] at hpresent hframe
      exact ⟨hpresent, hframe⟩

theorem unmapAt_mapped {addr : Nat} (hd : mmuPdIndex addr < 1022)
    (hpresent : present (x.state.mem (shown x.state) (mmuPdIndex addr)) = true) {flag : Word}
    (hallowed : flag &&& mmuMunmapNorelease = 0#32 →
      ∀ t i, slot x.state addr = some (t, i) → ¬ x.fixed t i) {fixed' : Word → Nat → Prop}
    (hmapped : Mapped k { x with state := unmapAt k addr flag x.state, fixed := fixed' } e f) :
    Mapped k x e f := by
  have hmem := h.unmapAt_mem hd hpresent flag
  have ht := h.table_role h.shown_mem hd hpresent
  have hoff : ∀ g j, (∀ b, role g ≠ .backing b) → (unmapAt k addr flag x.state).mem g j =
      if g = windowTable x.state addr ∧ j = mmuPtIndex addr then 0#32 else x.state.mem g j := by
    intro g j hg
    rw [hmem, if_neg]
    rintro ⟨hreleases, rfl, -⟩
    exact hg _ (h.poolPage_role (h.released hd hpresent hallowed hreleases).2)
  apply h.mapped_before ?_ ?_ hmapped
  · intro a ha d _ _
    refine .inl ⟨a, ha, (hoff a d ?_).trans (if_neg fun hand => h.table_ne_dir ha ht hand.1.symm)⟩
    intro b
    rw [h.named.dir ha]
    exact Role.noConfusion
  · intro hu hpte hframe
    simp only at hpte hframe
    have hkept := hoff e.1 e.2 (by intro b hrole; rw [hrole] at hu; exact hu)
    rw [hkept] at hpte hframe
    by_cases hand : e.1 = windowTable x.state addr ∧ e.2 = mmuPtIndex addr
    · rw [if_pos hand, not_present_zero] at hpte
      exact Bool.noConfusion hpte
    · rw [if_neg hand] at hpte hframe
      exact ⟨hpte, hframe⟩

/-- A page fault maps the page that the window has for its address, and no other. -/
theorem faultAt_mapped {addr : Nat} (hpos : 0 < x.state.framesIndex) (hd : mmuPdIndex addr < 1022)
    (hpresent : present (x.state.mem (shown x.state) (mmuPdIndex addr)) = true)
    (hne : slot x.state addr ≠ some e)
    (hmapped : Mapped k { x with state := faultAt k addr x.state } e f) :
    Mapped k x e f := by
  have hmem := putInto_mem k (shown x.state) addr (top k x.state)
    { x.state with framesIndex := x.state.framesIndex - 1 }
  have ht := h.table_role h.shown_mem hd hpresent
  have hpd : k.pd ∈ x.dirs k := List.mem_cons_self ..
  apply h.mapped_before ?_ ?_ hmapped
  · intro a ha d _ _
    left
    simp only [faultAt, hmem]
    by_cases hcopied : 512 ≤ mmuPdIndex addr ∧ a = k.pd ∧ d = mmuPdIndex addr
    · refine ⟨shown x.state, h.shown_mem, ?_⟩
      rw [if_pos hcopied, hcopied.2.2]
    · refine ⟨a, ha, ?_⟩
      rw [if_neg hcopied, if_neg (h.top_ne_dir hpos ha).symm,
        if_neg fun hand => h.table_ne_dir ha ht hand.1.symm]
  · intro hu hpte hframe
    have htop : e.1 ≠ top k x.state := by
      intro heq
      rw [heq, h.top_role hpos] at hu
      exact hu
    have hother : ¬ (e.1 = frameOf (x.state.mem (shown x.state) (mmuPdIndex addr)) ∧
        e.2 = mmuPtIndex addr) := by
      intro hand
      apply hne
      rw [h.window_slot hpresent]
      exact congrArg some (Prod.ext hand.1.symm hand.2.symm)
    simp only [faultAt, hmem] at hpte hframe
    rw [if_neg fun hand => h.table_ne_dir hpd hu hand.2.1, if_neg htop,
      if_neg hother] at hpte hframe
    exact ⟨hpte, hframe⟩

theorem faultAt_frame {addr : Nat} (hpos : 0 < x.state.framesIndex) (hd : mmuPdIndex addr < 1022)
    (hpresent : present (x.state.mem (shown x.state) (mmuPdIndex addr)) = true)
    (hslot : slot x.state addr = some e) :
    frameOf ((faultAt k addr x.state).mem e.1 e.2) = top k x.state := by
  have ht := h.table_role h.shown_mem hd hpresent
  have hpd : k.pd ∈ x.dirs k := List.mem_cons_self ..
  rw [h.window_slot hpresent] at hslot
  obtain rfl := Option.some.inj hslot
  have htop : windowTable x.state addr ≠ top k x.state := by
    intro heq
    unfold windowTable at heq
    rw [heq, h.top_role hpos] at ht
    exact ht
  refine (congrArg frameOf (putInto_mem k _ addr _ _ _ _)).trans ?_
  rw [if_neg fun hand => h.table_ne_dir hpd ht hand.2.1, if_neg htop, if_pos ⟨rfl, rfl⟩]
  exact frameOf_installed _ (L.isFrame _ (h.top_mem hpos))

theorem storeAt_mapped {addr : Nat} {w : Word} (hd : mmuPdIndex addr < 1022)
    (hdemand : ¬ x.fixed (Spaces.tableOf x.state x.state.cr3 addr) (mmuPtIndex addr))
    (hmapped : Mapped k { x with state := storeAt addr w x.state } e f) : Mapped k x e f := by
  have hkept : ∀ g, ¬ (role g).IsData → ∀ j, (storeAt addr w x.state).mem g j =
      x.state.mem g j := by
    intro g hg j
    unfold storeAt
    cases hplace : translate x.state addr with
    | none => rfl
    | some place =>
      apply set_mem_frame
      rintro rfl
      rw [h.stored_role hd hdemand hplace] at hg
      exact hg True.intro
  apply h.mapped_congr ?_ ?_ hmapped
  · intro a ha
    apply hkept
    rw [h.named.dir ha]
    exact id
  · intro u hu
    apply hkept
    intro hdata
    cases hrole : role u with
    | table o d => rw [hrole] at hdata; exact hdata
    | _ => rw [hrole] at hu; exact hu

theorem freed_mapped {g : Word} (hloose : role g = .loose)
    (hmapped : Mapped k { x with state := freed k g x.state } e f) : Mapped k x e f := by
  apply h.mapped_congr ?_ ?_ hmapped
  · intro a ha
    exact h.freed_dir hloose ha
  · intro u hu i
    apply h.freed_mem_other hloose
    intro b hrole
    rw [hrole] at hu
    exact hu

theorem cloned_mapped {dir : Word} (hdir : dir ∈ x.dirs k)
    (hpde : present (x.state.mem dir 959) = true) {g : Word} (hloose : role g = .loose)
    {clones' : List Word} (hclones : ∀ c ∈ clones', c ∈ x.clones ∨ c = g)
    (hmapped : Mapped k { x with
      state := cloned k (frameOf (x.state.mem dir 959)) g x.state, clones := clones' } e f) :
    Mapped k x e f := by
  have hpd : k.pd ∈ x.dirs k := List.mem_cons_self ..
  have hkept : ∀ a ∈ x.dirs k, ∀ d,
      (cloned k (frameOf (x.state.mem dir 959)) g x.state).mem a d = x.state.mem a d :=
    fun a ha d => window_dirs h hdir hpde rfl hloose ha d
  apply h.mapped_before ?_ ?_ hmapped
  · intro a ha d hd hpresent
    simp only at hpresent ⊢
    left
    have hcases : a ∈ x.dirs k ∨ a = g := by
      rcases List.mem_cons.1 ha with rfl | hclone
      · exact .inl hpd
      · exact (hclones a hclone).imp (List.mem_cons_of_mem _) id
    rcases hcases with hold | rfl
    · exact ⟨a, hold, hkept a hold d⟩
    · refine ⟨k.pd, hpd, ?_⟩
      rw [window_directory h hdir hpde rfl hloose, if_neg (by omega)] at hpresent ⊢
      split at hpresent
      · rename_i hkernel
        exact if_pos hkernel
      · rw [not_present_zero] at hpresent
        exact Bool.noConfusion hpresent
  · intro hu hpte hframe
    have hne : e.1 ≠ g := by
      intro heq
      rw [heq, hloose] at hu
      exact hu
    simp only [window_mem h hdir hpde rfl hloose hne] at hpte hframe
    split at hframe
    · rename_i hwindow
      rw [if_pos hwindow, not_present_zero] at hpte
      exact Bool.noConfusion hpte
    · rename_i hother
      rw [if_neg hother] at hpte
      exact ⟨hpte, hframe⟩

theorem cloneAt_mapped (hready : x.Ready .clone) (hmapped : Mapped k (x.after k .clone) e f) :
    Mapped k x e f := by
  by_cases hempty : x.state.framesIndex = 0
  · simp only [Spaces.after, cloneAt, if_pos hempty, Spaces.afterClone, if_true] at hmapped
    exact hmapped
  · have hpos : 0 < x.state.framesIndex := by omega
    have htable := hready hpos
    have hd : mmuPdIndex kaddrClondpd < 1022 := by decide
    obtain ⟨hpopped, hloose, role', htabled⟩ := h.popped_tabled hpos htable
    have hloose' := (htabled.kept _ (by rw [hloose]; simp)).trans hloose
    have hpde : present ((withTable k kaddrClondpd
        { x.state with framesIndex := x.state.framesIndex - 1 }).mem (shown x.state) 959) = true :=
      htabled.present_pde
    simp only [Spaces.after, cloneAt_of hempty rfl rfl rfl] at hmapped
    -- the frame in hand is popped and the window gets its page table before either branch
    apply hpopped.withTable_mapped hd htable
    split at hmapped
    · simp only [Spaces.afterClone, if_true] at hmapped
      exact htabled.roles.freed_mapped hloose' hmapped
    · apply htabled.roles.cloned_mapped htabled.mem_dirs hpde hloose' ?_ hmapped
      intro c hc
      simp only at hc
      split at hc
      · exact .inl hc
      · exact (List.mem_append.1 hc).imp id List.mem_singleton.1

/-- A step maps no frame of the pool behind a page, apart from the page of a page fault. -/
theorem mapped_after (hout : ∀ f ∈ L.frames, ¬ L.outside f) (hf : f ∈ L.frames) {op : Spaces.Op}
    (hready : x.Ready op) (hallowed : Spaces.Allowed k L.outside x op)
    (hnew : ∀ addr, op = .fault addr → slot x.state addr ≠ some e)
    (hmapped : Mapped k (x.after k op) e f) : Mapped k x e f := by
  cases op with
  | mark addr paddr flag =>
    have hd := Spaces.pdIndex_below hallowed.1
    obtain ⟨role', htabled⟩ := h.withTable_tabled hd hready
    have ht := htabled.roles.table_role htabled.mem_dirs hd htabled.present_pde
    apply h.withTable_mapped hd hready
    exact htabled.roles.marked_mapped hout hf ht hallowed.2 hmapped
  | unmap addr flag =>
    exact h.unmapAt_mapped (Spaces.pdIndex_below hallowed.1) hready hallowed.2 hmapped
  | fault addr =>
    obtain ⟨hpos, hd, hpresent, _⟩ := hready
    exact h.faultAt_mapped hpos hd hpresent (hnew addr rfl) hmapped
  | store addr w => exact h.storeAt_mapped (Spaces.pdIndex_below hallowed.1) hallowed.2 hmapped
  | clone => exact h.cloneAt_mapped hready hmapped
  | switch pd => exact hmapped

/-! ### What a page holds -/

theorem page_mem {op : Spaces.Op} (hready : x.Ready op) (hallowed : Spaces.Allowed k L.outside x op)
    (hquiet : ∀ addr w, op ≠ .store addr w) {t : Word} {i : Nat}
    (hpage : role f = .page t i) (j : Nat) :
    (x.after k op).state.mem f j = x.state.mem f j := by
  have hdir : ∀ a ∈ x.dirs k, f ≠ a := by
    rintro a ha rfl
    rw [h.named.dir ha] at hpage
    exact Role.noConfusion hpage
  have hnotTable : ∀ u, (role u).IsTable → f ≠ u := by
    rintro u hu rfl
    rw [hpage] at hu
    exact hu
  have hnotTop : 0 < x.state.framesIndex → f ≠ top k x.state := by
    rintro hpos rfl
    rw [h.top_role hpos] at hpage
    exact Role.noConfusion hpage
  cases op with
  | mark addr paddr flag =>
    have hd := Spaces.pdIndex_below hallowed.1
    obtain ⟨role', htabled⟩ := h.withTable_tabled hd hready
    have hpage' : role' f = .page t i := (htabled.kept f (by rw [hpage]; simp)).trans hpage
    have ht := htabled.roles.table_role htabled.mem_dirs hd htabled.present_pde
    refine Eq.trans (marked_mem_frame ?_ j)
      (htabled.mem_other h hd (fun ha => hdir f ha rfl) (by rw [hpage]; simp) j)
    rintro rfl
    simp only [hpage'] at ht
    exact ht
  | unmap addr flag =>
    have hd := Spaces.pdIndex_below hallowed.1
    refine (h.unmapAt_mem hd hready flag f j).trans ?_
    rw [if_neg, if_neg fun hand => hnotTable _ (h.table_role h.shown_mem hd hready) hand.1]
    rintro ⟨hreleases, rfl, -⟩
    rw [h.poolPage_role (h.released hd hready hallowed.2 hreleases).2] at hpage
    exact Role.noConfusion hpage
  | fault addr =>
    obtain ⟨hpos, hd, hpresent, _⟩ := hready
    refine (putInto_mem k _ addr _ _ f j).trans ?_
    rw [if_neg fun hand => hdir k.pd (List.mem_cons_self ..) hand.2.1, if_neg (hnotTop hpos),
      if_neg fun hand => hnotTable _ (h.table_role h.shown_mem hd hpresent) hand.1]
  | store addr w => exact absurd rfl (hquiet addr w)
  | switch pd => rfl
  | clone =>
    by_cases hempty : x.state.framesIndex = 0
    · simp only [Spaces.after, cloneAt, if_pos hempty, Spaces.afterClone]
    · have hpos : 0 < x.state.framesIndex := by omega
      have htable := hready hpos
      obtain ⟨hpopped, hloose, role', htabled⟩ := h.popped_tabled hpos htable
      have hloose' := (htabled.kept _ (by rw [hloose]; simp)).trans hloose
      have hpage₁ : Function.update role (top k x.state) Role.loose f = .page t i :=
        (Function.update_of_ne (hnotTop hpos) _ _).trans hpage
      have hpage' : role' f = .page t i := (htabled.kept f (by rw [hpage₁]; simp)).trans hpage₁
      have hpde : present ((withTable k kaddrClondpd
          { x.state with framesIndex := x.state.framesIndex - 1 }).mem (shown x.state) 959) =
        true :=
        htabled.present_pde
      have hkept := htabled.mem_other hpopped (by decide) (fun ha => hdir f ha rfl)
        (by rw [hpage₁]; simp) j
      simp only [Spaces.after, cloneAt_of hempty rfl rfl rfl, Spaces.afterClone]
      refine Eq.trans ?_ hkept
      split
      · exact htabled.roles.freed_mem_other hloose' (by intro b; rw [hpage']; simp) j
      · refine (window_mem htabled.roles htabled.mem_dirs hpde rfl hloose' (hnotTop hpos) j).trans
          ?_
        apply if_neg
        rintro ⟨rfl, -⟩
        have ht := htabled.roles.table_role htabled.mem_dirs (by decide) hpde
        rw [hpage'] at ht
        exact ht

theorem faultAt_zero {addr : Nat} (hpos : 0 < x.state.framesIndex) (j : Nat) :
    (faultAt k addr x.state).mem (top k x.state) j = 0#32 := by
  have hpd := h.top_ne_dir hpos (List.mem_cons_self ..)
  refine (putInto_mem k _ addr _ _ _ j).trans ?_
  rw [if_neg fun hand => hpd hand.2.1, if_pos rfl]

end Roles

/-! ### Programs that read and write -/

/-- The memory manager, and what the programs have seen of it. -/
structure Watched where
  spaces : Spaces
  /-- The bytes of a page (its table and index) that a program has written through it since `INT_0E`
  brought the page in. -/
  written : Word × Nat → Nat → Prop
  /-- The bytes that the programs have read. -/
  output : List (BitVec 8)

namespace Watched

/-- A step of the memory manager, or a program reads or writes a byte of a page that is present. -/
inductive Act where
  | call (op : Spaces.Op)
  | put (addr : Nat) (b : BitVec 8)
  | load (addr : Nat)

def IsStore : Spaces.Op → Prop
  | .store _ _ => True
  | _ => False

/-- What counts as written after a step: nothing of the page that a page fault brings in. -/
def writtenAfter (w : Watched) : Spaces.Op → Word × Nat → Nat → Prop
  | .fault addr => fun e o => slot w.spaces.state addr ≠ some e ∧ w.written e o
  | _ => w.written

/-- The store of a byte is that of the word with the byte in it. -/
inductive Step (k : Kernel) : Watched → Act → Watched → Prop where
  | call {w : Watched} {op : Spaces.Op} {y : Spaces} : ¬ IsStore op →
      Spaces.Step k (pageFaultFed k) w.spaces op y →
      Step k w (.call op) { w with spaces := y, written := w.writtenAfter op }
  | put {w : Watched} {addr : Nat} {b : BitVec 8} {place : Word × Nat} {y : Spaces} :
      translate w.spaces.state addr = some place →
      Spaces.Step k (pageFaultFed k) w.spaces
        (.store addr (withByte (w.spaces.state.mem place.1 place.2) (addr % 4) b)) y →
      Step k w (.put addr b) { w with
        spaces := y
        written := fun e o => w.written e o ∨
          e = pageOf w.spaces.state w.spaces.state.cr3 addr ∧ o = addr % 4096 }
  | load {w : Watched} {addr : Nat} {place : Word × Nat} :
      translate w.spaces.state addr = some place →
      Step k w (.load addr) { w with
        output := w.output ++ [byteAt w.spaces.state place.1 (addr % 4096)] }

/-- Programs may read wherever something is mapped, the page tables and the pool array included. -/
def Allowed (k : Kernel) (outside : Word → Prop) (w : Watched) : Act → Prop
  | .call op => Spaces.Allowed k outside w.spaces op
  | .put addr _ => ∀ v, Spaces.Allowed k outside w.spaces (.store addr v)
  | .load _ => True

def start (k : Kernel) (s : State) : Watched where
  spaces := Spaces.start k s
  written := fun _ _ => False
  output := []

end Watched

instance (k : Kernel) (s : State) (f : Word) : Decidable (InPool k s f) :=
  inferInstanceAs (Decidable (∃ i, i < s.framesIndex ∧ poolWord k s i = f))

/-- The state with other contents of the free frames. -/
def refilled (k : Kernel) (s : State) (contents : Memory) : State :=
  { s with mem := fun f j => if InPool k s f then contents f j else s.mem f j }

/-! ### A page reads as zeros until it is written -/

/-- What has not been written in a page since it was brought in is zero. -/
def Watched.Clean {k : Kernel} (L : Pool k) (w : Watched) : Prop :=
  ∀ e, ∀ f ∈ L.frames, Mapped k w.spaces e f → ∀ o < 4096, ¬ w.written e o →
    byteAt w.spaces.state f o = 0#8

/-- What the processor finds at an address below the pool array is behind the page of the active
directory. -/
theorem Roles.mapped_through {k : Kernel} {L : Pool k} {role : Word → Role} {x : Spaces}
    (h : Roles L role x) {addr : Nat} {place : Word × Nat} (hd : mmuPdIndex addr < 1022)
    (hplace : translate x.state addr = some place) :
    Mapped k x (pageOf x.state x.state.cr3 addr) place.1 := by
  have hwalk := (Mmu.translate_eq (s := x.state) (a := x.state.cr3)).symm.trans hplace
  split at hwalk
  · rename_i hpde
    split at hwalk
    · rename_i hpte
      obtain rfl := Option.some.inj hwalk
      exact ⟨x.state.cr3, h.dirsOk.cr3, _, hd, hpde, rfl, mmuPtIndex_lt addr, hpte, rfl⟩
    · exact absurd hwalk (by simp)
  · exact absurd hwalk (by simp)

theorem translate_word {s : State} {addr : Nat} {place : Word × Nat}
    (hplace : translate s addr = some place) : place.2 = addr % 4096 / 4 := by
  unfold translate at hplace
  simp only at hplace
  split at hplace
  · split at hplace
    · rw [← Option.some.inj hplace]
    · exact absurd hplace (by simp)
  · exact absurd hplace (by simp)

section Step
variable {k : Kernel} {L : Pool k} {role : Word → Role} {w w' : Watched} {act : Watched.Act}
  (hstep : Watched.Step k w act w') (hallowed : Watched.Allowed k L.outside w act)
  (h : Roles L role w.spaces)
include hstep hallowed h

theorem Watched.Step.roles : ∃ role', Roles L role' w'.spaces := by
  cases hstep with
  | call _ hcall => exact hcall.roles hallowed h
  | put _ hstore => exact hstore.roles (hallowed _) h
  | load _ => exact ⟨role, h⟩

theorem Watched.Step.clean (hout : ∀ f ∈ L.frames, ¬ L.outside f) (hclean : w.Clean L) :
    w'.Clean L := by
  intro e f hf hmapped o ho hnew
  cases hstep with
  | load _ => exact hclean e f hf hmapped o ho hnew
  | @call op _ hquiet hcall =>
    obtain ⟨hready, rfl⟩ := hcall.effect hallowed h
    have hkept : (∀ addr, op = .fault addr → slot w.spaces.state addr ≠ some e) → ¬ w.written e o →
        byteAt (w.spaces.after k op).state f o = 0#8 := by
      intro hother hold
      have hbefore := h.mapped_after hout hf hready hallowed hother hmapped
      have hpage := h.mapped_role hout hf hbefore
      rw [byteAt_congr (h.page_mem hready hallowed ?_ hpage)]
      · exact hclean e f hf hbefore o ho hold
      · rintro addr v rfl
        exact hquiet True.intro
    cases op with
    | fault addr =>
      by_cases hslot : slot w.spaces.state addr = some e
      · obtain ⟨hpos, hd, hpresent, _⟩ := hready
        obtain ⟨_, _, _, _, _, _, _, _, hframe⟩ := hmapped
        rw [← hframe, show (w.spaces.after k (.fault addr)).state =
          faultAt k addr w.spaces.state from rfl,
          h.faultAt_frame hpos hd hpresent hslot]
        exact byteAt_zero (h.faultAt_zero hpos) o
      · refine hkept ?_ fun hold => hnew ⟨hslot, hold⟩
        rintro _ heq
        obtain rfl := Spaces.Op.fault.inj heq
        exact hslot
    | _ => exact hkept (fun addr heq => nomatch heq) hnew
  | @put addr b place _ hplace hstore =>
    obtain ⟨hready, rfl⟩ := hstore.effect (hallowed _) h
    have hbefore := h.mapped_after hout hf hready (hallowed _) (fun addr heq => nomatch heq) hmapped
    have hold := hclean e f hf hbefore o ho fun hwritten => hnew (.inl hwritten)
    have hword := translate_word hplace
    have hthrough := h.mapped_through (Spaces.pdIndex_below (hallowed 0#32).1) hplace
    simp only [Spaces.after, storeAt, hplace]
    unfold byteAt at hold ⊢
    rw [set_mem]
    split
    · -- another byte of the word that the program writes
      rename_i hsame
      have hne : o % 4 ≠ addr % 4 := by
        intro heq
        apply hnew
        -- the frame is behind one page only, the one that the store goes through
        rw [← hsame.1] at hthrough
        have hpage := (h.mapped_role hout hf hbefore).symm.trans (h.mapped_role hout hf hthrough)
        obtain ⟨htable, hindex⟩ := Role.page.inj hpage
        exact .inr ⟨Prod.ext htable hindex, by omega⟩
      rw [byteOf_withByte_ne _ _ (Nat.mod_lt _ (by omega)) hne, ← hsame.1, ← hsame.2]
      exact hold
    · exact hold

end Step

/-- What a page fault brings in is a frame of zeros: a page, or a page table within `mmu_mark`. -/
theorem Roles.brings_zeros {k : Kernel} {L : Pool k} {role : Word → Role} {x : Spaces}
    (h : Roles L role x) {s s' : State} {addr depth : Nat} (hfault : Faulting k x s addr)
    (hr : pageFaultFed k depth addr s = some s') :
    ∃ t i, slot s addr = some (t, i) ∧ present (s'.mem t i) = true ∧
      ∀ j, s'.mem (frameOf (s'.mem t i)) j = 0#32 := by
  have hinstalls := h.installs_iff hfault (pageFaultFed_within k depth _ _ _ hr)
  cases hfault with
  | page hunmapped =>
    obtain ⟨hpos, _, _, _, rfl⟩ := h.fault_effect hunmapped hr
    obtain ⟨_, t, i, hslot, hpresent, hframe, _⟩ := hinstalls.2 hpos
    refine ⟨t, i, hslot, hpresent, ?_⟩
    rw [hframe]
    exact h.faultAt_zero hpos
  | @table dir addr hrec hd hzero =>
    have hfed : ¬ (depth = 0 ∨ x.state.framesIndex = 0) := by
      intro hnone
      rw [hrec.table_starved hd hnone] at hr
      exact absurd hr (by simp)
    have hpos : 0 < x.state.framesIndex := by omega
    obtain ⟨n, rfl⟩ : ∃ n, depth = n + 1 := ⟨depth - 1, by omega⟩
    obtain rfl := hrec.shown_eq
    have hdir := h.shown_mem
    have hmade := h.table_fault hdir hrec hd hpos feeds_mmuAllocFed n
    obtain rfl := Option.some.inj (hmade.symm.trans hr)
    obtain ⟨_, t, i, hslot, hpresent, hframe, _⟩ := hinstalls.2 hpos
    refine ⟨t, i, hslot, hpresent, ?_⟩
    intro j
    rw [hframe, h.top_tableMark hdir hpos, h.madeTable_mem hdir h.shown_last hd hpos,
      if_neg fun hand => h.top_ne_dir hpos hdir hand.1,
      if_neg fun hand => h.top_ne_dir hpos (List.mem_cons_self ..) hand.1, if_pos rfl]

/-! ### What the programs read does not depend on the free frames -/

/-- Two machines that have shown the same. -/
structure Watched.Alike {k : Kernel} (L : Pool k) (w w' : Watched) : Prop where
  roles : ∃ role, Roles L role w.spaces
  spaces : Mmu.Alike k w.spaces w'.spaces
  written : w'.written = w.written
  output : w'.output = w.output

namespace Watched.Alike
variable {k : Kernel} {L : Pool k} {w w' : Watched} (halike : w.Alike L w')
include halike

theorem translate_eq (addr : Nat) :
    translate w'.spaces.state addr = translate w.spaces.state addr := by
  obtain ⟨role, h⟩ := halike.roles
  exact h.translate_agree (fun f hf => h.inPool_idle hf) halike.spaces.state addr

theorem pageOf_eq (addr : Nat) : pageOf w'.spaces.state w'.spaces.state.cr3 addr =
    pageOf w.spaces.state w.spaces.state.cr3 addr := by
  obtain ⟨role, h⟩ := halike.roles
  have hdir := h.dir_off (fun f hf => h.inPool_idle hf) h.dirsOk.cr3
  unfold pageOf Spaces.tableOf
  rw [halike.spaces.state.cr3, halike.spaces.state.mem _ hdir]

variable (hout : ∀ f ∈ L.frames, ¬ L.outside f)
include hout

/-- No free frame is mapped, so the two have the same behind every address. -/
theorem place_mem {addr : Nat} {place : Word × Nat}
    (hplace : translate w.spaces.state addr = some place) (j : Nat) :
    w'.spaces.state.mem place.1 j = w.spaces.state.mem place.1 j := by
  obtain ⟨role, h⟩ := halike.roles
  apply halike.spaces.state.mem
  intro hfree
  have hidle := h.inPool_idle hfree
  have hcr3 := h.dirsOk.cr3
  have hwalk := (Mmu.translate_eq (s := w.spaces.state) (a := w.spaces.state.cr3)).symm.trans hplace
  split at hwalk
  · rename_i hpde
    split at hwalk
    · rename_i hpte
      rw [← Option.some.inj hwalk] at hidle
      exact h.idle_unmapped hout hidle hcr3 hpde hpte rfl
    · exact absurd hwalk (by simp)
  · exact absurd hwalk (by simp)

variable {v : Watched} {act : Act} (hallowed : Allowed k L.outside w act) (hstep : Step k w act v)
include hallowed hstep

theorem step : Allowed k L.outside w' act ∧ ∃ v', Step k w' act v' := by
  obtain ⟨role, h⟩ := halike.roles
  cases hstep with
  | call hquiet hcall =>
    obtain ⟨y', hcall'⟩ := halike.spaces.step h hallowed hcall
    exact ⟨halike.spaces.allowed h hallowed, _, .call hquiet hcall'⟩
  | put hplace hstore =>
    obtain ⟨y', hstore'⟩ := halike.spaces.step h (hallowed _) hstore
    rw [← halike.place_mem hout hplace] at hstore'
    exact ⟨fun v => halike.spaces.allowed h (hallowed v), _,
      .put ((halike.translate_eq _).trans hplace) hstore'⟩
  | load hplace => exact ⟨True.intro, _, .load ((halike.translate_eq _).trans hplace)⟩

theorem after {v' : Watched} (hstep' : Step k w' act v') : v.Alike L v' := by
  obtain ⟨role, h⟩ := halike.roles
  have hroles := hstep.roles hallowed h
  cases hstep with
  | @call op _ _ hcall =>
    have hready := (hcall.effect hallowed h).1
    cases hstep' with
    | call _ hcall' =>
      refine ⟨hroles, halike.spaces.after_step h hallowed hcall hcall', ?_, halike.output⟩
      cases op with
      | fault addr =>
        have hslot : slot w'.spaces.state addr = slot w.spaces.state addr :=
          halike.translate_eq (ptSlot addr)
        simp only [writtenAfter, hslot, halike.written]
      | _ => exact halike.written
  | put hplace hstore =>
    cases hstep' with
    | put hplace' hstore' =>
      rw [halike.translate_eq, hplace] at hplace'
      obtain rfl := Option.some.inj hplace'
      rw [halike.place_mem hout hplace] at hstore'
      refine ⟨hroles, halike.spaces.after_step h (hallowed _) hstore hstore', ?_, halike.output⟩
      simp only [halike.written, halike.pageOf_eq]
  | load hplace =>
    cases hstep' with
    | load hplace' =>
      rw [halike.translate_eq, hplace] at hplace'
      obtain rfl := Option.some.inj hplace'
      refine ⟨hroles, halike.spaces, halike.written, ?_⟩
      simp only [halike.output, byteAt_congr (halike.place_mem hout hplace)]

end Watched.Alike

/-! ### Runs -/

section Runs
variable {k : Kernel} {ram : Memory} {map : List Region} {depth : Nat} {s : State}

theorem start_alike {L : Pool k} {role : Word → Role} (h : Roles L role (Spaces.start k s))
    (c : Memory) : Alike k (Spaces.start k s) (Spaces.start k (refilled k s c)) := by
  have hpt : ∀ j, (refilled k s c).mem k.pt j = s.mem k.pt j := by
    intro j
    apply if_neg
    exact Roles.table_off (fun f (hf : InPool k s f) => h.inPool_idle hf)
      (by rw [h.named.pt]; exact True.intro)
  refine ⟨rfl, ?_, rfl, rfl, fun f hf j => if_neg hf⟩
  funext t i
  simp only [Spaces.start, hpt]

theorem refilled_alike {L : Pool k} {role : Word → Role} (h : Roles L role (Spaces.start k s))
    (c c' : Memory) : Alike k (Spaces.start k (refilled k s c))
    (Spaces.start k (refilled k s c')) := by
  have hfirst := start_alike h c
  have hsecond := start_alike h c'
  refine ⟨rfl, hsecond.fixed.trans hfirst.fixed.symm, rfl, rfl, ?_⟩
  intro f hf j
  have hfree : ¬ InPool k s f := by
    rintro ⟨i, hi, hword⟩
    apply hf
    refine ⟨i, hi, Eq.trans ?_ hword⟩
    exact h.poolWord_agree_off (fun g hg => h.inPool_idle hg) hfirst.state
      (Nat.lt_of_lt_of_le hi h.framesIndex_le)
  exact (if_neg hfree).trans (if_neg hfree).symm

theorem Filling.start_unmapped {pushed : List Word} {ptIndex : Nat}
    (hfilling : Filling k pushed ptIndex s)
    {L : Pool k} {role : Word → Role} (h : Roles L role (Spaces.start k s))
    (hout : ∀ f ∈ L.frames, ¬ L.outside f) {e : Word × Nat} {f : Word} (hf : f ∈ L.frames) :
    ¬ Mapped k (Spaces.start k s) e f := by
  rintro ⟨a, ha, d, hd, hpde, hentry, hi, hpte, hframe⟩
  obtain rfl : a = k.pd := List.mem_singleton.1 ha
  have hcases := hfilling.pde_present hpde
  obtain rfl : d = 960 := by omega
  have htable : frameOf ((Spaces.start k s).state.mem k.pd 960) = k.pt :=
    (congrArg frameOf (hfilling.directory 960)).trans (frameOf_static k.isFrame_pt)
  rw [← hentry, htable] at hpte hframe
  have houtside := (h.tables.fixedPages k.pt e.2 ⟨rfl, hi, hpte⟩).2.2.2
  rw [hframe] at houtside
  exact hout f hf houtside

/-- The bytes of a page are zero until a program has written to them through it, a page fault brings
in nothing but zeros, and with other contents of the free frames at the start the same run is there
and the programs read the same in it. -/
structure LeaksNothing (k : Kernel) (map : List Region) (s : State) (c : Memory)
    (acts : List Watched.Act) (w : Watched) : Prop where
  pages : ∀ a addr f, DemandPage k w.spaces a addr f → ∀ o < 4096,
    ¬ w.written (pageOf w.spaces.state a addr) o → byteAt w.spaces.state f o = 0#8
  faults : ∀ s₀ addr depth s', Faulting k w.spaces s₀ addr →
    pageFaultFed k depth addr s₀ = some s' →
      ∃ t i, slot s₀ addr = some (t, i) ∧ present (s'.mem t i) = true ∧
        ∀ j, s'.mem (frameOf (s'.mem t i)) j = 0#32
  replayed :
    ∃ w', Run (Guarded (Watched.Step k) (Watched.Allowed k fun f => f ∉ usableFrames k map))
    (Watched.start k (refilled k s c)) acts w'
  same : ∀ w', Run (Watched.Step k) (Watched.start k (refilled k s c)) acts w' →
    w'.output = w.output ∧ Alike k w.spaces w'.spaces

/-- Whatever the free frames hold at the start, runs that do not exhaust the pool leak nothing of
it. -/
theorem recycled_frames_leak_nothing (hdistinct : (usableFrames k map).Nodup)
    (hinit : mmuInit k (pageFault k depth) map (bootState k ram) = some s) (c c' : Memory)
    {acts : List Watched.Act} {w : Watched}
    (hrun : Run (Guarded (Watched.Step k) (Watched.Allowed k fun f => f ∉ usableFrames k map))
      (Watched.start k (refilled k s c)) acts w) : LeaksNothing k map s c' acts w := by
  obtain ⟨ptIndex, hfilling, hlow⟩ := mmuInit_filling hdistinct hinit
  have hpool : ∀ f ∈ usableFrames k map, PoolFrame k f := usableFrames_poolFrame
  have himage : ∀ f : Word, f.toNat < k.kernelEnd → f ∉ usableFrames k map := by
    intro f hbelow hf
    have habove := (hpool f hf).aboveImage
    unfold Kernel.kend at habove
    omega
  obtain ⟨role, hroles⟩ :=
    hfilling.start_roles hpool hdistinct hlow (fun f => f ∉ usableFrames k map) himage
  let L := hfilling.left hpool hdistinct hlow fun f => f ∉ usableFrames k map
  have hout : ∀ f ∈ L.frames, ¬ L.outside f := fun f hf hnot => hnot (L.put_of_mem hf)
  have hidle := fun f (hf : InPool k s f) => hroles.inPool_idle hf
  have hfirst := (start_alike hroles c).state
  have hstart : Roles L role (Spaces.start k (refilled k s c)) :=
    (start_alike hroles c).roles hroles
  have hclean : (Watched.start k (refilled k s c)).Clean L := by
    intro e f hf hmapped
    exfalso
    apply hfilling.start_unmapped hroles hout hf
    refine hroles.mapped_congr ?_ ?_ hmapped
    · intro a ha
      exact hfirst.mem a (hroles.dir_off hidle ha)
    · intro u hu
      exact hfirst.mem u (Roles.table_off hidle hu)
  have hrun' : (∃ role, Roles L role w.spaces) ∧ w.Clean L := by
    apply hrun.invariant (fun v => (∃ role, Roles L role v.spaces) ∧ v.Clean L) ?_
      ⟨⟨role, hstart⟩, hclean⟩
    rintro v act v' ⟨⟨role, h⟩, hv⟩ ⟨hallowed, hstep⟩
    exact ⟨hstep.roles hallowed h, hstep.clean hallowed h hout hv⟩
  have halike : (Watched.start k (refilled k s c)).Alike L (Watched.start k (refilled k s c')) :=
    ⟨⟨role, hstart⟩, refilled_alike hroles c c', rfl, rfl⟩
  obtain ⟨⟨role', h⟩, hzero⟩ := hrun'
  refine ⟨?_, fun s₀ addr depth s' hfault hr => h.brings_zeros hfault hr, ?_, ?_⟩
  · intro a addr f hpage o ho hnot
    have hrole := (h.page_role hpage).1
    exact hzero _ f (h.named.data f (by rw [hrole]; exact True.intro)) hpage.mapped o ho hnot
  · have hmatch : ∀ v act u v', v.Alike L v' →
        Guarded (Watched.Step k) (Watched.Allowed k L.outside) v act u →
        ∃ u', Guarded (Watched.Step k) (Watched.Allowed k L.outside) v' act u' ∧ u.Alike L u' := by
      rintro v act u v' hv ⟨hallowed, hstep⟩
      obtain ⟨hallowed', u', hstep'⟩ := hv.step hout hallowed hstep
      exact ⟨u', ⟨hallowed', hstep'⟩, hv.after hout hallowed hstep hstep'⟩
    obtain ⟨w', hrun', _⟩ := hrun.simulation (fun v v' => v.Alike L v') hmatch halike
    exact ⟨w', hrun'⟩
  · intro w' hother
    have hend := hrun.lockstep (fun v v' => v.Alike L v') ?_ hother halike
    · exact ⟨hend.output, hend.spaces⟩
    · rintro v act u v' u' hv ⟨hallowed, hstep⟩ hstep'
      exact hv.after hout hallowed hstep hstep'

end Runs

/-! ### The small machine -/

/-- The small machine with noise in its free frames. -/
def noisyStart : State := refilled smallKernel smallStart fun _ _ => 0xFFFFFFFF#32

def noisyMark : Bool × State :=
  (mmuMark (pageFaultFed smallKernel 4) 0x400000 0#32 mmuProtRw noisyStart).get (by decide +kernel)

def noisyFetched : State :=
  (pageFaultFed smallKernel 4 0x400005 noisyMark.2).get (by decide +kernel)

/-- A program writes to a page, which is released, mapped again and brought in again. -/
def noisyWritten : State :=
  noisyFetched.set 0x109000#32 1 (withByte (noisyFetched.mem 0x109000#32 1) 1 7#8)

def noisyUnmapped : State :=
  (unmapPage (pageFaultFed smallKernel 4) 0x400000 mmuMunmapRelease noisyWritten).get
    (by decide +kernel)

def noisyRemark : Bool × State :=
  (mmuMark (pageFaultFed smallKernel 4) 0x400000 0#32 mmuProtRw noisyUnmapped).get
    (by decide +kernel)

def noisyRefetched : State :=
  (pageFaultFed smallKernel 4 0x400005 noisyRemark.2).get (by decide +kernel)

def noisyActs : List Watched.Act :=
  [.call (.mark 0x400000 0#32 mmuProtRw), .call (.fault 0x400005), .put 0x400005 7#8,
    .call (.unmap 0x400000 mmuMunmapRelease), .call (.mark 0x400000 0#32 mmuProtRw),
    .call (.fault 0x400005), .load 0x400005]

theorem recycled_frames_leak_nothing_small : ∃ w, w.output = [0#8] ∧
    LeaksNothing smallKernel [smallRam 4] smallStart (fun _ _ => 0#32) noisyActs w := by
  have hinit : smallInit [smallRam 4] = some smallStart := (Option.some_get _).symm
  let handler := pageFaultFed smallKernel
  let outside : Word → Prop := fun f => f ∉ usableFrames smallKernel [smallRam 4]
  let x := Spaces.start smallKernel noisyStart
  let y := Spaces.afterUnmap { x with state := noisyWritten } 0x400000 noisyUnmapped
  have hflag : mmuProtRw &&& mmuPageNoalloc = 0#32 := by decide
  have hbelow : ∀ addr, addr / 4096 = 1024 → Spaces.Below smallKernel addr := by
    intro addr haddr
    unfold Spaces.Below imagePage pageLimit mmuFramepoolVma smallKernel
    omega
  have hnotFixed : ∀ t i, t ≠ smallKernel.pt → ¬ x.fixed t i := fun t i hne hfix => hne hfix.1
  have hplace : translate noisyFetched 0x400005 = some (0x109000#32, 1) := by decide +kernel
  have hplace' : translate noisyRefetched 0x400005 = some (0x109000#32, 1) := by decide +kernel
  have hmark : Spaces.Step smallKernel handler x (.mark 0x400000 0#32 mmuProtRw)
      { x with state := noisyMark.2 } := by
    rw [← afterMark_demand x 0x400000 noisyMark hflag]
    exact .mark (Option.some_get _).symm
  have hfault : Spaces.Step smallKernel handler { x with state := noisyMark.2 } (.fault 0x400005)
      { x with state := noisyFetched } := .fault (by decide +kernel) (Option.some_get _).symm
  have hput : Spaces.Step smallKernel handler { x with state := noisyFetched }
      (.store 0x400005 (withByte (noisyFetched.mem 0x109000#32 1) 1 7#8))
      { x with state := noisyWritten } :=
    @Spaces.Step.store smallKernel handler { x with state := noisyFetched } _ _
      (0x109000#32, 1) hplace
  have hunmap : Spaces.Step smallKernel handler { x with state := noisyWritten }
      (.unmap 0x400000 mmuMunmapRelease) y := .unmap (Option.some_get _).symm
  have hremark : Spaces.Step smallKernel handler y (.mark 0x400000 0#32 mmuProtRw)
      { y with state := noisyRemark.2 } := by
    rw [← afterMark_demand y 0x400000 noisyRemark hflag]
    exact .mark (Option.some_get _).symm
  have hrefault : Spaces.Step smallKernel handler { y with state := noisyRemark.2 }
      (.fault 0x400005) { y with state := noisyRefetched } :=
    .fault (by decide +kernel) (Option.some_get _).symm
  have hwritable : ∀ v, Spaces.Allowed smallKernel outside { x with state := noisyFetched }
      (.store 0x400005 v) := fun v => ⟨hbelow _ rfl, hnotFixed _ _ (by decide +kernel)⟩
  have hrelease : Spaces.Allowed smallKernel outside { x with state := noisyWritten }
      (.unmap 0x400000 mmuMunmapRelease) := by
    refine ⟨hbelow _ rfl, ?_⟩
    intro _ t i hslot
    have htable : slot noisyWritten 0x400000 = some (0x10A000#32, 0) := by decide +kernel
    simp only [htable] at hslot
    obtain ⟨rfl, rfl⟩ := Prod.mk.inj (Option.some.inj hslot)
    exact hnotFixed _ _ (by decide)
  have hmarkable : ∀ z, Spaces.Allowed smallKernel outside z (.mark 0x400000 0#32 mmuProtRw) :=
    fun z => demand_allowed (hbelow _ rfl)
  -- what the programs have written and read on the way
  let w₀ := Watched.start smallKernel noisyStart
  let w₁ : Watched := { w₀ with spaces := { x with state := noisyMark.2 } }
  let w₂ : Watched := { w₁ with
    spaces := { x with state := noisyFetched }
    written := w₁.writtenAfter (.fault 0x400005) }
  let w₃ : Watched := { w₂ with
    spaces := { x with state := noisyWritten }
    written := fun e o => w₂.written e o ∨
      e = pageOf noisyFetched noisyFetched.cr3 0x400005 ∧ o = 0x400005 % 4096 }
  let w₄ : Watched := { w₃ with spaces := y }
  let w₅ : Watched := { w₄ with spaces := { y with state := noisyRemark.2 } }
  let w₆ : Watched := { w₅ with
    spaces := { y with state := noisyRefetched }
    written := w₅.writtenAfter (.fault 0x400005) }
  have hwrite : Watched.Step smallKernel w₂ (.put 0x400005 7#8) w₃ :=
    @Watched.Step.put smallKernel w₂ 0x400005 7#8 (0x109000#32, 1) _ hplace hput
  have hrun : Run (Guarded (Watched.Step smallKernel) (Watched.Allowed smallKernel outside)) w₀
      noisyActs
        { w₆ with output := [] ++ [byteAt noisyRefetched 0x109000#32 (0x400005 % 4096)] } := by
    refine .cons (t := w₁) ⟨hmarkable x, .call id hmark⟩ (.cons (t := w₂) ⟨?_, .call id hfault⟩
      (.cons (t := w₃) ⟨hwritable, hwrite⟩ (.cons (t := w₄) ⟨hrelease, .call id hunmap⟩
        (.cons (t := w₅) ⟨hmarkable y, .call id hremark⟩ (.cons (t := w₆) ⟨?_, .call id hrefault⟩
          (.cons ⟨True.intro, .load hplace'⟩ (.nil _)))))))
    · exact (by simp : (0x400005 : Nat) < 2 ^ 32)
    · exact (by simp : (0x400005 : Nat) < 2 ^ 32)
  refine ⟨_, ?_, recycled_frames_leak_nothing (by decide +kernel) hinit (fun _ _ => 0xFFFFFFFF#32)
    (fun _ _ => 0#32) hrun⟩
  decide +kernel

/-! A frame in two regions of the memory map is in the pool twice, and comes to be behind two
pages. -/

def twiceMap : List Region := [smallRam 1, smallRam 1, ⟨0x108000, 4096, 1⟩]

def twiceStart : State := (smallInit twiceMap).get (by decide +kernel)

def twiceMarked : Bool × State :=
  (mmuMark (pageFaultFed smallKernel 4) 0x400000 0#32 mmuProtRw twiceStart).get (by decide +kernel)

def twiceBoth : Bool × State :=
  (mmuMark (pageFaultFed smallKernel 4) 0x401000 0#32 mmuProtRw twiceMarked.2).get
    (by decide +kernel)

def twiceFetched : State :=
  (pageFaultFed smallKernel 4 0x400005 twiceBoth.2).get (by decide +kernel)

def twiceShared : State :=
  (pageFaultFed smallKernel 4 0x401005 twiceFetched).get (by decide +kernel)

def twiceWritten : State :=
  twiceShared.set 0x107000#32 1 (withByte (twiceShared.mem 0x107000#32 1) 1 7#8)

def twiceActs : List Watched.Act :=
  [.call (.mark 0x400000 0#32 mmuProtRw), .call (.mark 0x401000 0#32 mmuProtRw),
    .call (.fault 0x400005), .call (.fault 0x401005), .put 0x400005 7#8, .load 0x401005]

/-- What a program writes to the one page is read from the other. -/
theorem shared_frame_leaks : smallInit twiceMap = some twiceStart ∧
    ∃ w, Run (Guarded (Watched.Step smallKernel)
        (Watched.Allowed smallKernel fun f => f ∉ usableFrames smallKernel twiceMap))
      (Watched.start smallKernel twiceStart) twiceActs w ∧ w.output = [7#8] ∧
      ¬ LeaksNothing smallKernel twiceMap twiceStart (fun _ _ => 0#32) twiceActs w := by
  let handler := pageFaultFed smallKernel
  let outside : Word → Prop := fun f => f ∉ usableFrames smallKernel twiceMap
  let x := Spaces.start smallKernel twiceStart
  have hflag : mmuProtRw &&& mmuPageNoalloc = 0#32 := by decide
  have hbelow : ∀ addr, addr / 4096 = 1024 ∨ addr / 4096 = 1025 →
      Spaces.Below smallKernel addr := by
    intro addr haddr
    unfold Spaces.Below imagePage pageLimit mmuFramepoolVma smallKernel
    omega
  have hplace : translate twiceShared 0x400005 = some (0x107000#32, 1) := by decide +kernel
  have hplace' : translate twiceWritten 0x401005 = some (0x107000#32, 1) := by decide +kernel
  have hmark : Spaces.Step smallKernel handler x (.mark 0x400000 0#32 mmuProtRw)
      { x with state := twiceMarked.2 } := by
    rw [← afterMark_demand x 0x400000 twiceMarked hflag]
    exact .mark (Option.some_get _).symm
  have hboth : Spaces.Step smallKernel handler { x with state := twiceMarked.2 }
      (.mark 0x401000 0#32 mmuProtRw) { x with state := twiceBoth.2 } := by
    rw [← afterMark_demand { x with state := twiceMarked.2 } 0x401000 twiceBoth hflag]
    exact .mark (Option.some_get _).symm
  have hfault : Spaces.Step smallKernel handler { x with state := twiceBoth.2 } (.fault 0x400005)
      { x with state := twiceFetched } := .fault (by decide +kernel) (Option.some_get _).symm
  have hfault' : Spaces.Step smallKernel handler { x with state := twiceFetched } (.fault 0x401005)
      { x with state := twiceShared } := .fault (by decide +kernel) (Option.some_get _).symm
  have hput : Spaces.Step smallKernel handler { x with state := twiceShared }
      (.store 0x400005 (withByte (twiceShared.mem 0x107000#32 1) 1 7#8))
      { x with state := twiceWritten } :=
    @Spaces.Step.store smallKernel handler { x with state := twiceShared } _ _
      (0x107000#32, 1) hplace
  have hwritable : ∀ v, Spaces.Allowed smallKernel outside { x with state := twiceShared }
      (.store 0x400005 v) := by
    refine fun v => ⟨hbelow _ (.inl rfl), fun hfix => ?_⟩
    exact absurd hfix.1 (by decide +kernel)
  have hmarkable : ∀ z addr, addr / 4096 = 1024 ∨ addr / 4096 = 1025 →
      Spaces.Allowed smallKernel outside z (.mark addr 0#32 mmuProtRw) :=
    fun z addr haddr => demand_allowed (hbelow addr haddr)
  -- what the programs have written and read on the way
  let w₀ := Watched.start smallKernel twiceStart
  let w₁ : Watched := { w₀ with spaces := { x with state := twiceMarked.2 } }
  let w₂ : Watched := { w₁ with spaces := { x with state := twiceBoth.2 } }
  let w₃ : Watched := { w₂ with
    spaces := { x with state := twiceFetched }
    written := w₂.writtenAfter (.fault 0x400005) }
  let w₄ : Watched := { w₃ with
    spaces := { x with state := twiceShared }
    written := w₃.writtenAfter (.fault 0x401005) }
  let w₅ : Watched := { w₄ with
    spaces := { x with state := twiceWritten }
    written := fun e o => w₄.written e o ∨
      e = pageOf twiceShared twiceShared.cr3 0x400005 ∧ o = 0x400005 % 4096 }
  have hwrite : Watched.Step smallKernel w₄ (.put 0x400005 7#8) w₅ :=
    @Watched.Step.put smallKernel w₄ 0x400005 7#8 (0x107000#32, 1) _ hplace hput
  have hrun : Run (Guarded (Watched.Step smallKernel) (Watched.Allowed smallKernel outside)) w₀
      twiceActs
        { w₅ with output := [] ++ [byteAt twiceWritten 0x107000#32 (0x401005 % 4096)] } := by
    refine .cons (t := w₁) ⟨hmarkable x _ (.inl rfl), .call id hmark⟩
      (.cons (t := w₂) ⟨hmarkable { x with state := twiceMarked.2 } _ (.inr rfl), .call id hboth⟩
        (.cons (t := w₃) ⟨?_, .call id hfault⟩ (.cons (t := w₄) ⟨?_, .call id hfault'⟩
          (.cons (t := w₅) ⟨hwritable, hwrite⟩ (.cons ⟨True.intro, .load hplace'⟩ (.nil _))))))
    · exact (by simp : (0x400005 : Nat) < 2 ^ 32)
    · exact (by simp : (0x401005 : Nat) < 2 ^ 32)
  refine ⟨(Option.some_get _).symm, _, hrun, by decide +kernel, ?_⟩
  intro hnothing
  have hpage : DemandPage smallKernel { x with state := twiceWritten } 0x101000#32 0x401005
      0x107000#32 := by
    refine ⟨List.mem_cons_self .., by decide, by decide +kernel, by decide +kernel, ?_,
      by decide +kernel⟩
    exact fun hfix => absurd hfix.1 (by decide +kernel)
  have hzero := hnothing.pages 0x101000#32 0x401005 0x107000#32 hpage 5 (by omega) ?_
  · exact absurd hzero (by decide +kernel)
  · rintro (⟨_, _, hnever⟩ | ⟨hsame, _⟩)
    · exact hnever
    · exact absurd hsame (by decide +kernel)

end OsdevCourse.Mmu
