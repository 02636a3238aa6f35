import OsdevCourse.Handlers
import OsdevCourse.MmuRefusal

/-!
# What page faults take from the pool

A page fault that finds a frame takes one at least, and gives none back. So a part of the kernel
after which the pool is as large as before has met no page fault, and a page directory that has
been cloned has made the pool smaller.
-/

namespace OsdevCourse.Mmu

set_option autoImplicit false

open PageEntry
open Handlers (halting Tame Frugal)

/-- The handler takes a frame at least. -/
def Spends (h : Fault) : Prop := ∀ addr s s', h addr s = some s' → s'.framesIndex < s.framesIndex

theorem halting_spends : Spends halting := fun _ _ _ hs => absurd hs (by simp [halting])

section Spends
variable {h : Fault} (hh : Spends h)
include hh

theorem access_tame (addr : Nat) (s : State) :
    Tame h s.framesIndex (fun r => r.2.framesIndex) fun f => access f addr s := by
  unfold access
  cases translate s addr with
  | some place => exact .pure rfl
  | none =>
    refine Tame.bind (Tame.call hh addr s) ?_
    intro s'
    refine Tame.bind (n := fun _ => s'.framesIndex) (.plain fun _ _ => rfl) ?_
    intro place
    exact .pure rfl

theorem readWord_tame (addr : Nat) (s : State) :
    Tame h s.framesIndex (fun r => r.2.framesIndex) fun f => readWord f addr s :=
  Tame.bind (access_tame hh addr s) fun _ => .pure rfl

theorem writeWord_tame (addr : Nat) (w : Word) (s : State) :
    Tame h s.framesIndex State.framesIndex fun f => writeWord f addr w s :=
  Tame.bind (access_tame hh addr s) fun _ => .pure rfl

theorem markPte_tame (addr : Nat) (paddr flag : Word) (s : State) :
    Tame h s.framesIndex (fun r => r.2.framesIndex) fun f => markPte f addr paddr flag s := by
  refine Tame.bind (readWord_tame hh _ s) ?_
  intro r
  refine Tame.ite ?_ (Tame.ite ?_ (.pure rfl))
  · exact Tame.bind (writeWord_tame hh _ _ _) fun _ => .ite (.pure rfl) (.pure rfl)
  · refine Tame.bind (readWord_tame hh _ _) ?_
    intro r'
    exact Tame.bind (writeWord_tame hh _ _ _) fun _ => .pure rfl

theorem mmuMark_tame (addr : Nat) (paddr flag : Word) (s : State) :
    Tame h s.framesIndex (fun r => r.2.framesIndex) fun f => mmuMark f addr paddr flag s := by
  refine Tame.bind (readWord_tame hh _ s) ?_
  intro r
  refine Tame.ite (Tame.bind (writeWord_tame hh _ _ _) ?_) (Tame.bind (.pure rfl) ?_)
  · exact fun s' => markPte_tame hh addr paddr flag s'
  · exact fun s' => markPte_tame hh addr paddr flag s'

theorem markPages_tame (n addr : Nat) (paddr flag : Word) (s : State) :
    Tame h s.framesIndex (fun r => r.2.framesIndex) fun f => markPages f n addr paddr flag s := by
  induction n generalizing addr paddr s with
  | zero => exact .pure rfl
  | succ n ih =>
    refine Tame.bind (mmuMark_tame hh addr paddr flag s) ?_
    intro r
    exact .ite (ih _ _ _) (.pure rfl)

theorem mmuMmap_tame (mem : Nat) (paddr : Word) (size : Nat) (flag : Word) (s : State) :
    Tame h s.framesIndex (fun r => r.2.framesIndex) fun f => mmuMmap f mem paddr size flag s := by
  unfold mmuMmap
  cases pageCount size with
  | some n => exact markPages_tame hh n mem paddr flag s
  | none =>
    refine Tame.bind (markPages_tame hh _ mem paddr flag s) ?_
    intro r
    exact .ite (.plain fun _ hr => absurd hr (by simp)) (.pure rfl)

theorem unmapPage_tame {flag : Word} (hflag : flag &&& mmuMunmapNorelease ≠ 0#32) (addr : Nat)
    (s : State) : Tame h s.framesIndex State.framesIndex fun f => unmapPage f addr flag s := by
  refine Tame.bind (readWord_tame hh _ s) ?_
  intro r
  refine Tame.bind (writeWord_tame hh _ _ _) ?_
  intro s'
  simp only [hflag, false_and, and_false, if_false]
  exact .pure rfl

theorem mmuMunmap_tame {flag : Word} (hflag : flag &&& mmuMunmapNorelease ≠ 0#32) (mem size : Nat)
    (s : State) :
    Tame h s.framesIndex (fun r => r.2.framesIndex) fun f => mmuMunmap f mem size flag s := by
  have hpages : ∀ n addr s, Tame h s.framesIndex State.framesIndex
      fun f => unmapPages f n addr flag s := by
    intro n
    induction n with
    | zero => exact fun _ _ => .pure rfl
    | succ n ih => exact fun addr s => Tame.bind (unmapPage_tame hh hflag addr s) fun _ => ih _ _
  refine Tame.bind (n := fun _ => s.framesIndex) (.plain fun _ _ => rfl) ?_
  intro n
  exact Tame.bind (hpages n mem s) fun _ => .pure rfl

theorem mmuAllocFed_lt {s : State} {r : Word × State} (hr : mmuAllocFed h s = some r) :
    r.2.framesIndex < s.framesIndex := by
  unfold mmuAllocFed at hr
  split at hr
  · rename_i hpos
    unfold mmuAlloc at hr
    rw [if_pos hpos] at hr
    have hle : r.2.framesIndex ≤ s.framesIndex - 1 := (readWord_tame hh _ _).le hr
    omega
  · exact absurd hr (by simp)

end Spends

/-- A page fault that does not meet an empty pool takes a frame for its page. -/
theorem pageFaultFed_spends (k : Kernel) (depth : Nat) : Spends (pageFaultFed k depth) := by
  induction depth with
  | zero => exact fun _ _ _ hr => absurd hr (by simp [pageFaultFed, int0E])
  | succ depth ih =>
    intro addr s s' hr
    unfold pageFaultFed int0E at hr
    simp only [Nat.zero_mod, if_true, Option.bind_eq_bind, Option.bind_eq_some_iff] at hr
    obtain ⟨⟨pte, s₁⟩, hread, hr⟩ := hr
    have hle₁ : s₁.framesIndex ≤ s.framesIndex := (readWord_tame ih _ _).le hread
    simp only at hr
    split at hr
    · exact absurd hr (by simp)
    · simp only [Option.bind_eq_some_iff] at hr
      obtain ⟨⟨page, s₂⟩, halloc, ⟨pte', s₃⟩, hread', s₄, hwrite, ⟨place, s₅⟩, haccess, hr⟩ := hr
      have hlt : s₂.framesIndex < s₁.framesIndex := mmuAllocFed_lt ih halloc
      have hle₃ : s₃.framesIndex ≤ s₂.framesIndex := (readWord_tame ih _ _).le hread'
      have hle₄ : s₄.framesIndex ≤ s₃.framesIndex := (writeWord_tame ih _ _ _).le hwrite
      have hle₅ : s₅.framesIndex ≤ s₄.framesIndex := (access_tame ih _ _).le haccess
      simp only at hr
      split at hr
      · simp only [Option.bind_eq_some_iff, Option.some.injEq] at hr
        obtain ⟨⟨pde, s₆⟩, hslot, hr⟩ := hr
        have hle₆ : s₆.framesIndex ≤ s₅.framesIndex := (readWord_tame ih _ _).le hslot
        have heq : s'.framesIndex = s₆.framesIndex := by
          rw [← hr]
          rfl
        omega
      · have heq : s'.framesIndex = s₅.framesIndex := by
          rw [← Option.some.inj hr]
          rfl
        omega

theorem norelease_set : mmuMunmapNorelease &&& mmuMunmapNorelease ≠ 0#32 := by decide

/-- A page directory takes a frame; where there is none, the pool is as it was and no page fault
was met, or a page fault has made it smaller. -/
theorem mmuClonePagedir_cases {h : Fault} (hh : Spends h) {k : Kernel} {s : State}
    {r : Word × State} (hr : mmuClonePagedir h k s = some r) :
    r.2.framesIndex < s.framesIndex ∨
      r.1 = 0#32 ∧ r.2.framesIndex = s.framesIndex ∧ mmuClonePagedir halting k s = some r := by
  rcases Nat.eq_zero_or_pos s.framesIndex with hzero | hpos
  · unfold mmuClonePagedir at hr ⊢
    simp only [mmuAlloc_empty hzero, Option.bind_eq_bind, Option.bind_some, if_true,
      Option.some.injEq] at hr ⊢
    rw [← hr]
    exact .inr ⟨rfl, rfl, rfl⟩
  · have halloc : ∀ f, mmuAlloc f s =
        readWord f (framesVma (s.framesIndex - 1)) { s with framesIndex := s.framesIndex - 1 } :=
      fun f => if_pos hpos
    unfold mmuClonePagedir at hr ⊢
    simp only [halloc, Option.bind_eq_bind, Option.bind_eq_some_iff] at hr ⊢
    obtain ⟨⟨clonepd, s₁⟩, hread, hr⟩ := hr
    have hread' := readWord_tame hh (framesVma (s.framesIndex - 1))
      { s with framesIndex := s.framesIndex - 1 }
    have hle₁ : s₁.framesIndex ≤ s.framesIndex - 1 := hread'.le hread
    simp only at hr
    split at hr
    · rw [← Option.some.inj hr]
      left
      simp only
      omega
    · rename_i hne
      simp only [Option.bind_eq_some_iff] at hr
      obtain ⟨⟨ok, s₂⟩, hmap, hr⟩ := hr
      have hmap' := mmuMmap_tame hh kaddrClondpd clonepd 4096 mmuPageNoalloc s₁
      have hle₂ : s₂.framesIndex ≤ s₁.framesIndex := hmap'.le hmap
      cases ok with
      | true =>
        left
        simp only [if_true, Option.bind_eq_some_iff] at hr
        obtain ⟨⟨place, s₃⟩, hfirst, ⟨place', s₄⟩, hsecond, s₅, hwrite, ⟨done, s₆⟩, hunmap, hr⟩ :=
          hr
        have hle₃ := (access_tame hh _ _).le hfirst
        have hle₄ := (access_tame hh _ _).le hsecond
        have hle₅ := (writeWord_tame hh _ _ _).le hwrite
        have hle₆ := (mmuMunmap_tame hh norelease_set _ _ _).le hunmap
        simp only [zero_framesIndex, copyFrom_framesIndex] at hle₃ hle₄ hle₅ hle₆
        rw [← Option.some.inj hr]
        simp only
        omega
      | false =>
        simp only [Bool.false_eq_true, if_false, mmuFree, Option.bind_eq_bind,
          Option.bind_eq_some_iff, Option.some.injEq] at hr
        obtain ⟨s₄, ⟨s₃, hwrite, hindex⟩, hr⟩ := hr
        have hwrite' := writeWord_tame hh (framesVma s₂.framesIndex) clonepd s₂
        have hle₃ : s₃.framesIndex ≤ s₂.framesIndex := hwrite'.le hwrite
        have heq : r.2.framesIndex = s₃.framesIndex + 1 := by
          rw [← hr, ← hindex]
        rcases Nat.lt_or_ge r.2.framesIndex s.framesIndex with hlt | hge
        · exact .inl hlt
        · -- No frame is missing, so no fault was met on the way.
          right
          have hread₀ := hread'.not_called hread (by simp only; omega)
          have hmap₀ := hmap'.not_called hmap (by simp only; omega)
          have hwrite₀ := hwrite'.not_called hwrite (by omega)
          refine ⟨by rw [← hr], by omega, (clonepd, s₁), hread₀, ?_⟩
          simp only [if_neg hne, Option.bind_eq_some_iff]
          refine ⟨(false, s₂), hmap₀, ?_⟩
          simp only [Bool.false_eq_true, if_false, mmuFree, Option.bind_eq_bind,
            Option.bind_eq_some_iff, Option.some.injEq]
          exact ⟨s₄, ⟨s₃, hwrite₀, hindex⟩, hr⟩

theorem mmuClonePagedir_frugal {h : Fault} (hh : Spends h) (k : Kernel) (s : State) :
    Frugal h s.framesIndex (fun r => r.2.framesIndex) fun f => mmuClonePagedir f k s := by
  refine ⟨fun _ hr => mmuClonePagedir_within (fun _ _ _ hs => absurd hs (by simp [halting])) hr,
    fun _ hr => ?_⟩
  rcases mmuClonePagedir_cases hh hr with hlt | ⟨_, hindex, hsame⟩
  · exact .inl hlt
  · exact .inr ⟨hindex, hsame⟩

/-! ### Without page faults -/

/-- The pool and the pages that are present are as they were. -/
structure Kept (k : Kernel) (s s' : State) : Prop where
  index : s'.framesIndex = s.framesIndex
  words : ∀ i < s.framesIndex, poolWord k s' i = poolWord k s i
  entries : ∀ addr, present (entry s' addr) = present (entry s addr)

theorem Kept.refl (k : Kernel) (s : State) : Kept k s s := ⟨rfl, fun _ _ => rfl, fun _ => rfl⟩

theorem Kept.trans {k : Kernel} {s s₁ s' : State} (h : Kept k s s₁) (h' : Kept k s₁ s') :
    Kept k s s' := by
  refine ⟨h'.index.trans h.index, ?_, fun addr => (h'.entries addr).trans (h.entries addr)⟩
  intro i hi
  rw [h'.words i (h.index ▸ hi), h.words i hi]

/-- The frames of the pool, the top last. -/
def pool (k : Kernel) (s : State) : List Word := (List.range s.framesIndex).map (poolWord k s)

theorem Kept.pool {k : Kernel} {s s' : State} (h : Kept k s s') : pool k s' = pool k s := by
  unfold Mmu.pool
  rw [h.index]
  apply List.map_congr_left
  intro i hi
  exact h.words i (List.mem_range.1 hi)

theorem present_entry_iff {s : State} {addr : Nat} :
    present (entry s addr) = true ↔ ∃ place, translate s addr = some place := by
  constructor
  · intro hpresent
    have hpde := table_of_entry hpresent
    rw [entry_present hpde] at hpresent
    exact ⟨_, translate_eq_some hpde hpresent⟩
  · rintro ⟨place, hplace⟩
    unfold translate at hplace
    simp only at hplace
    split at hplace
    · rename_i hpde
      rw [entry_present hpde]
      split at hplace
      · assumption
      · exact absurd hplace (by simp)
    · exact absurd hplace (by simp)

theorem access_halting {s : State} {addr : Nat} {r : (Word × Nat) × State}
    (hr : access halting addr s = some r) : r.2 = s ∧ present (entry s addr) = true := by
  unfold access at hr
  cases htranslate : translate s addr with
  | none =>
    rw [htranslate] at hr
    exact absurd hr (by simp [halting])
  | some place =>
    rw [htranslate] at hr
    rw [← Option.some.inj hr]
    exact ⟨rfl, present_entry_iff.2 ⟨place, htranslate⟩⟩

theorem access_present {s : State} {addr : Nat} (h : present (entry s addr) = true)
    (fault : Fault) : ∃ place, access fault addr s = some (place, s) := by
  obtain ⟨place, hplace⟩ := present_entry_iff.1 h
  exact ⟨place, access_of_translate hplace⟩

namespace ActiveSpace
variable {k : Kernel} {role : Word → Role} {s : State} (h : ActiveSpace k role s)
include h

theorem congr {s' : State} (hmem : s'.mem = s.mem) (hcr3 : s'.cr3 = s.cr3)
    (hindex : s'.framesIndex = s.framesIndex) : ActiveSpace k role s' ∧ Kept k s s' := by
  obtain ⟨mem, cr3, framesIndex, trace⟩ := s'
  simp only at hmem hcr3 hindex
  subst hmem hcr3 hindex
  exact ⟨⟨h.self, h.kernel, h.tables, h.poolPresent, h.poolEntry, h.backing, h.slotPage,
    h.slotFrame, h.index⟩, rfl, fun _ _ => rfl, fun _ => rfl⟩

theorem pop : ActiveSpace k role { s with framesIndex := s.framesIndex - 1 } := by
  have hle := h.index
  refine ⟨h.self, h.kernel, h.tables, h.poolPresent, h.poolEntry, h.backing, ?_, ?_, ?_⟩
  · exact fun i hi => h.slotPage i (by simp only at hi; omega)
  · exact fun i hi => h.slotFrame i (by simp only at hi; omega)
  · simp only
    omega

theorem table_unaided {addr : Nat} {paddr flag : Word} {r : Bool × State}
    (hr : mmuMark halting addr paddr flag s = some r) :
    present (s.mem s.cr3 (mmuPdIndex addr)) = true := by
  cases hpde : present (s.mem s.cr3 (mmuPdIndex addr)) with
  | true => rfl
  | false =>
    obtain ⟨hspace, _, _, habsent, _⟩ := h.demanded hpde
    rw [hspace.self.entry_ptSlot] at habsent
    have hunmapped := translate_ptSlot_absent hspace.self habsent
    rw [h.self.mmuMark_eq] at hr
    unfold markPte readWord access at hr
    simp only [hunmapped, halting, Option.bind_eq_bind, Option.bind_none] at hr
    exact absurd hr (by simp)

theorem mark_kept {addr : Nat} {paddr flag : Word} (hflag : flag &&& mmuPageNoalloc = 0#32)
    {r : Bool × State} (hr : mmuMark halting addr paddr flag s = some r) :
    ActiveSpace k role r.2 ∧ Kept k s r.2 := by
  have hpde := h.table_unaided hr
  obtain ⟨w, hmark, _, hpresent, hframe⟩ := h.markPte_present hpde hflag halting paddr
  rw [mmuMark_present halting paddr flag h.self hpde, ← markPte_eq halting paddr flag h.self hpde,
    hmark, Option.some.injEq] at hr
  obtain ⟨hspace, hentries⟩ :=
    h.set_entry hpde hpresent fun hnew => hframe (hpresent.symm.trans hnew)
  rw [← hr]
  refine ⟨hspace, rfl, fun i hi => h.set_entry_word hpde hframe hi, ?_⟩
  intro other
  simp only [hentries]
  split
  · rename_i hsame
    rw [entry_samePage hsame, hpresent]
  · rfl

end ActiveSpace

theorem ActiveSpace.markPages_kept {k : Kernel} {role : Word → Role} {flag : Word}
    (hflag : flag &&& mmuPageNoalloc = 0#32) {n : Nat} {s : State} (h : ActiveSpace k role s)
    {addr : Nat} {paddr : Word} {r : Bool × State}
    (hr : Mmu.markPages halting n addr paddr flag s = some r) :
    ActiveSpace k role r.2 ∧ Kept k s r.2 := by
  induction n generalizing s addr paddr with
  | zero =>
    rw [← Option.some.inj hr]
    exact ⟨h, .refl k s⟩
  | succ n ih =>
    simp only [Mmu.markPages, Option.bind_eq_bind, Option.bind_eq_some_iff] at hr
    obtain ⟨⟨ok, s₁⟩, hmark, hr⟩ := hr
    obtain ⟨h₁, hkept⟩ := h.mark_kept hflag hmark
    cases ok with
    | false =>
      rw [← Option.some.inj hr]
      exact ⟨h₁, hkept⟩
    | true =>
      obtain ⟨h', hkept'⟩ := ih h₁ hr
      exact ⟨h', hkept.trans hkept'⟩

theorem ActiveSpace.mmap_kept {k : Kernel} {role : Word → Role} {flag : Word}
    (hflag : flag &&& mmuPageNoalloc = 0#32) {s : State} (h : ActiveSpace k role s)
    {mem size : Nat} {paddr : Word} {r : Bool × State}
    (hr : mmuMmap halting mem paddr size flag s = some r) :
    ActiveSpace k role r.2 ∧ Kept k s r.2 := by
  unfold mmuMmap at hr
  cases hcount : pageCount size with
  | some n =>
    rw [hcount] at hr
    exact h.markPages_kept hflag hr
  | none =>
    rw [hcount] at hr
    simp only [Option.bind_eq_bind, Option.bind_eq_some_iff] at hr
    obtain ⟨⟨ok, s₁⟩, hmarks, hr⟩ := hr
    have hkept := h.markPages_kept hflag hmarks
    cases ok with
    | true => exact absurd hr (by simp)
    | false =>
      rw [← Option.some.inj hr]
      exact hkept

theorem mapAll_steady {f g : Fault} (hfg : Within f g) (ms : List Kmalloc.Mapping) (s : State) :
    Handlers.Steady f g fun h => mapAll h ms s := by
  induction ms generalizing s with
  | nil => exact .plain _
  | cons m ms ih => exact .bind (fun _ hr => mmuMmap_within hfg hr) fun r => ih r.2

theorem mapAll_tame {h : Fault} (hh : Spends h) (ms : List Kmalloc.Mapping) (s : State) :
    Tame h s.framesIndex State.framesIndex fun f => mapAll f ms s := by
  induction ms generalizing s with
  | nil => exact .pure rfl
  | cons m ms ih => exact Tame.bind (mmuMmap_tame hh _ _ _ _ s) fun r => ih r.2

theorem ActiveSpace.mapAll_kept {k : Kernel} {role : Word → Role} {ms : List Kmalloc.Mapping}
    (hflag : ∀ m ∈ ms, BitVec.ofNat 32 m.flag &&& mmuPageNoalloc = 0#32) {s s' : State}
    (h : ActiveSpace k role s) (hr : Mmu.mapAll halting ms s = some s') :
    ActiveSpace k role s' ∧ Kept k s s' := by
  induction ms generalizing s with
  | nil =>
    rw [← Option.some.inj hr]
    exact ⟨h, .refl k s⟩
  | cons m ms ih =>
    simp only [Mmu.mapAll, Option.bind_eq_bind, Option.bind_eq_some_iff] at hr
    obtain ⟨⟨ok, s₁⟩, hmap, hr⟩ := hr
    obtain ⟨h₁, hkept⟩ := h.mmap_kept (hflag m List.mem_cons_self) hmap
    obtain ⟨h', hkept'⟩ := ih (fun m' hm' => hflag m' (List.mem_cons_of_mem m hm')) h₁ hr
    exact ⟨h', hkept.trans hkept'⟩

/-! ### A page directory that is not to be had -/

/-- The pool is empty, or something is mapped in the window for a new directory. -/
def CloneRefused (s : State) : Prop :=
  s.framesIndex = 0 ∨ present (entry s kaddrClondpd) = true

instance (s : State) : Decidable (CloneRefused s) := inferInstanceAs (Decidable (_ ∨ _))

theorem noalloc_set : mmuPageNoalloc &&& mmuPageNoalloc ≠ 0#32 := by decide

theorem ActiveSpace.clone_refused {k : Kernel} {role : Word → Role} {s : State}
    (h : ActiveSpace k role s) (hpool : 0#32 ∉ pool k s) (hrefused : CloneRefused s)
    (fault : Fault) :
    ∃ s', mmuClonePagedir fault k s = some (0#32, s') ∧ ActiveSpace k role s' ∧ Kept k s s' := by
  rcases Nat.eq_zero_or_pos s.framesIndex with hzero | hpos
  · refine ⟨s, ?_, h, .refl k s⟩
    unfold mmuClonePagedir
    simp only [mmuAlloc_empty hzero, Option.bind_eq_bind, Option.bind_some, if_true]
  · have hwindow : present (entry s kaddrClondpd) = true := by
      rcases hrefused with hzero | hwindow
      · omega
      · exact hwindow
    have hle := h.index
    have hne : top k s ≠ 0#32 := by
      intro heq
      apply hpool
      rw [← heq]
      exact List.mem_map.2 ⟨s.framesIndex - 1, List.mem_range.2 (by omega), rfl⟩
    let s₁ : State := { s with framesIndex := s.framesIndex - 1 }
    have hindex₁ : s₁.framesIndex = s.framesIndex - 1 := rfl
    have halloc : mmuAlloc fault s = some (top k s, s₁) := h.alloc_eq hpos fault
    have hself₁ : SelfMapped s₁ := h.self
    have hmap : mmuMmap fault kaddrClondpd (top k s) 4096 mmuPageNoalloc s₁ = some (false, s₁) := by
      have hcount : pageCount 4096 = some 1 := by decide
      unfold mmuMmap
      rw [hcount]
      exact hself₁.markPages_first hwindow noalloc_set (by omega) fault (top k s)
    have hplace : translate s₁ (framesVma s₁.framesIndex) =
        some (poolPage k s₁ (s₁.framesIndex / 1024), s₁.framesIndex % 1024) :=
      translate_framesVma_of (by omega) h.poolPresent h.poolEntry
        (h.slotPage _ (by omega))
    have hsame : (s₁.set (poolPage k s₁ (s₁.framesIndex / 1024)) (s₁.framesIndex % 1024)
        (top k s)).mem = s.mem := by
      funext g j
      rw [set_mem]
      split
      · rename_i hand
        rw [hand.1, hand.2]
        rfl
      · rfl
    have hfree : mmuFree fault (top k s) s₁ =
        some { s₁.set (poolPage k s₁ (s₁.framesIndex / 1024)) (s₁.framesIndex % 1024) (top k s) with
          framesIndex := s₁.framesIndex + 1 } := by
      unfold mmuFree
      rw [writeWord_of_translate hplace]
      rfl
    have hindex : s₁.framesIndex + 1 = s.framesIndex := by omega
    obtain ⟨h', hkept⟩ := @ActiveSpace.congr k role s h
      { s₁.set (poolPage k s₁ (s₁.framesIndex / 1024)) (s₁.framesIndex % 1024) (top k s) with
        framesIndex := s₁.framesIndex + 1 } hsame rfl hindex
    refine ⟨_, ?_, h', hkept⟩
    unfold mmuClonePagedir
    simp only [halloc, hmap, hfree, Option.bind_eq_bind, Option.bind_some, if_neg hne,
      Bool.false_eq_true, if_false]

/-- Without a page fault the clone is refused for these reasons only. -/
theorem ActiveSpace.refused_of_clone {k : Kernel} {role : Word → Role} {s : State}
    (h : ActiveSpace k role s) {r : Word × State} (hr : mmuClonePagedir halting k s = some r)
    (hzero : r.1 = 0#32) (hindex : s.framesIndex ≤ r.2.framesIndex) : CloneRefused s := by
  rcases Nat.eq_zero_or_pos s.framesIndex with hempty | hpos
  · exact .inl hempty
  · right
    unfold mmuClonePagedir at hr
    simp only [h.alloc_eq hpos, Option.bind_eq_bind, Option.bind_some] at hr
    split at hr
    · rw [← Option.some.inj hr] at hindex
      simp only at hindex
      omega
    · rename_i hne
      simp only [Option.bind_eq_some_iff] at hr
      obtain ⟨⟨ok, s₂⟩, hmap, hr⟩ := hr
      cases ok with
      | true =>
        simp only [if_true, Option.bind_eq_some_iff] at hr
        obtain ⟨_, _, _, _, _, _, _, _, hr⟩ := hr
        rw [← Option.some.inj hr] at hzero
        exact absurd hzero hne
      | false =>
        have hcount : pageCount 4096 = some 1 := by decide
        have h₁ := h.pop
        unfold mmuMmap at hmap
        simp only [hcount, Mmu.markPages, Option.bind_eq_bind, Option.bind_eq_some_iff] at hmap
        obtain ⟨⟨ok, s₃⟩, hmark, hmap⟩ := hmap
        have hpde := h₁.table_unaided hmark
        cases hpresent : present (entry s kaddrClondpd) with
        | true => rfl
        | false =>
          rw [mmuMark_present halting _ _ h₁.self hpde, marked_absent hpde hpresent noalloc_set,
            Option.some.injEq, Prod.mk.injEq] at hmark
          rw [← hmark.1] at hmap
          exact absurd hmap (by simp)

end OsdevCourse.Mmu
