import OsdevCourse.DescriptorTables
import OsdevCourse.MmuFrames

/-!
# What `boot.s` leaves to the memory manager

`bootstrap` fills the boot table up to the end of the image, puts it into two slots of the
directory, turns paging on and goes on at the higher addresses; then it takes back the lower slot.
The words of the tables in physical memory are then those of `Mmu.bootState`, from which the memory
manager starts.
-/

namespace OsdevCourse.Boot

set_option autoImplicit false

open I686 Traps PageEntry

/-! The words of the frames. -/

/-- A physical address as the processor has it in a register. -/
def addr (f : Word) : UInt32 := ⟨f⟩

/-- Physical memory by its frames. -/
def words (m : Memory) : Mmu.Memory := fun f i =>
  if IsFrame f ∧ i < 1024 then (load m (addr f + UInt32.ofNat (4 * i))).toBitVec else 0#32

/-- The state of the memory manager that the processor is in. -/
def stateOf (σ : Cpu) : Mmu.State where
  mem := words σ.mem
  cr3 := σ.cr3.toBitVec
  framesIndex := 0
  trace := []

/-! The code. -/

/-- `stosd`, with DF clear. -/
def stosd (σ : Cpu) : Cpu :=
  let σ := σ.movStore (σ.reg .edi) (σ.reg .eax)
  σ.set .edi (σ.reg .edi + UInt32.ofNat 4)

/-- `jb`: CF. -/
def below (σ : Cpu) : Bool := σ.eflags.image &&& 0x1 ≠ 0

/-- The loop `.1` -/
def fillTable : Nat → Cpu → Option Cpu
  | 0, _ => none
  | fuel + 1, σ =>
    let σ := stosd σ
    let σ := addImm σ .eax (UInt32.ofNat 4096)
    let σ := cmpImm σ .eax (σ.reg .ecx)
    if below σ then fillTable fuel σ else some σ

/-- `bootstrap` up to the load of CR0 that turns paging on. -/
def setupPaging (k : Mmu.Kernel) (fuel : Nat) (σ : Cpu) : Option Cpu :=
  let σ := σ.set .esi (addr k.pd)
  let σ := σ.set .edi (addr k.pt)
  let σ := σ.movStore (σ.reg .esi + UInt32.ofNat (4 * 0)) (addr k.pt + 3)
  let σ := σ.movStore (σ.reg .esi + UInt32.ofNat (4 * 960)) (addr k.pt + 3)
  let σ := σ.set .ecx (UInt32.ofNat k.kernelEnd)
  let σ := σ.set .eax 3
  (fillTable fuel σ).map fun σ => σ.movCr3 (σ.reg .esi)

/-- A store with paging on; without a page for it the processor resets. -/
def pagedStore (σ : Cpu) (a v : UInt32) : Option Cpu :=
  (Mmu.translate (stateOf σ) a.toNat).map fun p => σ.movStore (addr p.1 + UInt32.ofNat (4 * p.2)) v

/-- From `.higher_half` on: the segments, the stack, and the slot of the lower addresses. -/
def unmapLow (stackTop : UInt32) (c : Core) : Option Core :=
  let σ := c.cpu.set .eax SEG_DATA32_0
  let seg : Segment → UInt16 :=
    fun r => if r = .cs then SEG_CODE32_0.toUInt16 else (σ.reg .eax).toUInt16
  let σ := σ.set .esp stackTop
  (pagedStore σ (σ.reg .esi + UInt32.ofNat (4 * 0)) 0).map fun σ =>
    { c with cpu := σ.movCr3 (σ.reg .esi), seg := seg }

/-! The loop. -/

section Loop
variable {σ : Cpu} {r : Reg} {v : UInt32} {i d fuel : Nat}

theorem below_cmpImm (σ : Cpu) (r : Reg) (v : UInt32) :
    below (cmpImm σ r v) = decide (σ.reg r < v) := by
  have hstatus : (0x8D5 : UInt32) &&& (loadable &&& 0x1) = 0x1 := by decide
  have hkept : ~~~(0x8D5 : UInt32) &&& (loadable &&& 0x1) = 0 := by decide
  have hfixed : (0x1 : UInt32) &&& 2 = 0 := by decide
  have hbits : ∀ status : UInt32, (σ.eflags.setStatus status).image &&& 0x1 = status &&& 0x1 := by
    intro status
    simp only [Eflags.setStatus, Eflags.ofImage]
    rw [UInt32.and_comm, and_or_distrib, hfixed, UInt32.or_zero, UInt32.and_comm, UInt32.and_assoc,
      UInt32.and_comm, and_or_distrib, UInt32.and_comm _ (σ.eflags.image &&& _),
        UInt32.and_assoc, hkept,
      UInt32.and_zero, UInt32.zero_or, UInt32.and_comm _ (status &&& _), UInt32.and_assoc, hstatus]
  have hdifference : (differenceStatus (σ.reg r) v ||| Cpu.resultStatus (σ.reg r - v)) &&& 0x1 =
      if σ.reg r < v then 0x1 else 0 := by
    unfold differenceStatus Cpu.resultStatus
    split_ifs <;> decide
  unfold below cmpImm
  rw [hbits, hdifference]
  by_cases hlt : σ.reg r < v
  · rw [if_pos hlt, decide_eq_true hlt]
    decide
  · rw [if_neg hlt, decide_eq_false hlt]
    decide

/-- One turn, up to the jump. -/
def turn (σ : Cpu) : Cpu := cmpImm (addImm (stosd σ) .eax (UInt32.ofNat 4096)) .eax (σ.reg .ecx)

theorem fillTable_succ : fillTable (fuel + 1) σ = if below (turn σ) then fillTable fuel
    (turn σ) else some (turn σ) := by
  have hecx : (addImm (stosd σ) .eax (UInt32.ofNat 4096)).reg .ecx = σ.reg .ecx := by
    simp [addImm, stosd, Cpu.set, Cpu.movStore]
  simp only [fillTable, turn, hecx]
  rfl

theorem turn_reg : (turn σ).reg .edi = σ.reg .edi + UInt32.ofNat 4 ∧
    (turn σ).reg .eax = σ.reg .eax + UInt32.ofNat 4096 ∧ (turn σ).reg .ecx = σ.reg .ecx ∧
    (turn σ).reg .esi = σ.reg .esi := by
  refine ⟨?_, ?_, ?_, ?_⟩ <;> simp [turn, cmpImm, addImm, stosd, Cpu.set, Cpu.movStore]

theorem below_turn : below (turn σ) = decide (σ.reg .eax + UInt32.ofNat 4096 < σ.reg .ecx) := by
  have heax : (addImm (stosd σ) .eax (UInt32.ofNat 4096)).reg .eax =
      σ.reg .eax + UInt32.ofNat 4096 := by
    simp [addImm, stosd, Cpu.set, Cpu.movStore]
  unfold turn
  rw [below_cmpImm, heax]

/-- The entries of the pages `i` to `i + d`. -/
def entries (i d : Nat) : List UInt32 := (List.range' i (d + 1)).map fun j =>
    UInt32.ofNat (4096 * j + 3)

/-- What the loop has done when it ends. -/
structure Filled (σ τ : Cpu) (pt : UInt32) (i d : Nat) : Prop where
  mem : τ.mem = storeRow σ.mem pt (4 * i) (entries i d)
  esi : τ.reg .esi = σ.reg .esi
  cr3 : τ.cr3 = σ.cr3

/-- The state of the loop at the page `i`. -/
structure AtPage (σ : Cpu) (pt : UInt32) (i : Nat) : Prop where
  edi : σ.reg .edi = pt + UInt32.ofNat (4 * i)
  eax : σ.reg .eax = UInt32.ofNat (4096 * i + 3)

theorem AtPage.turn {pt : UInt32} (h : AtPage σ pt i) : AtPage (turn σ) pt (i + 1) ∧
    (turn σ).mem = store σ.mem (pt + UInt32.ofNat (4 * i)) (UInt32.ofNat (4096 * i + 3)) := by
  obtain ⟨hedi, heax, _, _⟩ := turn_reg (σ := σ)
  refine ⟨⟨?_, ?_⟩, ?_⟩
  · rw [hedi, h.edi, UInt32.add_assoc, ← UInt32.ofNat_add, Nat.mul_succ]
  · rw [heax, h.eax, ← UInt32.ofNat_add, show 4096 * i + 3 + 4096 = 4096 * (i + 1) + 3 by omega]
  · rw [← h.edi, ← h.eax]
    rfl

/-- The loop ends after the first page whose successor is not below the end; by induction on the
pages that are left. -/
theorem fillTable_spec {pt : UInt32} (hfuel : d < fuel) (h : AtPage σ pt i)
    (hsmall : 4096 * (i + d + 1) + 3 < 2 ^ 32)
    (hgo : ∀ j, i < j → j ≤ i + d → 4096 * j + 3 < (σ.reg .ecx).toNat)
    (hend : (σ.reg .ecx).toNat ≤ 4096 * (i + d + 1) + 3) :
    ∃ τ, fillTable fuel σ = some τ ∧ Filled σ τ pt i d := by
  induction d generalizing σ i fuel with
  | zero =>
    obtain ⟨hnext, hmem⟩ := h.turn
    obtain ⟨_, heax, _, hesi⟩ := turn_reg (σ := σ)
    obtain ⟨fuel, rfl⟩ : ∃ f, fuel = f + 1 := ⟨fuel - 1, by omega⟩
    have hdone : ¬ σ.reg .eax + UInt32.ofNat 4096 < σ.reg .ecx := by
      rw [← heax, hnext.eax, UInt32.lt_iff_toNat_lt, UInt32.toNat_ofNat',
        Nat.mod_eq_of_lt (by omega)]
      omega
    rw [fillTable_succ, below_turn, decide_eq_false hdone]
    exact ⟨turn σ, if_neg Bool.false_ne_true, hmem, hesi, rfl⟩
  | succ d ih =>
    obtain ⟨hnext, hmem⟩ := h.turn
    obtain ⟨_, heax, hecx, hesi⟩ := turn_reg (σ := σ)
    obtain ⟨fuel, rfl⟩ : ∃ f, fuel = f + 1 := ⟨fuel - 1, by omega⟩
    have hmore : σ.reg .eax + UInt32.ofNat 4096 < σ.reg .ecx := by
      have hlt := hgo (i + 1) (by omega) (by omega)
      rw [← heax, hnext.eax, UInt32.lt_iff_toNat_lt, UInt32.toNat_ofNat',
        Nat.mod_eq_of_lt (by omega)]
      exact hlt
    obtain ⟨τ, hτ, hfilled⟩ := ih (i := i + 1) (by omega : d < fuel) hnext (by omega)
      (fun j hlo hhi => by rw [hecx]; exact hgo j (by omega) (by omega)) (by rw [hecx]; omega)
    rw [fillTable_succ, below_turn, decide_eq_true hmore, if_pos rfl]
    refine ⟨τ, hτ, ?_, hfilled.esi.trans hesi, hfilled.cr3⟩
    rw [hfilled.mem, hmem]
    rfl

end Loop

/-! The words that are written. -/

section Words
variable {m : Memory} {f g : Word} {i j : Nat} {v : UInt32} {ws : List UInt32}

theorem frame_bound (hf : IsFrame f) : f.toNat + 4096 ≤ 2 ^ 32 := by
  have hlt := f.isLt
  have hmod := isFrame_iff.mp hf
  omega

theorem slot_addr (hf : IsFrame f) (hi : i < 1024) :
    (addr f + UInt32.ofNat (4 * i)).toNat = f.toNat + 4 * i := by
  have hbound := frame_bound hf
  have haddr : (addr f).toNat = f.toNat := rfl
  rw [toNat_add_offset (by omega), haddr]

theorem words_store_slot (hf : IsFrame f) (hi : i < 1024) :
    words (store m (addr f + UInt32.ofNat (4 * i)) v) g j = if g = f ∧
      j = i then v.toBitVec else words m g j := by
  have hfi := slot_addr hf hi
  unfold words
  by_cases hgj : IsFrame g ∧ j < 1024
  · have hgj' := slot_addr hgj.1 hgj.2
    rw [if_pos hgj, if_pos hgj]
    by_cases heq : g = f ∧ j = i
    · obtain ⟨rfl, rfl⟩ := heq
      rw [if_pos ⟨rfl, rfl⟩, load_store_self]
    · have hmod := isFrame_iff.mp hf
      have hmod' := isFrame_iff.mp hgj.1
      have hapart : g.toNat ≠ f.toNat ∨ j ≠ i := by
        by_contra hnot
        apply heq
        push Not at hnot
        exact ⟨BitVec.eq_of_toNat_eq hnot.1, hnot.2⟩
      rw [if_neg heq, load_store_of_disjoint (by omega)]
  · rw [if_neg hgj, if_neg hgj, if_neg]
    rintro ⟨rfl, rfl⟩
    exact hgj ⟨hf, hi⟩

theorem words_storeRow (hf : IsFrame f) (hi : i + ws.length ≤ 1024) :
    words (storeRow m (addr f) (4 * i) ws) g j =
      if g = f ∧ i ≤ j ∧ j < i + ws.length then (ws.getD (j - i) 0).toBitVec else words m g j := by
  induction ws generalizing m i with
  | nil =>
    rw [if_neg]
    · rfl
    · simp only [List.length_nil]
      omega
  | cons w ws ih =>
    simp only [List.length_cons] at hi ⊢
    have hnext := ih (m := store m (addr f + UInt32.ofNat (4 * i)) w) (i := i + 1) (by omega)
    have hrow : storeRow m (addr f) (4 * i) (w :: ws) =
        storeRow (store m (addr f + UInt32.ofNat (4 * i)) w) (addr f) (4 * (i + 1)) ws := rfl
    rw [hrow, hnext, words_store_slot hf (by omega)]
    by_cases hg : g = f
    · by_cases hj : j = i
      · subst hj
        rw [if_neg (by omega), if_pos ⟨hg, rfl⟩, if_pos ⟨hg, by omega⟩, Nat.sub_self]
        rfl
      · by_cases hin : i ≤ j ∧ j < i + (ws.length + 1)
        · rw [if_pos ⟨hg, by omega, by omega⟩, if_pos ⟨hg, hin⟩]
          rw [show j - i = (j - (i + 1)) + 1 by omega]
          rfl
        · rw [if_neg (by omega), if_neg (fun h => hj h.2), if_neg (fun h => hin h.2)]
    · rw [if_neg (fun h => hg h.1), if_neg (fun h => hg h.1), if_neg (fun h => hg h.1)]

theorem words_entries {d : Nat} (hf : IsFrame f) (hd : d < 1024) :
    words (storeRow m (addr f) (4 * 0) (entries 0 d)) g j =
      if g = f ∧ j < d + 1 then BitVec.ofNat 32 (4096 * j + 3) else words m g j := by
  have hlen : (entries 0 d).length = d + 1 := by
    simp only [entries, List.length_map, List.length_range']
  have hrow := words_storeRow (m := m) (g := g) (j := j)
    (i := 0) hf (hlen ▸ (by omega) : 0 + (entries 0 d).length ≤ 1024)
  rw [hrow, hlen, Nat.zero_add, Nat.sub_zero]
  by_cases hin : g = f ∧ j < d + 1
  · have hentry : (entries 0 d).getD j 0 = UInt32.ofNat (4096 * j + 3) := by
      simp only [entries, List.getD_eq_getElem?_getD, List.getElem?_map]
      rw [List.getElem?_range' hin.2]
      simp
    rw [if_pos ⟨hin.1, Nat.zero_le j, hin.2⟩, if_pos hin, hentry]
    rfl
  · rw [if_neg (fun h => hin ⟨h.1, h.2.2⟩), if_neg hin]

end Words

/-! The bootstrap. -/

section Bootstrap
variable {k : Mmu.Kernel} {σ : Cpu} {fuel : Nat}

/-- The pages of the image. -/
def imagePages (k : Mmu.Kernel) : Nat := k.kernelEnd / 4096

theorem imagePages_spec (k : Mmu.Kernel) : k.kernelEnd = 4096 * imagePages k ∧ 0 < imagePages k ∧
    imagePages k ≤ 1024 := by
  have hdvd := k.end_aligned
  have hle := k.end_le
  have hin := k.inImage k.pd (by simp)
  unfold imagePages
  omega

/-- The word in the slot `i` of the frame `f` while both halves of the directory refer to the boot
table. -/
def pagedWords (k : Mmu.Kernel) (m : Memory) : Mmu.Memory := fun f i =>
  if f = k.pt ∧ i < imagePages k then BitVec.ofNat 32 (4096 * i + 3)
  else if f = k.pd ∧ (i = 0 ∨ i = 960) then k.pt + 3#32
  else words m f i

theorem setupPaging_spec (k : Mmu.Kernel) (σ : Cpu) (hfuel : 1024 ≤ fuel) :
    ∃ τ, setupPaging k fuel σ = some τ ∧ words τ.mem = pagedWords k σ.mem ∧ τ.cr3 = addr k.pd ∧
      τ.reg .esi = addr k.pd := by
  obtain ⟨hend, hpos, hle⟩ := imagePages_spec k
  have hpd := k.isFrame k.pd (by simp)
  have hpt := k.isFrame k.pt (by simp)
  have hzero : 0 < 1024 := by omega
  have hhalf : 960 < 1024 := by omega
  let ρ := ((((σ.set .esi (addr k.pd)).set .edi (addr k.pt)).movStore
    (addr k.pd + UInt32.ofNat (4 * 0)) (addr k.pt + 3)).movStore
    (addr k.pd + UInt32.ofNat (4 * 960)) (addr k.pt + 3)).set .ecx
    (UInt32.ofNat k.kernelEnd) |>.set .eax 3
  have hstart : AtPage ρ (addr k.pt) 0 := ⟨(UInt32.add_zero _).symm, rfl⟩
  have hecx : (ρ.reg .ecx).toNat = k.kernelEnd := by
    have hset : ρ.reg .ecx = UInt32.ofNat k.kernelEnd := rfl
    rw [hset, UInt32.toNat_ofNat', Nat.mod_eq_of_lt (by omega)]
  obtain ⟨τ, hτ, hfilled⟩ := fillTable_spec (d := imagePages k - 1)
    (by omega : imagePages k - 1 < fuel) hstart
    (by omega) (fun j hlo hhi => by omega) (by omega)
  have hsetup : setupPaging k fuel σ = (fillTable fuel ρ).map fun σ => σ.movCr3 (σ.reg .esi) := rfl
  have hesi : τ.reg .esi = addr k.pd := hfilled.esi
  rw [hsetup, hτ]
  refine ⟨_, rfl, ?_, hesi, hesi⟩
  have hslots : ρ.mem = store (store σ.mem (addr k.pd + UInt32.ofNat (4 * 0)) (addr k.pt + 3))
      (addr k.pd + UInt32.ofNat (4 * 960)) (addr k.pt + 3) := by
    simp only [ρ, Cpu.set, Cpu.movStore]
  have hmem : (τ.movCr3 (τ.reg .esi)).mem = τ.mem := rfl
  rw [hmem, hfilled.mem, hslots]
  funext f i
  rw [words_entries hpt (by omega), words_store_slot hpd hhalf, words_store_slot hpd hzero,
    Nat.sub_add_cancel hpos]
  unfold pagedWords
  by_cases hrow : f = k.pt ∧ i < imagePages k
  · rw [if_pos hrow, if_pos hrow]
  · rw [if_neg hrow, if_neg hrow]
    by_cases hf : f = k.pd
    · by_cases hhigh : i = 960
      · rw [if_pos ⟨hf, hhigh⟩, if_pos ⟨hf, .inr hhigh⟩]
        rfl
      · by_cases hlow : i = 0
        · rw [if_neg (fun h => hhigh h.2), if_pos ⟨hf, hlow⟩, if_pos ⟨hf, .inl hlow⟩]
          rfl
        · rw [if_neg (fun h => hhigh h.2), if_neg (fun h => hlow h.2), if_neg]
          rintro ⟨_, h | h⟩
          · exact hlow h
          · exact hhigh h
    · rw [if_neg (fun h => hf h.1), if_neg (fun h => hf h.1), if_neg (fun h => hf h.1)]

theorem translate_paged {s : Mmu.State} {m : Memory} {a n : Nat} (hmem : s.mem = pagedWords k m)
    (hcr3 : s.cr3 = k.pd)
    (hslot : Mmu.mmuPdIndex n = 0 ∨ Mmu.mmuPdIndex n = 960) (hpage : Mmu.mmuPtIndex n = a / 4096)
    (hoffset : n % 4096 = a % 4096) (ha : a < k.kernelEnd) :
    Mmu.translate s n = some (BitVec.ofNat 32 (a / 4096 * 4096), a % 4096 / 4) := by
  obtain ⟨hend, hpos, hle⟩ := imagePages_spec k
  have hpt := k.isFrame k.pt (by simp)
  have hdir : s.mem s.cr3 (Mmu.mmuPdIndex n) = k.pt + 3#32 := by
    have hne : ¬(k.pd = k.pt ∧ Mmu.mmuPdIndex n < imagePages k) := fun h => k.pd_ne_pt h.1
    rw [hmem, hcr3]
    unfold pagedWords
    rw [if_neg hne, if_pos ⟨rfl, hslot⟩]
  have hrow : s.mem k.pt (Mmu.mmuPtIndex n) = BitVec.ofNat 32 (a / 4096 * 4096) + 3#32 := by
    rw [hmem]
    unfold pagedWords
    rw [if_pos ⟨rfl, by omega⟩, hpage, Nat.mul_comm 4096, ← BitVec.ofNat_add]
  have hpageFrame : IsFrame (BitVec.ofNat 32 (a / 4096 * 4096)) := by
    apply isFrame_iff.mpr
    rw [BitVec.toNat_ofNat]
    omega
  rw [Mmu.translate_eq_some, hdir, Mmu.frameOf_static hpt, hrow,
    Mmu.frameOf_static hpageFrame, hoffset]
  · rw [hdir]
    exact Mmu.present_static hpt
  · rw [hdir, Mmu.frameOf_static hpt, hrow]
    exact Mmu.present_static hpageFrame

theorem pagedStore_eq (σ : Cpu) (a v : UInt32) {f : Word} {i : Nat}
    (h : Mmu.translate (stateOf σ) a.toNat = some (f, i)) :
    pagedStore σ a v = some (σ.movStore (addr f + UInt32.ofNat (4 * i)) v) := by
  unfold pagedStore
  rw [h]
  rfl

theorem words_unmapped {σ τ : Cpu} (hmem : words τ.mem = pagedWords k σ.mem)
    (hbss : ∀ f ∈ [k.pd, k.pt, k.framepoolPt, k.framepoolFirstpage], ∀ i < 1024,
    words σ.mem f i = 0#32) :
    words (store τ.mem (addr k.pd + UInt32.ofNat (4 * 0)) 0) =
      (Mmu.bootState k (words σ.mem)).mem := by
  obtain ⟨hend, hpos, hle⟩ := imagePages_spec k
  have hzero : ∀ f ∈ [k.pd, k.pt, k.framepoolPt, k.framepoolFirstpage], ∀ i,
      words σ.mem f i = 0#32 := by
    intro f hf i
    by_cases hi : i < 1024
    · exact hbss f hf i hi
    · unfold words
      rw [if_neg (fun h => hi h.2)]
  funext f i
  rw [words_store_slot k.isFrame_pd (by omega : 0 < 1024), hmem]
  simp only [pagedWords, Mmu.bootState]
  by_cases hf : f = k.pd
  · have hnot : ¬(f = k.pt ∧ i < imagePages k) := fun h => k.pd_ne_pt (hf.symm.trans h.1)
    rw [if_pos hf, if_neg hnot]
    by_cases hlow : i = 0
    · rw [if_pos ⟨hf, hlow⟩, if_neg (by omega)]
      rfl
    · rw [if_neg (fun h => hlow h.2)]
      by_cases hhigh : i = 960
      · rw [if_pos ⟨hf, .inr hhigh⟩, if_pos hhigh]
      · rw [if_neg (by omega), if_neg hhigh]
        exact hzero f (by simp [hf]) i
  · rw [if_neg (fun h => hf h.1), if_neg hf]
    by_cases ht : f = k.pt
    · rw [if_pos ht]
      by_cases hi : i < imagePages k
      · rw [if_pos ⟨ht, hi⟩, if_pos (by omega)]
      · rw [if_neg (fun h => hi h.2), if_neg (fun h => hf h.1), if_neg (by omega)]
        exact hzero f (by simp [ht]) i
    · rw [if_neg (fun h => ht h.1), if_neg (fun h => hf h.1), if_neg ht]
      by_cases hpool : f = k.framepoolPt ∨ f = k.framepoolFirstpage
      · rw [if_pos hpool]
        apply hzero
        rcases hpool with rfl | rfl <;> simp
      · rw [if_neg hpool]

theorem unmapLow_eq {τ : Cpu} {stackTop p : UInt32} {seg : Segment → UInt16} {cr2 : UInt32}
    {f : Word} {i : Nat}
    (hesi : τ.reg .esi = p)
    (hplace : Mmu.translate (stateOf τ) (p + UInt32.ofNat (4 * 0)).toNat = some (f, i)) :
    unmapLow stackTop ⟨τ, seg, cr2⟩ =
      some ⟨((((τ.set .eax SEG_DATA32_0).set .esp stackTop).movStore
        (addr f + UInt32.ofNat (4 * i)) 0).movCr3 p),
        fun r => if r = .cs then 0x08 else 0x10, cr2⟩ := by
  have hkept : ((τ.set .eax SEG_DATA32_0).set .esp stackTop).reg .esi = p := hesi
  unfold unmapLow
  simp only [hkept]
  have hsame : Mmu.translate (stateOf ((τ.set .eax SEG_DATA32_0).set .esp stackTop))
      (p + UInt32.ofNat (4 * 0)).toNat = some (f, i) := hplace
  rw [pagedStore_eq _ _ _ hsame]
  have hlast : (((τ.set .eax SEG_DATA32_0).set .esp stackTop).movStore
    (addr f + UInt32.ofNat (4 * i)) 0).reg .esi = p := hesi
  rw [Option.map_some, hlast]
  rfl

/-- The bootstrap ends with the tables of `Mmu.bootState`, having gone on at both halves alike. -/
theorem bootstrap_reaches_bootState (k : Mmu.Kernel) (σ : Cpu) (stackTop : UInt32)
    (seg : Segment → UInt16) (cr2 : UInt32)
    (hbss : ∀ f ∈ [k.pd, k.pt, k.framepoolPt, k.framepoolFirstpage], ∀ i < 1024,
    words σ.mem f i = 0#32)
    (hfuel : 1024 ≤ fuel) :
    ∃ τ c, setupPaging k fuel σ = some τ ∧
      (∀ a < k.kernelEnd, ∀ n ∈ [a, 0xF0000000 + a],
        Mmu.translate (stateOf τ) n = some (BitVec.ofNat 32 (a / 4096 * 4096), a % 4096 / 4)) ∧
      unmapLow stackTop ⟨τ, seg, cr2⟩ = some c ∧ stateOf c.cpu = Mmu.bootState k (words σ.mem) ∧
      c.cpu.reg .esp = stackTop ∧ ∀ r, c.seg r = if r = .cs then 0x08 else 0x10 := by
  obtain ⟨hend, hpos, hle⟩ := imagePages_spec k
  have hpd := k.isFrame_pd
  obtain ⟨τ, hτ, hmem, hcr3, hesi⟩ := setupPaging_spec k σ hfuel
  have hstate : (stateOf τ).mem = pagedWords k σ.mem := hmem
  have hstateCr3 : (stateOf τ).cr3 = k.pd := by
    unfold stateOf
    rw [hcr3]
    rfl
  have hsame : ∀ a < k.kernelEnd, ∀ n ∈ [a, 0xF0000000 + a],
      Mmu.translate (stateOf τ) n = some (BitVec.ofNat 32 (a / 4096 * 4096), a % 4096 / 4) := by
    intro a ha n hn
    simp only [List.mem_cons, List.not_mem_nil, or_false] at hn
    rcases hn with rfl | rfl
    · exact translate_paged hstate hstateCr3 (.inl (by unfold Mmu.mmuPdIndex; omega))
        (by unfold Mmu.mmuPtIndex; omega) rfl ha
    · exact translate_paged hstate hstateCr3 (.inr (by unfold Mmu.mmuPdIndex; omega))
        (by unfold Mmu.mmuPtIndex; omega)
        (by omega) ha
  have haligned := isFrame_iff.mp hpd
  have hin := (k.inImage k.pd (by simp)).2
  have hslot : (addr k.pd + UInt32.ofNat (4 * 0)).toNat = k.pd.toNat :=
    slot_addr hpd (by omega : 0 < 1024)
  have hplace : (BitVec.ofNat 32 (k.pd.toNat / 4096 * 4096), k.pd.toNat % 4096 / 4) =
      (k.pd, 0) := by
    rw [Nat.div_mul_cancel (Nat.dvd_of_mod_eq_zero haligned), haligned, BitVec.ofNat_toNat,
      BitVec.setWidth_eq]
  have hstore : Mmu.translate (stateOf τ) (addr k.pd + UInt32.ofNat (4 * 0)).toNat = some
      (k.pd, 0) := by
    rw [hslot, ← hplace]
    exact hsame _ hin _ (List.mem_cons_self ..)
  refine ⟨τ, _, hτ, hsame, unmapLow_eq hesi hstore, ?_, rfl, fun r => rfl⟩
  have hkept :
    stateOf ((((τ.set .eax SEG_DATA32_0).set .esp stackTop).movStore
    (addr k.pd + UInt32.ofNat (4 * 0)) 0).movCr3
      (addr k.pd)) = ⟨words (store τ.mem (addr k.pd + UInt32.ofNat (4 * 0)) 0), k.pd, 0, []⟩ := rfl
  rw [hkept, words_unmapped hmem hbss]
  rfl

theorem bootstrap_reaches_bootState_small :
    ∃ τ c, setupPaging Mmu.smallKernel 1024 smallCpu = some τ ∧
      (∀ a < 0x106000, ∀ n ∈ [a, 0xF0000000 + a],
        Mmu.translate (stateOf τ) n = some (BitVec.ofNat 32 (a / 4096 * 4096), a % 4096 / 4)) ∧
      unmapLow 0x108000 ⟨τ, fun _ => 0, 0⟩ = some c ∧
        stateOf c.cpu = Mmu.bootState Mmu.smallKernel (words smallCpu.mem) ∧
      c.cpu.reg .esp = 0x108000 ∧ ∀ r, c.seg r = if r = .cs then 0x08 else 0x10 := by
  have hbss : ∀ f i, words smallCpu.mem f i = 0#32 := by
    intro f i
    unfold words
    split
    · rfl
    · rfl
  exact bootstrap_reaches_bootState Mmu.smallKernel smallCpu 0x108000 (fun _ => 0) 0
    (fun f _ i _ => hbss f i)
    (Nat.le_refl 1024)

end Bootstrap

end OsdevCourse.Boot
