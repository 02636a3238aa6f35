import OsdevCourse.MmuUserRows
import OsdevCourse.LoaderTurns

/-!
# The pages of a segment

`load_program` maps `p_memsz` bytes, rounded up to pages, from `p_vaddr` on, which need not be the
start of a page: `mmu_mmap` then marks the pages from that of `p_vaddr` on, as many as the size
has, and the segment may end in the page behind them.
-/

namespace OsdevCourse.Loader

set_option autoImplicit false

open Elf
open Mmu (Spaces Region Pool Loading Touchable RowReady missingTables entry)

/-- The state in which the loop over the program headers comes to the header `i`. -/
inductive HeaderTurn (buffer : Nat) (s : State) : Nat → State → Prop where
  | start : HeaderTurn buffer s 0 s
  | load {i : Nat} {u : State} : HeaderTurn buffer s i u → i < (Ehdr.read u.mem buffer).phnum →
      (phdr u.mem buffer i).type = PT_LOAD → ¬ Refused u.mem buffer i →
      HeaderTurn buffer s (i + 1) (loadSegment buffer (phdrAddr u.mem buffer i) u)
  | skip {i : Nat} {u : State} : HeaderTurn buffer s i u → i < (Ehdr.read u.mem buffer).phnum →
      (phdr u.mem buffer i).type ≠ PT_LOAD → HeaderTurn buffer s (i + 1) u

/-- The header `i` is loaded in the state. -/
structure LoadsHeader (buffer i : Nat) (u : State) : Prop where
  lt : i < (Ehdr.read u.mem buffer).phnum
  type : (phdr u.mem buffer i).type = PT_LOAD
  size : ¬ Refused u.mem buffer i

/-- The call of `mmu_mmap` for a segment. -/
def mmapCall (ph : Phdr) : Event := .mmap ph.vaddr (segmentSize ph.memsz)
    (MMU_PROT_RW ||| MMU_PROT_USER)

/-- The page tables that are missing find frames, and the last byte lies in one of the pages that
are marked, or in a page that was mapped before. -/
def PagesFit (s : Mmu.State) (vaddr memsz : Nat) : Prop :=
  memsz = 0 ∨ (missingTables s (vaddr / 4096) ((vaddr + segmentSize memsz) / 4096)).card ≤
      s.framesIndex ∧
    (vaddr % 4096 + memsz ≤ segmentSize memsz ∨ Touchable s (vaddr + memsz - 1))

/-! ### The calls of `load_program` -/

section Calls
variable {buffer i : Nat} {s u : State}

theorem loadSegment_events (buffer a : Nat) (u : State) : ∃ rest,
    (loadSegment buffer a u).events = u.events ++ mmapCall (Phdr.read u.mem a) :: rest := by
  unfold loadSegment
  simp only
  split
  · exact ⟨_, by simp only [State.log, List.append_assoc]; rfl⟩
  · exact ⟨_, by simp only [State.log, List.append_assoc]; rfl⟩

/-- The loop only adds to the calls. -/
theorem loadHeaders_events (buffer fuel i : Nat) (u : State) :
    u.events <+: (loadHeaders buffer fuel i u).1.events := by
  induction fuel generalizing i u with
  | zero => exact List.prefix_rfl
  | succ fuel ih =>
    unfold loadHeaders
    simp only
    split
    · split
      · split
        · exact List.prefix_rfl
        · obtain ⟨rest, heq⟩ := loadSegment_events buffer (phdrAddr u.mem buffer i) u
          apply List.IsPrefix.trans ?_ (ih _ _)
          rw [heq]
          exact List.prefix_append _ _
      · exact ih _ _
    · exact List.prefix_rfl

theorem HeaderTurn.loop (h : HeaderTurn buffer s i u) : i ≤ 2 ^ 16 ∧
    loadHeaders buffer (2 ^ 16) 0 s = loadHeaders buffer (2 ^ 16 - i) i u := by
  induction h with
  | start => exact ⟨Nat.zero_le _, rfl⟩
  | @load i u _ hlt htype hsize ih =>
    have hcount : (Ehdr.read u.mem buffer).phnum < 2 ^ 16 := load16_lt
    have hfuel : 2 ^ 16 - i = (2 ^ 16 - (i + 1)) + 1 := by omega
    refine ⟨by omega, ih.2.trans ?_⟩
    rw [hfuel]
    have hsize' : ¬ (Phdr.read u.mem (phdrAddr u.mem buffer i)).memsz <
        (Phdr.read u.mem (phdrAddr u.mem buffer i)).filesz := fun hless => hsize ⟨htype, hless⟩
    unfold phdr at htype
    simp only [loadHeaders, if_pos hlt, if_pos htype, if_neg hsize']
  | @skip i u _ hlt htype ih =>
    have hcount : (Ehdr.read u.mem buffer).phnum < 2 ^ 16 := load16_lt
    have hfuel : 2 ^ 16 - i = (2 ^ 16 - (i + 1)) + 1 := by omega
    refine ⟨by omega, ih.2.trans ?_⟩
    rw [hfuel]
    unfold phdr at htype
    simp only [loadHeaders, if_pos hlt, if_neg htype]

theorem HeaderTurn.mmap (h : HeaderTurn buffer s i u) (hload : LoadsHeader buffer i u) :
    u.events ++ [mmapCall (phdr u.mem buffer i)] <+:
      (loadHeaders buffer (2 ^ 16) 0 s).1.events := by
  obtain ⟨_, heq⟩ := (h.load hload.lt hload.type hload.size).loop
  obtain ⟨rest, hevents⟩ := loadSegment_events buffer (phdrAddr u.mem buffer i) u
  rw [heq]
  apply List.IsPrefix.trans ?_ (loadHeaders_events _ _ _ _)
  rw [hevents]
  exact ⟨rest, by rw [List.append_assoc]; rfl⟩

/-- Relocating only adds to the calls. -/
theorem relocate_events (buffer : Nat) (s : State) :
    s.events <+: (relocate buffer s).1.events := by
  obtain ⟨v, _, _, hevents, hend⟩ := relocate_turns buffer s
  rw [hevents]
  rcases hend with ⟨_, hturn, _⟩ | ⟨_, k, _, hturn, _⟩ <;>
    obtain ⟨es, hes, _⟩ := hturn.events <;>
    rw [hes] <;>
    exact List.prefix_append _ _

theorem loadProgram_events {file : File} {mem : Memory}
    (haccepted : (loadProgram file (init mem)).2 = true) :
    (loadHeaders file.buffer (2 ^ 16) 0 (init (storeBytes mem file.buffer file.bytes))).1.events <+:
      (loadProgram file (init mem)).1.events := by
  unfold loadProgram at haccepted ⊢
  cases hlen : file.filelen with
  | none =>
    rw [hlen] at haccepted
    exact absurd haccepted (by simp)
  | some filelen =>
    simp only [hlen] at haccepted ⊢
    split at haccepted
    · exact absurd haccepted (by simp)
    rename_i hbuffer
    rw [if_neg hbuffer]
    split at haccepted
    · exact absurd haccepted (by simp)
    rename_i hresult
    rw [if_neg hresult]
    split at haccepted
    · exact absurd haccepted (by simp)
    rename_i hident
    rw [if_neg hident]
    split at haccepted
    · exact absurd haccepted (by simp)
    rename_i hmachine
    rw [if_neg hmachine]
    split at haccepted
    · exact absurd haccepted (by simp)
    rename_i htype
    rw [if_neg htype]
    split at haccepted
    · exact absurd haccepted (by simp)
    rename_i u hheaders
    have heq : loadHeaders file.buffer (2 ^ 16) 0 (init (storeBytes mem file.buffer file.bytes)) =
        (u, true) := hheaders
    rw [heq]
    apply List.IsPrefix.trans (relocate_events file.buffer u)
    exact List.prefix_append _ _

theorem loadProgram_mmap {file : File} {mem : Memory}
    (haccepted : (loadProgram file (init mem)).2 = true)
    (hturn : HeaderTurn file.buffer (init (storeBytes mem file.buffer file.bytes)) i u)
    (hload : LoadsHeader file.buffer i u) :
    u.events ++ [mmapCall (phdr u.mem file.buffer i)] <+: (loadProgram file (init mem)).1.events :=
  (hturn.mmap hload).trans (loadProgram_events haccepted)

end Calls

/-! ### The pages of one segment -/

theorem segmentSize_eq {memsz : Nat} (h : memsz ≤ 0x80000000) :
    segmentSize memsz = 4096 * ((memsz + 4095) / 4096) := by
  unfold segmentSize
  omega

theorem mmapFlag : BitVec.ofNat 32 (MMU_PROT_RW ||| MMU_PROT_USER) &&&
    Mmu.mmuPageNoalloc = 0#32 := by
  decide

section Pages
variable {k : Mmu.Kernel} {L : Pool k} {x : Spaces} (h : Loading L x) {vaddr memsz : Nat}
  (hend : vaddr + memsz ≤ 0x80000000)
include h hend

omit h in
theorem row_ready_iff (hpos : 0 < memsz) {s' : Mmu.State} (h' : Loading L { x with state := s' })
    {flag : BitVec 32} (hrow : Mmu.MarkedRow (vaddr / 4096)
      (vaddr / 4096 + (memsz + 4095) / 4096) flag x.state s') :
    RowReady k x.fixed vaddr (vaddr + memsz) s' ↔
      vaddr % 4096 + memsz ≤ segmentSize memsz ∨ Touchable x.state (vaddr + memsz - 1) := by
  have hlow : memsz ≤ 0x80000000 := by omega
  have hsize := segmentSize_eq hlow
  have hothers : ∀ addr, vaddr ≤ addr → addr < vaddr + memsz →
      vaddr / 4096 + (memsz + 4095) / 4096 ≤ addr / 4096 →
      entry s' addr = entry x.state addr ∧ Mmu.SamePage addr (vaddr + memsz - 1) := by
    intro addr hlo hlt hbehind
    refine ⟨hrow.others addr ?_ (by omega), ?_⟩
    · unfold Mmu.mmuPtVma
      omega
    · apply (Mmu.samePage_iff (by omega) (by omega)).2
      omega
  constructor
  · intro hready
    by_cases hfits : vaddr % 4096 + memsz ≤ segmentSize memsz
    · exact .inl hfits
    · right
      have hlast := hready.mapped (vaddr + memsz - 1) (by omega) (by omega)
      obtain ⟨heq, _⟩ := hothers (vaddr + memsz - 1) (by omega) (by omega) (by omega)
      unfold Touchable at hlast ⊢
      rw [heq] at hlast
      exact hlast
  · intro hlast
    refine h'.fenced.rowReady hend ?_
    intro addr hlo hlt
    by_cases hin : addr / 4096 < vaddr / 4096 + (memsz + 4095) / 4096
    · exact (hrow.pages addr (by omega) (by omega) hin).1
    · obtain ⟨heq, hsame⟩ := hothers addr hlo hlt (by omega)
      have hbefore := hlast.resolve_left (by omega)
      unfold Touchable at hbefore ⊢
      rw [heq, Mmu.entry_samePage hsame]
      exact hbefore

/-- The call of `mmu_mmap` leaves the pages of the segment ready exactly where they fit. -/
theorem mmap_ready_iff (depth : Nat) : ∃ s', Mmu.mmuMmap (Mmu.pageFault k (depth + 1)) vaddr 0#32
      (segmentSize memsz) (BitVec.ofNat 32 (MMU_PROT_RW ||| MMU_PROT_USER)) x.state =
        some (true, s') ∧
    (RowReady k x.fixed vaddr (vaddr + memsz) s' ↔ PagesFit x.state vaddr memsz) := by
  have hlow : memsz ≤ 0x80000000 := by omega
  have hsize := segmentSize_eq hlow
  have hcount : Mmu.pageCount (segmentSize memsz) = some ((memsz + 4095) / 4096) := by
    unfold Mmu.pageCount
    rw [if_pos (by omega), Option.some.injEq]
    omega
  have hlast : (vaddr + segmentSize memsz) / 4096 = vaddr / 4096 + (memsz + 4095) / 4096 := by
    omega
  unfold Mmu.mmuMmap PagesFit
  rw [hcount, hlast]
  rcases Nat.eq_zero_or_pos memsz with rfl | hpos
  · refine ⟨x.state, rfl, iff_of_true ?_ (.inl rfl)⟩
    refine h.fenced.rowReady hend ?_
    intro addr hlo hlt
    exact absurd hlt (by omega)
  · have hpages : vaddr / 4096 + (memsz + 4095) / 4096 ≤ 2 ^ 19 := by omega
    by_cases hroom : (missingTables x.state (vaddr / 4096)
        (vaddr / 4096 + (memsz + 4095) / 4096)).card ≤ x.state.framesIndex
    · obtain ⟨s', hmarks, h', hrow⟩ := h.row mmapFlag depth _ hpages (.inr hroom) 0#32
      refine ⟨s', hmarks, (row_ready_iff hend hpos h' hrow).trans ?_⟩
      rw [or_iff_right (Nat.ne_of_gt hpos), and_iff_right hroom]
    · obtain ⟨s', hmarks, i, hi, hstarved⟩ :=
        h.row_starved mmapFlag depth _ hpages (by omega) hroom 0#32
      refine ⟨s', hmarks, iff_of_false ?_ ?_⟩
      · exact hstarved.not_ready (Nat.le_add_right ..) (by omega) (by omega) rfl
      · rintro (hzero | hfits)
        · omega
        · exact hroom hfits.1

end Pages

section Runs
variable {k : Mmu.Kernel} {ram : Mmu.Memory} {map : List Region} {depth : Nat} {s : Mmu.State}

/-- When `load_program` starts to copy a segment, the bytes of the segment can be touched and the
copy does not halt, exactly where the pages fit. -/
theorem segment_mapped_iff (hdistinct : (Mmu.usableFrames k map).Nodup)
    (hinit : Mmu.mmuInit k (Mmu.pageFault k depth) map (Mmu.bootState k ram) = some s) {x : Spaces}
    (hrun : Reachable
      (Guarded (Spaces.Step k (Mmu.pageFaultFed k)) (Spaces.Allowed k fun _ => True))
      (Spaces.start k s) x)
    (hactive : x.state.cr3 ∈ x.clones) {file : File} {mem : Memory}
    (haccepted : (loadProgram file (init mem)).2 = true) {i : Nat} {u : State}
    (hturn : HeaderTurn file.buffer (init (storeBytes mem file.buffer file.bytes)) i u)
    (hload : LoadsHeader file.buffer i u)
    (hend : (phdr u.mem file.buffer i).vaddr + (phdr u.mem file.buffer i).memsz ≤ 0x80000000)
    (depth : Nat) :
    ∃ addr size flag s',
      u.events ++ [.mmap addr size flag] <+: (loadProgram file (init mem)).1.events ∧
      Mmu.mmuMmap (Mmu.pageFault k (depth + 1)) addr 0#32 size (BitVec.ofNat 32 flag) x.state =
        some (true, s') ∧
      (RowReady k x.fixed (phdr u.mem file.buffer i).vaddr
          ((phdr u.mem file.buffer i).vaddr + (phdr u.mem file.buffer i).memsz) s' ↔
        PagesFit x.state (phdr u.mem file.buffer i).vaddr (phdr u.mem file.buffer i).memsz) := by
  obtain ⟨ptIndex, hfilling, hlow⟩ := Mmu.mmuInit_filling hdistinct hinit
  have hstart : Mmu.UserTables
    (hfilling.left Mmu.usableFrames_poolFrame hdistinct hlow fun _ => True)
      (Spaces.start k s) := by
    intro a ha d hd hpresent
    obtain rfl := List.mem_singleton.1 ha
    have hold : PageEntry.present (s.mem k.pd d) = true := hpresent
    rw [hfilling.directory d] at hold
    unfold Mmu.initPde at hold
    rw [if_neg (by omega), if_neg (by omega), if_neg (by omega)] at hold
    exact absurd hold (by decide)
  obtain ⟨hroles, htables⟩ := Mmu.reachable_userTables hrun
    ⟨hfilling.start_roles Mmu.usableFrames_poolFrame hdistinct hlow (fun _ => True)
      fun _ _ => True.intro, hstart⟩
  obtain ⟨s', hmmap, hiff⟩ := mmap_ready_iff ⟨hroles, htables, hactive⟩ hend depth
  exact ⟨_, _, _, s', loadProgram_mmap haccepted hturn hload, hmmap, hiff⟩

end Runs

/-! ### The small machine -/

/-- A process of the small machine is active. -/
def processClone : BitVec 32 × Mmu.State :=
  (Mmu.mmuClonePagedir (Mmu.pageFaultFed Mmu.smallKernel 4) Mmu.smallKernel Mmu.smallStart).get
    Mmu.smallStart_clones

def processSpaces : Spaces :=
  { (Spaces.start Mmu.smallKernel Mmu.smallStart).afterClone processClone.1 processClone.2 with
    state := processClone.2.loadCr3 processClone.1 }

theorem processSpaces_reachable :
    Reachable (Guarded (Spaces.Step Mmu.smallKernel (Mmu.pageFaultFed Mmu.smallKernel))
      (Spaces.Allowed Mmu.smallKernel fun _ => True))
      (Spaces.start Mmu.smallKernel Mmu.smallStart) processSpaces ∧
    processSpaces.state.cr3 ∈ processSpaces.clones := by
  have hclone : Mmu.mmuClonePagedir (Mmu.pageFaultFed Mmu.smallKernel 4) Mmu.smallKernel
      Mmu.smallStart = some processClone := (Option.some_get _).symm
  have hne : processClone.1 ≠ 0#32 := by decide +kernel
  have hmem : processClone.1 ∈
      ((Spaces.start Mmu.smallKernel Mmu.smallStart).afterClone processClone.1
          processClone.2).clones := by
    unfold Spaces.afterClone
    rw [if_neg hne]
    exact List.mem_append_right _ (List.mem_singleton.2 rfl)
  exact ⟨⟨[.clone, .switch processClone.1], .cons ⟨True.intro, .clone hclone⟩
    (.single ⟨True.intro, .switch (List.mem_cons_of_mem _ hmem)⟩)⟩, hmem⟩

/-- A segment of one byte at the start of a page. -/
theorem segment_mapped_iff_tiny : ∃ addr size flag s',
    [.mmap addr size flag] <+: (loadProgram (tinyFile [0, 0x80, 4, 8]) (init fun _ => 0)).1.events ∧
    Mmu.mmuMmap (Mmu.pageFault Mmu.smallKernel 1) addr 0#32 size (BitVec.ofNat 32 flag)
      processSpaces.state = some (true, s') ∧
    (RowReady Mmu.smallKernel processSpaces.fixed 0x08048000 0x08048001 s' ↔
      PagesFit processSpaces.state 0x08048000 1) := by
  have hinit : Mmu.smallInit [Mmu.smallRam 4] = some Mmu.smallStart := (Option.some_get _).symm
  have hphdr : phdr (storeBytes (fun _ => 0) 0xF2000010 (tinyElf [0, 0x80, 4, 8])) 0xF2000010 0 =
      { type := PT_LOAD, offset := 0, vaddr := 0x08048000, filesz := 1, memsz := 1 } := by
    decide +kernel
  have hload : LoadsHeader 0xF2000010 0
      (init (storeBytes (fun _ => 0) 0xF2000010 (tinyElf [0, 0x80, 4, 8]))) := by
    refine ⟨by decide +kernel, ?_, ?_⟩
    · simp only [init, hphdr]
    · simp only [Refused, init, hphdr]
      omega
  have hturn : HeaderTurn 0xF2000010
      (init (storeBytes (fun _ => 0) 0xF2000010 (tinyElf [0, 0x80, 4, 8]))) 0
      (init (storeBytes (fun _ => 0) 0xF2000010 (tinyElf [0, 0x80, 4, 8]))) := .start
  have haccepted : (loadProgram (tinyFile [0, 0x80, 4, 8]) (init fun _ => 0)).2 = true := by
    decide +kernel
  have hend : (phdr (init (storeBytes (fun _ => 0) 0xF2000010 (tinyElf [0, 0x80, 4, 8]))).mem
        0xF2000010 0).vaddr +
      (phdr (init (storeBytes (fun _ => 0) 0xF2000010 (tinyElf [0, 0x80, 4, 8]))).mem
        0xF2000010 0).memsz ≤ 0x80000000 := by
    simp only [init, hphdr]
    omega
  obtain ⟨addr, size, flag, s', hcall, hmmap, hiff⟩ :=
    segment_mapped_iff (by decide +kernel) hinit processSpaces_reachable.1 processSpaces_reachable.2
      haccepted hturn hload hend 0
  simp only [tinyFile, init, hphdr] at hiff
  exact ⟨addr, size, flag, s', hcall, hmmap, hiff⟩

/-- An executable with a segment of two bytes, the first of them in its first page. -/
def straddlingElf : List UInt8 := (tinyElf [0xFF, 0x8F, 4, 8]).set 72 2

def straddlingFile : File where
  filelen := some 84
  buffer := 0xF2000010
  result := 84
  bytes := straddlingElf

/-- One page is marked for the segment. -/
def straddlingMap : Bool × Mmu.State :=
  (Mmu.mmuMmap (Mmu.pageFault Mmu.smallKernel 4) 0x08048FFF 0#32 0x1000 6#32
    processSpaces.state).get (by decide +kernel)

theorem segment_end_unmapped : ¬ ∀ (k : Mmu.Kernel) (ram : Mmu.Memory) (map : List Region)
    (depth : Nat) (s : Mmu.State), (Mmu.usableFrames k map).Nodup →
    Mmu.mmuInit k (Mmu.pageFault k depth) map (Mmu.bootState k ram) = some s →
    ∀ x, Reachable (Guarded (Spaces.Step k (Mmu.pageFaultFed k)) (Spaces.Allowed k fun _ => True))
      (Spaces.start k s) x → x.state.cr3 ∈ x.clones →
    ∀ (file : File) (mem : Memory), (loadProgram file (init mem)).2 = true →
    ∀ i u, HeaderTurn file.buffer (init (storeBytes mem file.buffer file.bytes)) i u →
      LoadsHeader file.buffer i u →
      (phdr u.mem file.buffer i).vaddr + (phdr u.mem file.buffer i).memsz ≤ 0x80000000 →
    ∀ nested addr size flag s',
      u.events ++ [.mmap addr size flag] <+: (loadProgram file (init mem)).1.events →
      Mmu.mmuMmap (Mmu.pageFault k nested) addr 0#32 size (BitVec.ofNat 32 flag) x.state =
        some (true, s') →
      RowReady k x.fixed (phdr u.mem file.buffer i).vaddr
        ((phdr u.mem file.buffer i).vaddr + (phdr u.mem file.buffer i).memsz) s' := by
  intro hclaim
  let u := init (storeBytes (fun _ => 0) straddlingFile.buffer straddlingFile.bytes)
  have hinit : Mmu.smallInit [Mmu.smallRam 4] = some Mmu.smallStart := (Option.some_get _).symm
  have hphdr : phdr u.mem straddlingFile.buffer 0 =
      { type := PT_LOAD, offset := 0, vaddr := 0x08048FFF, filesz := 1, memsz := 2 } := by
    decide +kernel
  have hload : LoadsHeader straddlingFile.buffer 0 u := by
    refine ⟨by decide +kernel, ?_, ?_⟩
    · rw [hphdr]
    · unfold Refused
      rw [hphdr]
      decide
  have haccepted : (loadProgram straddlingFile (init fun _ => 0)).2 = true := by decide +kernel
  have hturn : HeaderTurn straddlingFile.buffer u 0 u := .start
  have hcall := loadProgram_mmap haccepted hturn hload
  have hmapped : Mmu.mmuMmap (Mmu.pageFault Mmu.smallKernel 4) 0x08048FFF 0#32 0x1000 6#32
      processSpaces.state = some straddlingMap := (Option.some_get _).symm
  have hok : straddlingMap = (true, straddlingMap.2) := Prod.ext (by decide +kernel) rfl
  have hmmap := hmapped.trans (congrArg some hok)
  rw [hphdr] at hcall
  have hready := hclaim _ _ _ _ _ (by decide +kernel) hinit _ processSpaces_reachable.1
    processSpaces_reachable.2 straddlingFile _ haccepted 0 u hturn hload
      (by rw [hphdr]; decide) 4 _ _ _
    straddlingMap.2 hcall hmmap
  simp only [hphdr] at hready
  have hlast := hready.mapped 0x08049000 (by omega) (by omega)
  unfold Touchable at hlast
  exact absurd hlast (by decide +kernel)

end OsdevCourse.Loader
