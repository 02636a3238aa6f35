import OsdevCourse.Loader
import Mathlib.Data.List.Basic

/-!
# Where a program is loaded

The loader takes every destination from the file and checks none against the border of the
user half. What it does stays in the user half for the files that ask for nothing else:
`UserImage` is a condition on the tables of the file as they are in memory before loading.
The copies then leave the kernel half alone, the tables with it, so that what the loader
reads later is what the condition speaks of.
-/

namespace OsdevCourse.Loader

set_option autoImplicit false

open Elf

variable {m m' : Memory} {s t : State} {file : File} {buffer fuel i j a n : Nat} {ok : Bool}

def User (a : Nat) : Prop := a < 2 ^ 31

def Kernel (a : Nat) : Prop := ¬ User a

/-- A range that is mapped, and every byte that is stored, is in the user half. -/
def Event.InUserHalf : Event → Prop
  | .mmap addr size _ => Within User addr size
  | .copy des len => Within User des len
  | .fill des len => Within User des len
  | .patch addr => Within User addr 4
  | .kfree _ => True

/-- A program header asks for a segment that ends, its last page included, in the user
half. -/
def Low (ph : Phdr) : Prop :=
  ph.memsz = 0 ∨ ph.vaddr + (ph.memsz + 4095) / 4096 * 4096 ≤ 2 ^ 31

/-- The segment of the header takes in the address, its end included. -/
def Covers (ph : Phdr) (vaddr : Nat) : Prop :=
  ph.vaddr ≤ vaddr ∧ vaddr ≤ (ph.vaddr + segmentSize ph.memsz) % 2 ^ 32

/-- The file in the buffer has its tables in the kernel half, where the buffer is, its
segments in the user half, and no relocation at a word that is not in the user half. -/
structure UserImage (m : Memory) (buffer : Nat) : Prop where
  ehdr : Within Kernel buffer Ehdr.size
  phdrs : ∀ i, i < (Ehdr.read m buffer).phnum → Within Kernel (phdrAddr m buffer i) Phdr.size
  shdrs : ∀ i, i < (Ehdr.read m buffer).shnum → Within Kernel (shdrAddr m buffer i) Shdr.bytes
  rels : ∀ j, j < (sections m buffer).relCount →
    Within Kernel ((sections m buffer).rel + j * Rel.size) Rel.size
  segments : ∀ i, i < (Ehdr.read m buffer).phnum →
    (Phdr.read m (phdrAddr m buffer i)).type = PT_LOAD →
    Low (Phdr.read m (phdrAddr m buffer i))
  targets : ∀ j, j < (sections m buffer).relCount → ∀ i, i < (Ehdr.read m buffer).phnum →
    (Phdr.read m (phdrAddr m buffer i)).type = PT_LOAD →
    Covers (Phdr.read m (phdrAddr m buffer i))
      (Rel.read m ((sections m buffer).rel + j * Rel.size)).offset →
    (Rel.read m ((sections m buffer).rel + j * Rel.size)).offset + 4 ≤ 2 ^ 31

theorem within_user (h : n = 0 ∨ a + n ≤ 2 ^ 31) : Within User a n := by
  intro i hi
  unfold User
  omega

theorem not_kernel (h : Within User a n) : Within (fun x => ¬ Kernel x) a n :=
  fun i hi hk => hk (h i hi)

/-- The loader has only touched the user half, and its segments are those of headers of the
file. -/
structure Harmless (m : Memory) (buffer : Nat) (s : State) : Prop where
  same : SameOn Kernel m s.mem
  events : ∀ e ∈ s.events, e.InUserHalf
  segments : ∀ seg ∈ s.segments, seg.base = seg.vaddr ∧
    ∃ i, i < (Ehdr.read m buffer).phnum ∧ (Phdr.read m (phdrAddr m buffer i)).type = PT_LOAD ∧
      seg.vaddr = (Phdr.read m (phdrAddr m buffer i)).vaddr ∧
      seg.size = segmentSize (Phdr.read m (phdrAddr m buffer i)).memsz

namespace Harmless

theorem log (h : Harmless m buffer s) {e : Event} (he : e.InUserHalf) :
    Harmless m buffer (s.log e) := by
  refine ⟨h.same, fun x hx => ?_, h.segments⟩
  rcases List.mem_append.mp hx with hx | hx
  · exact h.events x hx
  · rw [List.mem_singleton.mp hx]
    exact he

theorem store (h : Harmless m buffer s) (hsame : SameOn Kernel s.mem m') :
    Harmless m buffer { s with mem := m' } :=
  ⟨h.same.trans hsame, h.events, h.segments⟩

end Harmless

theorem phdrAddr_congr (himage : UserImage m buffer) (hsame : SameOn Kernel m m') :
    phdrAddr m' buffer i = phdrAddr m buffer i := by
  unfold phdrAddr
  rw [Ehdr.read_congr hsame himage.ehdr]

/-- What the size in a low header says of the three ranges it is used for. -/
theorem Low.ranges {ph : Phdr} (h : Low ph) (hvaddr : ph.vaddr < 2 ^ 32)
    (hsize : ph.filesz ≤ ph.memsz) :
    Within User ph.vaddr (segmentSize ph.memsz) ∧ Within User ph.vaddr ph.filesz ∧
      (ph.filesz < ph.memsz →
        Within User ((ph.vaddr + ph.filesz) % 2 ^ 32) (ph.memsz - ph.filesz)) := by
  unfold Low at h
  unfold segmentSize
  refine ⟨within_user ?_, within_user ?_, fun hlt => within_user ?_⟩
  · omega
  · omega
  · omega

theorem Harmless.loadSegment (h : Harmless m buffer s) (himage : UserImage m buffer)
    (hi : i < (Ehdr.read m buffer).phnum)
    (htype : (Phdr.read m (phdrAddr m buffer i)).type = PT_LOAD)
    (hsize : (Phdr.read m (phdrAddr m buffer i)).filesz ≤
    (Phdr.read m (phdrAddr m buffer i)).memsz) :
    Harmless m buffer (loadSegment buffer (phdrAddr m buffer i) s) := by
  have hkernel := himage.phdrs i hi
  have hread := Phdr.read_congr h.same hkernel
  obtain ⟨hmap, hcopy, hfill⟩ := (himage.segments i hi htype).ranges load32_lt hsize
  have hsame : SameOn Kernel s.mem (kmemcpy s.mem (Phdr.read m (phdrAddr m buffer i)).vaddr
      (buffer + (Phdr.read m (phdrAddr m buffer i)).offset)
      (Phdr.read m (phdrAddr m buffer i)).filesz) := kmemcpy_sameOn (not_kernel hcopy)
  have hreread := Phdr.read_congr (h.same.trans hsame) hkernel
  have happend : Harmless m buffer { s with
      segments := s.segments ++ [{ vaddr := (Phdr.read m (phdrAddr m buffer i)).vaddr
                                   base := (Phdr.read m (phdrAddr m buffer i)).vaddr
                                   size := segmentSize (Phdr.read m (phdrAddr m buffer i)).memsz }]
                                       } := by
    refine ⟨h.same, h.events, fun seg hseg => ?_⟩
    rcases List.mem_append.mp hseg with hseg | hseg
    · exact h.segments seg hseg
    · rw [List.mem_singleton.mp hseg]
      exact ⟨rfl, i, hi, htype, rfl, rfl⟩
  have hmapped := happend.log (e := .mmap _ _ (MMU_PROT_RW ||| MMU_PROT_USER)) hmap
  have hcopied := (hmapped.store hsame).log (e := .copy _ _) hcopy
  simp only [Loader.loadSegment, hread, State.log, hreread] at hcopied ⊢
  split_ifs with hlt
  · exact (hcopied.store (kmemset_sameOn (not_kernel (hfill hlt)))).log (e := .fill _ _) (hfill hlt)
  · exact hcopied

theorem Harmless.loadHeaders (h : Harmless m buffer s) (himage : UserImage m buffer)
    (hload : loadHeaders buffer fuel i s = (t, ok)) : Harmless m buffer t := by
  induction fuel generalizing i s with
  | zero =>
    simp only [Loader.loadHeaders, Prod.mk.injEq] at hload
    exact hload.1 ▸ h
  | succ fuel ih =>
    simp only [Loader.loadHeaders, Ehdr.read_congr h.same himage.ehdr,
      phdrAddr_congr himage h.same] at hload
    split_ifs at hload with hi htype hsize
    · exact (Prod.mk.inj hload).1 ▸ h
    · rw [Phdr.read_congr h.same (himage.phdrs i hi)] at htype hsize
      exact ih (h.loadSegment himage hi htype (Nat.le_of_not_lt hsize)) hload
    · exact ih h hload
    · exact (Prod.mk.inj hload).1 ▸ h

/-! ### Relocations -/

theorem sections_congr (himage : UserImage m buffer) (hsame : SameOn Kernel m m') :
    sections m' buffer = sections m buffer := by
  have haddr : ∀ i, shdrAddr m' buffer i = shdrAddr m buffer i := by
    intro i
    unfold shdrAddr
    rw [Ehdr.read_congr hsame himage.ehdr]
  unfold sections
  rw [Ehdr.read_congr hsame himage.ehdr]
  apply List.foldl_ext
  intro t i hi
  unfold readSection
  rw [haddr i, Shdr.read_congr hsame (himage.shdrs i (List.mem_range.mp hi))]

/-- An address that is translated lies in a segment of the file, and stays what it is. -/
theorem Harmless.translateAddr (h : Harmless m buffer s) {vaddr : Nat} (hvaddr : vaddr < 2 ^ 32)
    (hne : translateAddr s.segments vaddr ≠ 0) :
    translateAddr s.segments vaddr = vaddr ∧ ∃ i, i < (Ehdr.read m buffer).phnum ∧
      (Phdr.read m (phdrAddr m buffer i)).type = PT_LOAD ∧
      Covers (Phdr.read m (phdrAddr m buffer i)) vaddr := by
  unfold Loader.translateAddr at hne ⊢
  cases hfind : s.segments.find? fun seg => contains seg vaddr with
  | none =>
    rw [hfind] at hne
    exact absurd rfl hne
  | some seg =>
    have hcontains := List.find?_some hfind
    obtain ⟨hbase, i, hi, htype, hv, hs⟩ := h.segments seg (List.mem_of_find?_eq_some hfind)
    simp only [contains, Bool.and_eq_true, decide_eq_true_eq] at hcontains
    refine ⟨?_, i, hi, htype, ?_⟩
    · simp only [hbase]
      omega
    · unfold Covers
      rw [← hv, ← hs]
      exact hcontains

theorem Harmless.patch (h : Harmless m buffer s) {addr value : Nat} (haddr : addr + 4 ≤ 2 ^ 31) :
    Harmless m buffer (patch s addr value) := by
  have hin : Within User addr 4 := within_user (Or.inr haddr)
  exact (h.store (store32_sameOn (not_kernel hin))).log hin

theorem Harmless.relocateEntry (h : Harmless m buffer s) (himage : UserImage m buffer)
    (hj : j < (sections m buffer).relCount)
    (hreloc : Loader.relocateEntry (sections m buffer) j s = (t, ok)) : Harmless m buffer t := by
  have hread := Rel.read_congr h.same (himage.rels j hj)
  have hpatch : ∀ value, Loader.translateAddr s.segments
      (Rel.read m ((sections m buffer).rel + j * Rel.size)).offset ≠ 0 →
      Harmless m buffer (Loader.patch s (Loader.translateAddr s.segments
        (Rel.read m ((sections m buffer).rel + j * Rel.size)).offset) value) := by
    intro value hne
    have hword : (Rel.read m ((sections m buffer).rel + j * Rel.size)).offset < 2 ^ 32 := load32_lt
    obtain ⟨heq, i, hi, htype, hcovers⟩ := h.translateAddr hword hne
    rw [heq]
    exact h.patch (himage.targets j hj i hi htype hcovers)
  simp only [Loader.relocateEntry, hread] at hreloc
  split_ifs at hreloc <;> (obtain ⟨rfl, _⟩ := Prod.mk.inj hreloc)
  all_goals first | exact h | exact hpatch _ ‹_›

theorem Harmless.relocateEntries {count : Nat} (h : Harmless m buffer s)
    (himage : UserImage m buffer) (hj : j + count ≤ (sections m buffer).relCount)
    (hreloc : Loader.relocateEntries (sections m buffer) count j s = (t, ok)) :
    Harmless m buffer t := by
  induction count generalizing j s with
  | zero =>
    simp only [Loader.relocateEntries, Prod.mk.injEq] at hreloc
    exact hreloc.1 ▸ h
  | succ count ih =>
    simp only [Loader.relocateEntries] at hreloc
    cases hentry : Loader.relocateEntry (sections m buffer) j s with
    | mk u applied =>
      have hnext := h.relocateEntry himage (by omega) hentry
      rw [hentry] at hreloc
      cases applied with
      | true => exact ih hnext (by omega) hreloc
      | false => exact (Prod.mk.inj hreloc).1 ▸ hnext

theorem Harmless.extractSymbols (h : Harmless m buffer s) (tables : Tables) (is : List Nat) :
    Harmless m buffer (is.foldl (extractSymbol tables) s) := by
  induction is generalizing s with
  | nil => exact h
  | cons i is ih =>
    apply ih
    simp only [extractSymbol]
    split_ifs
    · exact h
    · exact ⟨h.same, h.events, h.segments⟩

theorem Harmless.relocate (h : Harmless m buffer s) (himage : UserImage m buffer) :
    Harmless m buffer (relocate buffer s).1 := by
  simp only [Loader.relocate, sections_congr himage h.same]
  cases hloop : Loader.relocateEntries (sections m buffer) (sections m buffer).relCount 0 s with
  | mk u applied =>
    have hnext := h.relocateEntries himage (by omega) hloop
    cases applied with
    | true => exact hnext.extractSymbols _ _
    | false => exact hnext

theorem harmless_init (mem : Memory) (buffer : Nat) : Harmless mem buffer (init mem) where
  same := .refl _ _
  events := by simp [init]
  segments := by simp [init]

theorem Harmless.loadProgram {mem : Memory} (filelen : Nat) (hlen : file.filelen = some filelen)
    (hbuffer : file.buffer ≠ 0)
    (himage : UserImage (storeBytes mem file.buffer file.bytes) file.buffer) :
    Harmless (storeBytes mem file.buffer file.bytes) file.buffer
      (loadProgram file (init mem)).1 := by
  have hread := harmless_init (storeBytes mem file.buffer file.bytes) file.buffer
  have hfail := hread.log (e := .kfree file.buffer) trivial
  simp only [Loader.loadProgram, hlen, if_neg hbuffer]
  split_ifs
  · exact hfail
  · exact hfail
  · exact hfail
  · exact hfail
  · cases hloop : Loader.loadHeaders file.buffer (2 ^ 16) 0
        (init (storeBytes mem file.buffer file.bytes)) with
    | mk u loaded =>
      have hnext := hread.loadHeaders himage hloop
      simp only [init] at hloop ⊢
      rw [hloop]
      cases loaded with
      | false => exact hnext.log (e := .kfree file.buffer) trivial
      | true =>
        have hdone := hnext.relocate himage
        have hentry : Harmless (storeBytes mem file.buffer file.bytes) file.buffer
            { (Loader.relocate file.buffer u).1 with
              entrypoint := Loader.translateAddr (Loader.relocate file.buffer u).1.segments
                (Ehdr.read (Loader.relocate file.buffer u).1.mem file.buffer).entry } :=
          ⟨hdone.same, hdone.events, hdone.segments⟩
        exact hentry.log (e := .kfree file.buffer) trivial

/-- An executable of 84 bytes whose segment, its first byte, goes to the address that the
four bytes `vaddr` give. -/
def tinyElf (vaddr : List UInt8) : List UInt8 :=
  [0x7F, 0x45, 0x4C, 0x46, 0, 0, 0, 0, 0, 0, 0, 0, 0, 0, 0, 0, 2, 0, 3, 0, 0, 0, 0, 0] ++
  [0, 0, 0, 0, 52, 0, 0, 0, 0, 0, 0, 0, 0, 0, 0, 0, 52, 0, 32, 0, 1, 0, 0, 0, 0, 0, 0, 0] ++
  [1, 0, 0, 0, 0, 0, 0, 0] ++ vaddr ++
  [0, 0, 0, 0, 1, 0, 0, 0, 1, 0, 0, 0, 0, 0, 0, 0, 0, 0, 0, 0]

def tinyFile (vaddr : List UInt8) : File where
  filelen := some 84
  buffer := 0xF2000010
  result := 84
  bytes := tinyElf vaddr

theorem tinyFile_userImage :
    UserImage (storeBytes (fun _ => 0) 0xF2000010 (tinyElf [0, 0x80, 4, 8])) 0xF2000010 := by
  have hehdr : Ehdr.read (storeBytes (fun _ => 0) 0xF2000010 (tinyElf [0, 0x80, 4, 8])) 0xF2000010 =
      { ident := ELFMAG, type := ET_EXEC, machine := EM_386, entry := 0, phoff := 52, shoff := 0
        phentsize := 32, phnum := 1, shentsize := 0, shnum := 0 } := by
    decide +kernel
  have hphdr : Phdr.read (storeBytes (fun _ => 0) 0xF2000010 (tinyElf [0, 0x80, 4, 8])) 0xF2000044 =
      { type := PT_LOAD, offset := 0, vaddr := 0x08048000, filesz := 1, memsz := 1 } := by
    decide +kernel
  have hnone : (sections (storeBytes (fun _ => 0) 0xF2000010 (tinyElf [0, 0x80, 4, 8]))
      0xF2000010).relCount = 0 := by
    simp only [sections, hehdr, List.range_zero, List.foldl_nil]
  have haddr : ∀ i, i < 1 → phdrAddr (storeBytes (fun _ => 0) 0xF2000010
      (tinyElf [0, 0x80, 4, 8])) 0xF2000010 i = 0xF2000044 := by
    intro i hi
    simp only [phdrAddr, hehdr]
    omega
  refine
    { ehdr := ?_
      phdrs := ?_
      shdrs := ?_
      rels := ?_
      segments := ?_
      targets := ?_ }
  · intro i hi
    unfold Ehdr.size at hi
    unfold Kernel User
    omega
  · intro i hi k hk
    simp only [hehdr] at hi
    rw [haddr i hi]
    unfold Phdr.size at hk
    unfold Kernel User
    omega
  · intro i hi
    simp only [hehdr] at hi
    omega
  · intro j hj
    omega
  · intro i hi _
    simp only [hehdr] at hi
    rw [haddr i hi, hphdr]
    exact Or.inr (by decide)
  · intro j hj
    omega

end OsdevCourse.Loader
