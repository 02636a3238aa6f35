import OsdevCourse.Elf
import OsdevCourse.Ramdisk

/-!
# The program loader

`load_program` reads a file into a buffer, maps and fills its segments and applies its
relocations. Everything is read through the buffer, at the time the source reads it: a
copy that runs over the buffer changes what is read afterwards. The calls that reach
outside the loader are logged as events.
-/

namespace OsdevCourse.Loader

set_option autoImplicit false

open Elf

def MMU_PROT_RW : Nat := 0x0002
def MMU_PROT_USER : Nat := 0x0004

structure Segment where
  vaddr : Nat
  base : Nat
  size : Nat
  deriving DecidableEq

/-- `name` is the address of a string. -/
structure Symbol where
  name : Nat
  addr : Nat
  deriving DecidableEq

inductive Event where
  | mmap (addr size flag : Nat)
  | copy (des len : Nat)
  | fill (des len : Nat)
  | patch (addr : Nat)
  | kfree (ptr : Nat)
  deriving DecidableEq

structure State where
  mem : Memory
  segments : List Segment
  symbols : List Symbol
  entrypoint : Nat
  events : List Event

/-- What the file system and the allocator answer: `fstat`, the address of the buffer (0 if
there is none), and the result of `read` with the bytes it stores. -/
structure File where
  filelen : Option Nat
  buffer : Nat
  result : Int
  bytes : List UInt8

/-- A loader that has just been constructed. -/
def init (mem : Memory) : State :=
  { mem := mem, segments := [], symbols := [], entrypoint := 0, events := [] }

def State.log (s : State) (e : Event) : State := { s with events := s.events ++ [e] }

/-! ### Segments -/

def contains (seg : Segment) (vaddr : Nat) : Bool :=
  seg.vaddr ≤ vaddr && vaddr ≤ (seg.vaddr + seg.size) % 2 ^ 32

def getBase (segments : List Segment) (vaddr : Nat) : Nat :=
  match segments.find? fun seg => contains seg vaddr with
  | some seg => (seg.base + 2 ^ 32 - seg.vaddr) % 2 ^ 32
  | none => 0

def translateAddr (segments : List Segment) (vaddr : Nat) : Nat :=
  match segments.find? fun seg => contains seg vaddr with
  | some seg => (vaddr - seg.vaddr + seg.base) % 2 ^ 32
  | none => 0

/-- `(((size_t)elf_phdr->p_memsz + 4095)>>12)<<12` -/
def segmentSize (memsz : Nat) : Nat := (memsz + 4095) % 2 ^ 32 / 4096 * 4096

def phdrAddr (m : Memory) (buffer i : Nat) : Nat :=
  buffer + (Ehdr.read m buffer).phoff + i * (Ehdr.read m buffer).phentsize

/-- The case `PT_LOAD`, with the header at the address `addr`. -/
def loadSegment (buffer addr : Nat) (s : State) : State :=
  let ph := Phdr.read s.mem addr
  let seg : Segment := { vaddr := ph.vaddr, base := ph.vaddr, size := segmentSize ph.memsz }
  let s := { s with segments := s.segments ++ [seg] }
  let s := s.log (.mmap seg.base seg.size (MMU_PROT_RW ||| MMU_PROT_USER))
  let s := { s with mem := kmemcpy s.mem seg.base (buffer + ph.offset) ph.filesz }
  let s := s.log (.copy seg.base ph.filesz)
  -- the header is read again: the copy may have changed it
  let ph := Phdr.read s.mem addr
  if ph.filesz < ph.memsz then
    let des := (seg.base + ph.filesz) % 2 ^ 32
    let s := { s with mem := kmemset s.mem des 0 (ph.memsz - ph.filesz) }
    s.log (.fill des (ph.memsz - ph.filesz))
  else s

/-- The loop over the program headers. `e_phnum` has 16 bits, so that it is over before the
fuel `2 ^ 16` is. -/
def loadHeaders (buffer : Nat) : Nat → Nat → State → State × Bool
  | 0, _, s => (s, true)
  | fuel + 1, i, s =>
    if i < (Ehdr.read s.mem buffer).phnum then
      let ph := Phdr.read s.mem (phdrAddr s.mem buffer i)
      if ph.type = PT_LOAD then
        if ph.memsz < ph.filesz then (s, false)
        else loadHeaders buffer fuel (i + 1) (loadSegment buffer (phdrAddr s.mem buffer i) s)
      else loadHeaders buffer fuel (i + 1) s
    else (s, true)

/-! ### Relocations -/

/-- The variables that the loop over the section headers sets. -/
structure Tables where
  sym : Nat
  symCount : Nat
  symName : Nat
  rel : Nat
  relCount : Nat
  deriving DecidableEq

def shdrAddr (m : Memory) (buffer i : Nat) : Nat :=
  buffer + (Ehdr.read m buffer).shoff + i * (Ehdr.read m buffer).shentsize

def readSection (m : Memory) (buffer : Nat) (t : Tables) (i : Nat) : Tables :=
  let sh := Shdr.read m (shdrAddr m buffer i)
  if sh.type = SHT_SYNSYM then
    { t with
      sym := buffer + sh.offset
      symCount := sh.size / Sym.size
      symName := buffer + sh.offset + sh.size }
  else if sh.type = SHT_REL then
    { t with rel := buffer + sh.offset, relCount := sh.size / Rel.size }
  else t

def sections (m : Memory) (buffer : Nat) : Tables :=
  (List.range (Ehdr.read m buffer).shnum).foldl (readSection m buffer)
    { sym := 0, symCount := 0, symName := 0, rel := 0, relCount := 0 }

/-- `kstrcmp` on two addresses; strings without a NUL go round the address space. -/
def kstrcmp (m : Memory) : Nat → Nat → Nat → Bool
  | 0, _, _ => false
  | fuel + 1, a, b =>
    if load8 m a ≠ 0 ∧ load8 m b ≠ 0 then
      if load8 m a = load8 m b then kstrcmp m fuel (a + 1) (b + 1) else false
    else load8 m a = 0 ∧ load8 m b = 0

def getAddr (s : State) (symbol : Nat) : Nat :=
  match s.symbols.find? fun sym => kstrcmp s.mem (2 ^ 32) sym.name symbol with
  | some sym => sym.addr
  | none => 0

/-- `*(uint32_t*)patchaddr = value` -/
def patch (s : State) (patchaddr value : Nat) : State :=
  { s with mem := store32 s.mem patchaddr value }.log (.patch patchaddr)

/-- One turn of the loop over the relocations; false stands for `return false`. -/
def relocateEntry (t : Tables) (j : Nat) (s : State) : State × Bool :=
  let rel := Rel.read s.mem (t.rel + j * Rel.size)
  let sym := Sym.read s.mem (t.sym + rel.sym * Sym.size)
  let patchaddr := translateAddr s.segments rel.offset
  if rel.type = R_386_32 then
    if t.symCount ≤ rel.sym then (s, false)
    else if patchaddr = 0 then (s, false)
    else
      let patch32 := translateAddr s.segments sym.value
      if patch32 = 0 then (s, false)
      else (patch s patchaddr ((load32 s.mem patchaddr + patch32) % 2 ^ 32), true)
  else if rel.type = R_386_PC32 then
    if t.symCount ≤ rel.sym then (s, false)
    else if patchaddr = 0 then (s, false)
    else
      let patch32 :=
        if sym.value ≠ 0 then translateAddr s.segments sym.value
        else getAddr s (t.symName + sym.name)
      if patch32 = 0 then (s, false)
      else (patch s patchaddr ((patch32 + 2 ^ 32 - (patchaddr + 4) % 2 ^ 32) % 2 ^ 32), true)
  else if rel.type = R_386_RELATIVE then
    if patchaddr = 0 then (s, false)
    else
      (patch s patchaddr ((load32 s.mem patchaddr + getBase s.segments rel.offset) % 2 ^ 32), true)
  else (s, false)

/-- The turns `j`, `j + 1` and so on of the loop, as many as there are left. -/
def relocateEntries (t : Tables) : Nat → Nat → State → State × Bool
  | 0, _, s => (s, true)
  | count + 1, j, s =>
    match relocateEntry t j s with
    | (s, true) => relocateEntries t count (j + 1) s
    | (s, false) => (s, false)

def extractSymbol (t : Tables) (s : State) (i : Nat) : State :=
  let sym := Sym.read s.mem (t.sym + i * Sym.size)
  if sym.name = 0 then s
  else
    { s with
      symbols := s.symbols ++
        [{ name := (t.symName + sym.name) % 2 ^ 32, addr := translateAddr s.segments sym.value }] }

def relocate (buffer : Nat) (s : State) : State × Bool :=
  let t := sections s.mem buffer
  match relocateEntries t t.relCount 0 s with
  | (s, false) => (s, false)
  | (s, true) => ((List.range t.symCount).foldl (extractSymbol t) s, true)

/-! ### Loading -/

def loadProgram (file : File) (s : State) : State × Bool :=
  match file.filelen with
  | none => (s, false)
  | some filelen =>
    if file.buffer = 0 then (s, false)
    else
      let s := { s with mem := storeBytes s.mem file.buffer file.bytes }
      let ehdr := Ehdr.read s.mem file.buffer
      if file.result ≠ toInt64 filelen then (s.log (.kfree file.buffer), false)
      else if ehdr.ident ≠ ELFMAG then (s.log (.kfree file.buffer), false)
      else if ehdr.machine ≠ EM_386 then (s.log (.kfree file.buffer), false)
      else if ehdr.type ≠ ET_EXEC then (s.log (.kfree file.buffer), false)
      else
        match loadHeaders file.buffer (2 ^ 16) 0 s with
        | (s, false) => (s.log (.kfree file.buffer), false)
        | (s, true) =>
          -- the result of `relocate` is not looked at
          let s := (relocate file.buffer s).1
          let entry := (Ehdr.read s.mem file.buffer).entry
          let s := { s with entrypoint := translateAddr s.segments entry }
          (s.log (.kfree file.buffer), true)

end OsdevCourse.Loader
