import OsdevCourse.DiskTransfers
import OsdevCourse.KmallocSizes
import OsdevCourse.Loader

/-!
# The buffer of a program file

`load_program` asks for as many bytes as the low 32 bits of the length say, and reads as
many as all 64 bits say, cut down only to what is on the disk. How long the block is that
`kmalloc` returns depends on what the heap went through; what it is at least is the size
that the request is rounded to, and a heap without free blocks gives no more.
-/

namespace OsdevCourse

set_option autoImplicit false

open Memory

namespace Kmalloc
variable {l : Layout} {fuel n p size : Nat} {c : FreeList} {m t : Machine} {k : Kernel}

theorem requestClass_lt (h : requestClass n = (c, size)) : size < 2 ^ 32 := by
  have hround : roundSize n < 2 ^ 32 := by
    unfold roundSize
    omega
  simp only [requestClass] at h
  split_ifs at h <;> cases h <;> omega

theorem Inv.dvd_heapMem (h : Inv l m) : 16 ∣ heapMem m.kernel.heap := by
  obtain ⟨bs, harena, _⟩ := h.blocks
  rw [h.heapMem_eq]
  refine harena.tiles.dvd_end ?_ fun x hx => (harena.granted x hx).1
  have haligned := l.aligned
  unfold heapStart
  omega

/-- A block that `kmalloc` returns is as long as the rounded request. -/
theorem Inv.requested_le (h : Inv l m) (hstep : Step l m (.kmalloc n p) t) (hp : p ≠ 0) :
    (requestClass n).2 ≤ t.blockSize (p - 16) := by
  obtain ⟨fuel, k, hcall, rfl⟩ := hstep
  rcases hreq : requestClass n with ⟨c, size⟩
  obtain ⟨bs, harena, hperm⟩ := h.blocks
  obtain ⟨mem, node, hsearch, hcases⟩ := kmalloc_cases hreq h.heapMem_ne hcall
  rw [Machine.blockSize, Machine.returned_kernel]
  rcases hcases with ⟨hnode, rfl, rfl⟩ | ⟨_, _, rfl, _⟩ | ⟨_, _, hpayload, rfl⟩
  · rcases harena.search_spec hreq hsearch with ⟨hzero, _⟩ | ⟨_, hfound⟩
    · exact absurd hzero hnode
    · have hmem := harena.free_block node hfound.isFree
      have hsize : sizeField mem node = m.blockSize node := Inv.sizes_of_found harena hfound hmem
      rw [h.payload_eq harena hmem, Nat.add_sub_cancel, hsize]
      exact hfound.fits
  · exact absurd rfl hp
  · -- a pointer that goes round the address space is the null pointer
    have hdvd := h.dvd_heapMem
    have hlt : heapMem m.kernel.heap < 2 ^ 32 := Nat.mod_lt _ (by omega)
    have hnode : p - 16 = heapMem m.kernel.heap := by
      unfold payload at hpayload
      omega
    rw [hnode]
    exact Nat.le_of_eq (sizeField_setSize (requestClass_lt hreq)).symm

/-- The last place of the bump pointer at which a block begins that a pointer can be given to. -/
def lastPtr (l : Layout) : Nat := min (2 ^ 24 - 16) (2 ^ 32 - heapStart l - 32)

/-- No state of the heap serves a request of this size. -/
def NeverServed (l : Layout) (size : Nat) : Prop := 2 ^ 24 ≤ size ∧ size + lastPtr l < 2 ^ 32

theorem Inv.starved (h : Inv l m) (hnever : NeverServed l (requestClass n).2)
    (hstep : Step l m (.kmalloc n p) t) : p = 0 := by
  obtain ⟨fuel, k, hcall, rfl⟩ := hstep
  obtain ⟨hlo, hhi⟩ := hnever
  rcases hreq : requestClass n with ⟨c, size⟩
  rw [hreq] at hlo hhi
  obtain ⟨bs, harena, hperm⟩ := h.blocks
  have hptr := h.ptr_lt
  have hlimit := h.limit_eq
  obtain ⟨mem, node, hsearch, hcases⟩ := kmalloc_cases hreq h.heapMem_ne hcall
  rcases hcases with ⟨hnode, _⟩ | ⟨_, _, hzero, _⟩ | ⟨_, hroom, hpayload, _⟩
  · rcases harena.search_spec hreq hsearch with ⟨hzero, _⟩ | ⟨_, hfound⟩
    · exact absurd hzero hnode
    · have hin := harena.tiles.within (harena.free_block node hfound.isFree)
      have hfit := hfound.fits
      omega
  · exact hzero
  · have hdvd := h.dvd_heapMem
    have hmem := h.heapMem_eq
    have hfits := l.fits
    have hstart : heapStart l = l.kernelEnd + 4096 := rfl
    have haligned := l.aligned
    unfold heapFull at hroom
    unfold lastPtr at hhi
    unfold payload at hpayload
    omega

theorem kmalloc_new (hreq : requestClass n = (c, size)) (hmem : heapMem k.heap ≠ 0)
    (hlists : ∀ c, nextField k.mem (l.node c) = 0) (hroom : ¬ heapFull k.heap size) :
    kmalloc l 1 n k = some
      ({ mem := setSize k.mem (heapMem k.heap) size
         heap := heapBump k.heap size
         mapped := k.mapped ++ heapMap k.heap size }, payload (heapMem k.heap)) := by
  have hsearch : searchList l 1 c size k.mem = some (k.mem, 0) := by
    simp [searchList, takeFirst, takeFit, hlists]
  simp [kmalloc, hreq, hsearch, heapAlloc, hroom, hmem]

theorem Inv.new_block (h : Inv l m) (hlists : ∀ c, nextField m.kernel.mem (l.node c) = 0)
    (hroom : ¬ heapFull m.kernel.heap (requestClass n).2)
    (hend : heapMem m.kernel.heap + 16 < 2 ^ 32) :
    ∃ p t, Step l m (.kmalloc n p) t ∧ p ≠ 0 ∧ t.blockSize (p - 16) = (requestClass n).2 := by
  rcases hreq : requestClass n with ⟨c, size⟩
  rw [hreq] at hroom
  have hpayload : payload (heapMem m.kernel.heap) = heapMem m.kernel.heap + 16 :=
    Nat.mod_eq_of_lt hend
  refine ⟨_, _, ⟨1, _, kmalloc_new hreq h.heapMem_ne hlists hroom, rfl⟩, ?_, ?_⟩
  · rw [hpayload]
    omega
  · rw [Machine.blockSize, Machine.returned_kernel, hpayload, Nat.add_sub_cancel]
    exact sizeField_setSize (requestClass_lt hreq)

def emptyKernel (l : Layout) : Kernel := { mem := fun _ => 0, heap := kheap l, mapped := [] }

theorem emptyKernel_boot (l : Layout) : Boot l (emptyKernel l) := ⟨rfl, fun _ => rfl⟩

theorem full_heap (l : Layout) : ∃ as m, Run (Guarded (Step l) (Careful l))
    ⟨emptyKernel l, [], []⟩ as m ∧
    m.kernel.heap.ptr = lastPtr l ∧ ∀ c, nextField m.kernel.mem (l.node c) = 0 := by
  have hinv := (emptyKernel_boot l).inv
  have hfits := l.fits
  have haligned := l.aligned
  have hstart : heapStart l = l.kernelEnd + 4096 := rfl
  have hlast : 2 ^ 24 - 32 ≤ lastPtr l ∧ lastPtr l < 2 ^ 24 ∧ 16 ∣ lastPtr l := by
    unfold lastPtr
    omega
  have hreq : requestClass (lastPtr l - 16) = (.large, lastPtr l) := by
    have hround : roundSize (lastPtr l - 16) = lastPtr l := by
      unfold roundSize
      omega
    unfold requestClass
    simp only [hround]
    rw [if_neg (by omega), if_neg (by omega), if_neg (by omega)]
  have hroom : ¬ heapFull (emptyKernel l).heap (lastPtr l) := by
    intro hfull
    have hle : 1024 * 1024 * 16 ≤ (0 + lastPtr l) % 2 ^ 32 := hfull
    omega
  have hlists : ∀ c, nextField (emptyKernel l).mem (l.node c) = 0 := fun _ => rfl
  have hcall := kmalloc_new hreq hinv.heapMem_ne hlists hroom
  have hcareful : Careful l ⟨emptyKernel l, [], []⟩
      (.kmalloc (lastPtr l - 16) (payload (heapMem (emptyKernel l).heap))) := by
    refine ⟨by omega, Or.inl ⟨by omega, ?_⟩⟩
    rw [hreq]
    exact Nat.lt_of_le_of_lt (Nat.le_of_eq (Nat.zero_add _)) (by omega)
  refine ⟨_, _, .single ⟨hcareful, 1, _, hcall, rfl⟩, ?_, ?_⟩
  · rw [Machine.returned_kernel]
    have hbump : (heapBump (emptyKernel l).heap (lastPtr l)).ptr = (0 + lastPtr l) % 2 ^ 32 := rfl
    exact hbump.trans (by omega)
  · intro c
    rw [Machine.returned_kernel]
    have hbelow := l.node_below c
    have hmem : heapMem (emptyKernel l).heap = heapStart l + 0 := hinv.heapMem_eq
    have hsame : nextField (setSize (emptyKernel l).mem (heapMem (emptyKernel l).heap) (lastPtr l))
        (l.node c) = nextField (emptyKernel l).mem (l.node c) :=
      read32_write32_of_disjoint (by omega)
    exact hsame.trans (hlists c)

theorem exact_block (l : Layout) (hserved : ¬ NeverServed l (requestClass n).2) :
    ∃ as m p t, Run (Guarded (Step l) (Careful l)) ⟨emptyKernel l, [], []⟩ as m ∧
      Step l m (.kmalloc n p) t ∧ p ≠ 0 ∧ t.blockSize (p - 16) = (requestClass n).2 := by
  have hfits := l.fits
  have hstart : heapStart l = l.kernelEnd + 4096 := rfl
  rcases hreq : requestClass n with ⟨c, size⟩
  have hlt := requestClass_lt hreq
  have hdvd : 16 ∣ size := (requestClass_spec hreq).2.1.1
  rw [hreq] at hserved
  unfold NeverServed at hserved
  rcases Nat.lt_or_ge size (2 ^ 24) with hsmall | hlarge
  · have hinv := (emptyKernel_boot l).inv
    have hlists : ∀ c, nextField (emptyKernel l).mem (l.node c) = 0 := fun _ => rfl
    have hmem : heapMem (emptyKernel l).heap = heapStart l + 0 := hinv.heapMem_eq
    have hroom : ¬ heapFull (emptyKernel l).heap (requestClass n).2 := by
      rw [hreq]
      intro hfull
      have hle : 1024 * 1024 * 16 ≤ (0 + size) % 2 ^ 32 := hfull
      omega
    have hend : heapMem (emptyKernel l).heap + 16 < 2 ^ 32 := by omega
    obtain ⟨p, t, hstep, hp, hsize⟩ := hinv.new_block hlists hroom hend
    rw [hreq] at hsize
    exact ⟨[], _, p, t, .nil _, hstep, hp, hsize⟩
  · obtain ⟨as, m, hrun, hptr, hlists⟩ := full_heap l
    have hinv := Inv.of_careful (emptyKernel_boot l) hrun
    have hmem := hinv.heapMem_eq
    have hlimit := hinv.limit_eq
    unfold lastPtr at hptr hserved
    have hroom : ¬ heapFull m.kernel.heap (requestClass n).2 := by
      rw [hreq]
      unfold heapFull
      omega
    obtain ⟨p, t, hstep, hp, hsize⟩ := hinv.new_block hlists hroom (by omega)
    rw [hreq] at hsize
    exact ⟨as, m, p, t, hrun, hstep, hp, hsize⟩

end Kmalloc

namespace Loader

open Tarfs
open Kmalloc (Layout Boot Careful Inv NeverServed requestClass smallImage bootKernel)

variable {l : Layout} {d : Ramdisk} {stack fstatStack readStack : Stack} {filename : List UInt8}
  {fuel cursor filelen len n : Nat}

/-- What the tar file system answers about a file and stores into the buffer. The local headers
of the two calls hold what they hold. -/
structure Opened (d : Ramdisk) (fstatStack readStack : Stack) (filename : List UInt8)
    (file : File) : Prop where
  fstat : ∃ fuel, tarfsFstat d fstatStack fuel filename = some file.filelen
  read : ∀ filelen, file.filelen = some filelen →
    ∃ fuel, tarfsRead d readStack fuel filename 0 filelen = some (file.result, file.bytes)

/-- In a heap with any history the block for a file has room for what is read into it. -/
def FitsBuffer (l : Layout) (d : Ramdisk) (fstatStack readStack : Stack) (filename : List UInt8) :
    Prop :=
  ∀ file filelen k as m t, Opened d fstatStack readStack filename file →
    file.filelen = some filelen →
    Boot l k → Run (Guarded (Kmalloc.Step l) (Careful l)) ⟨k, [], []⟩ as m →
    Kmalloc.Step l m (.kmalloc (filelen % 2 ^ 32) file.buffer) t → file.buffer ≠ 0 →
    file.bytes.length ≤ t.blockSize (file.buffer - 16) - 16

/-- How many bytes the disk stores of `n` that are asked for behind the header at `cursor`. -/
def storedCount (d : Ramdisk) (cursor n : Nat) : Nat :=
  if d.size ≤ cursor + 512 then 0
  else if 2 ^ 64 ≤ cursor + 512 + n then n % 2 ^ 32
  else min n (d.size - (cursor + 512))

theorem read_length (hn : n < 2 ^ 64) :
    (d.read (cursor + 512) n).2.length = storedCount d cursor n := by
  have hlt := d.size_lt
  unfold storedCount
  split_ifs with hend hwrap
  · rw [Ramdisk.read, if_pos hend]
    rfl
  · have hkeep : clampSize d.size (cursor + 512) n = n := by
      unfold clampSize
      rw [if_neg (by omega)]
    rw [Ramdisk.read, if_neg hend]
    simp only [hkeep, readBytes_length]
  · rw [Ramdisk.read_eq (by omega) (by omega), readBytes_length]

theorem tarfsRead_length {r : Int} {bs : List UInt8}
    (hfound : scan d stack filename fuel 0 = some (.found cursor len)) (hn : n < 2 ^ 64)
    (hread : tarfsRead d stack fuel filename 0 n = some (r, bs)) :
    bs.length = storedCount d cursor (min n len) := by
  obtain ⟨hin, _, hlen⟩ := scan_found hfound
  have hlt := d.size_lt
  rcases Nat.eq_zero_or_pos len with rfl | hpos
  · unfold tarfsRead at hread
    simp only [hfound, Nat.le_refl, if_true, Option.some.injEq, Prod.mk.injEq] at hread
    rw [← hread.2, Nat.min_zero]
    unfold storedCount
    split_ifs
    · rfl
    · rfl
    · rw [Nat.zero_min]
      rfl
  · have hclamp : clampSize len 0 n = min n len := Ramdisk.clampSize_eq (Nat.zero_le _) (by omega)
    have hcursor : (cursor + 512 + 0) % 2 ^ 64 = cursor + 512 := Nat.mod_eq_of_lt (by omega)
    rw [tarfsRead_found hfound hpos, hclamp, hcursor, Option.some.injEq] at hread
    rw [← read_length (by omega), hread]

theorem tarfsFstat_found (hstat : tarfsFstat d stack fuel filename = some (some filelen)) :
    ∃ cursor, scan d stack filename fuel 0 = some (.found cursor filelen) := by
  unfold tarfsFstat at hstat
  cases hscan : scan d stack filename fuel 0 with
  | none => simp [hscan] at hstat
  | some r =>
    cases r with
    | failed => simp [hscan] at hstat
    | missing => simp [hscan] at hstat
    | found cursor len =>
      simp only [hscan, Option.some.injEq] at hstat
      exact ⟨cursor, by rw [hstat]⟩

theorem tarfsRead_cases {r : Int} {bs : List UInt8}
    (hread : tarfsRead d stack fuel filename 0 n = some (r, bs)) :
    bs = [] ∨ ∃ cursor len, scan d stack filename fuel 0 = some (.found cursor len) := by
  cases hscan : scan d stack filename fuel 0 with
  | none => simp [tarfsRead, hscan] at hread
  | some result =>
    cases result with
    | failed =>
      simp only [tarfsRead, hscan, Option.some.injEq, Prod.mk.injEq] at hread
      exact Or.inl hread.2.symm
    | missing =>
      simp only [tarfsRead, hscan, Option.some.injEq, Prod.mk.injEq] at hread
      exact Or.inl hread.2.symm
    | found cursor len => exact Or.inr ⟨cursor, len, rfl⟩

theorem opened_of_found {cursor' fuel' : Nat} (buffer : Nat)
    (hstat : scan d fstatStack filename fuel 0 = some (.found cursor filelen))
    (hread : scan d readStack filename fuel' 0 = some (.found cursor' len)) :
    ∃ file : File, Opened d fstatStack readStack filename file ∧ file.filelen = some filelen ∧
      file.buffer = buffer ∧ file.bytes.length = storedCount d cursor' (min filelen len) := by
  obtain ⟨_, _, hlen⟩ := scan_found hstat
  obtain ⟨⟨r, bs⟩, hresult⟩ : ∃ result, tarfsRead d readStack fuel' filename 0 filelen =
      some result := by
    unfold tarfsRead
    rw [hread]
    simp only
    split_ifs
    · exact ⟨_, rfl⟩
    · exact ⟨_, rfl⟩
  refine ⟨⟨some filelen, buffer, r, bs⟩, ⟨⟨fuel, ?_⟩, ?_⟩, rfl, rfl,
    tarfsRead_length hread hlen hresult⟩
  · unfold tarfsFstat
    rw [hstat]
  · intro v hv
    cases hv
    exact ⟨fuel', hresult⟩

/-- A file fits its buffer exactly when what is read is not more than the request is rounded to,
or when no heap gives a buffer. -/
theorem fitsBuffer_iff (l : Layout) (d : Ramdisk) (fstatStack readStack : Stack)
    (filename : List UInt8) : FitsBuffer l d fstatStack readStack filename ↔
      ∀ fuel fuel' cursor filelen cursor' len,
        scan d fstatStack filename fuel 0 = some (.found cursor filelen) →
        scan d readStack filename fuel' 0 = some (.found cursor' len) →
        storedCount d cursor' (min filelen len) + 16 ≤ (requestClass (filelen % 2 ^ 32)).2 ∨
          NeverServed l (requestClass (filelen % 2 ^ 32)).2 := by
  constructor
  · intro hfits fuel fuel' cursor filelen cursor' len hstat hread
    by_contra hbad
    obtain ⟨hshort, hserved⟩ := not_or.mp hbad
    obtain ⟨as, m, p, t, hrun, hstep, hp, hsize⟩ := Kmalloc.exact_block l hserved
    obtain ⟨file, hopened, hfilelen, rfl, hlen⟩ := opened_of_found p hstat hread
    have hle := hfits file filelen _ as m t hopened hfilelen
      (Kmalloc.emptyKernel_boot l) hrun hstep hp
    have hpos : 64 ≤ (requestClass (filelen % 2 ^ 32)).2 := (Kmalloc.requestClass_spec rfl).2.1.pos
    rw [hlen, hsize] at hle
    omega
  · intro hcond file filelen k as m t hopened hfilelen hboot hrun hstep hp
    have hinv := Inv.of_careful hboot hrun
    obtain ⟨fuel, hstat⟩ := hopened.fstat
    obtain ⟨fuel', hread⟩ := hopened.read filelen hfilelen
    rw [hfilelen] at hstat
    obtain ⟨cursor, hfound⟩ := tarfsFstat_found hstat
    rcases tarfsRead_cases hread with hnone | ⟨cursor', len, hfound'⟩
    · rw [hnone]
      exact Nat.zero_le _
    · have hlen := tarfsRead_length hfound' (scan_found hfound).2.2 hread
      rcases hcond fuel fuel' cursor filelen cursor' len hfound hfound' with hroom | hnever
      · have hle := hinv.requested_le hstep hp
        omega
      · exact absurd (hinv.starved hnever hstep) hp

/-- A file `a` whose header gives it the length `2 ^ 32` on a disk of four blocks. -/
def longFileDisk : Ramdisk where
  memory i := if i = 0 then 97 else if i = 124 then 52 else if 125 ≤ i ∧ i < 135 then 48 else 0
  size := 2048
  size_lt := by omega

theorem scan_longFile (stack : Stack) : scan longFileDisk stack [97] 1 0 = some
    (.found 0 (2 ^ 32)) := by
  have hbyte : ∀ n, n < 511 → header longFileDisk stack 0 n = longFileDisk.memory (0 + n) :=
    fun n hn => header_byte hn (Nat.lt_of_lt_of_le (Nat.add_lt_add_left hn 0) (by decide))
  have hdigits : Stored (header longFileDisk stack 0) filelenOffset
      ((52 :: List.replicate 10 48) ++ [0]) := by
    unfold filelenOffset
    simp only [List.replicate, List.cons_append, List.nil_append, Stored, Nat.reduceAdd]
    refine ⟨hbyte 124 ?_, hbyte 125 ?_, hbyte 126 ?_, hbyte 127 ?_, hbyte 128 ?_, hbyte 129 ?_,
      hbyte 130 ?_, hbyte 131 ?_, hbyte 132 ?_, hbyte 133 ?_, hbyte 134 ?_, hbyte 135 ?_,
        True.intro⟩ <;> omega
  obtain ⟨i, hi, hlt, _⟩ := stack.nul 0
  have hlen : headerLen longFileDisk stack 0 = some (2 ^ 32) := by
    refine (octLoop_digits hdigits ?_ (by decide) ?_).trans rfl
    · simp [OctalDigit]
    · simp only [List.length_cons, List.length_replicate]
      omega
  have hname : Tarfs.kstrcmp (header longFileDisk stack 0) 0 [97] = 0 := by
    have hfirst : header longFileDisk stack 0 0 = 97 := hbyte 0 (by omega)
    have hnul : header longFileDisk stack 0 1 = 0 := hbyte 1 (by omega)
    simp [Tarfs.kstrcmp, hfirst, hnul]
  rw [scan_succ (Nat.succ_pos 2047) hlen, if_neg (not_not.mpr hname)]

/-- 1536 bytes are read into a block of 64. -/
theorem long_file_overflows_buffer : ¬ ∀ (l : Layout) (d : Ramdisk) (fstatStack readStack : Stack)
    (filename : List UInt8), FitsBuffer l d fstatStack readStack filename := by
  intro hclaim
  have hfits := hclaim smallImage longFileDisk zeroStack zeroStack [97]
  obtain ⟨file, hopened, hfilelen, hbuffer, hlen⟩ :=
    opened_of_found 0xF0121010 (scan_longFile zeroStack) (scan_longFile zeroStack)
  have hboot : Boot smallImage bootKernel := ⟨rfl, fun c => by cases c <;> rfl⟩
  obtain ⟨t, hstep, hsize⟩ : ∃ t, Kmalloc.Step smallImage ⟨bootKernel, [], []⟩
      (.kmalloc (2 ^ 32 % 2 ^ 32) 0xF0121010) t ∧ t.blockSize (0xF0121010 - 16) = 64 :=
    ⟨_, ⟨0, _, rfl, rfl⟩, rfl⟩
  rw [← hbuffer] at hstep hsize
  have hle := hfits file (2 ^ 32) _ [] _ t hopened hfilelen hboot (.nil _) hstep (by omega)
  have hdisk : longFileDisk.size = 2048 := rfl
  have hcount : storedCount longFileDisk 0 (min (2 ^ 32) (2 ^ 32)) = 1536 := by
    unfold storedCount
    rw [hdisk, if_neg (by omega), if_neg (by omega)]
    omega
  rw [hlen, hcount, hsize] at hle
  exact absurd hle (by omega)

end Loader

end OsdevCourse
