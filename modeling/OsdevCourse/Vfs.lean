import OsdevCourse.CString
import OsdevCourse.Reachability
import OsdevCourse.Tarfs

/-!
# The mount table: `vfs.cpp`

`mount` copies the mount point into the next free entry, `find` goes over the entries in
order and compares as many characters as the mount point has. A mount point is copied into
256 bytes and can be cut; `path_len` is the length of what was copied. The functions of a
driver are parameters, over whatever state they change.
-/

namespace OsdevCourse.Vfs

set_option autoImplicit false

open Memory
open Tarfs (char char_eq_iff)

/-! `kstrncpy` and `kstrncmp`. -/

def store (m : Memory) (a : Nat) (c : UInt8) : Memory := fun x => if x = a then c else m x

/-- The loop of `kstrncpy`, when there is room for `room` characters and a NUL. -/
def copyLoop (src : Memory) : Nat → Memory → Nat → Nat → Nat → Memory × Nat
  | 0, mem, des, _, copied => (store mem des 0, copied)
  | room + 1, mem, des, s, copied =>
    let c := src s
    let mem := store mem des c
    if c = 0 then (mem, copied) else copyLoop src room mem (des + 1) (s + 1) (copied + 1)

def kstrncpy (mem : Memory) (des : Nat) (src : Memory) (s deslen : Nat) : Memory × Nat :=
  if deslen = 0 then (mem, 0) else copyLoop src (deslen - 1) mem des s 0

def kstrncmp (ma : Memory) (a : Nat) (mb : Memory) (b : Nat) : Nat → Int
  | 0 => 0
  | n + 1 =>
    if ma a ≠ 0 ∧ mb b ≠ 0 then
      let d := char (ma a) - char (mb b)
      if d ≠ 0 then d else kstrncmp ma (a + 1) mb (b + 1) n
    else if ma a ≠ 0 then -1
    else if mb b ≠ 0 then 1
    else 0

/-- `sizeof(entry->path)` -/
def pathSize : Nat := 256

/-- `sizeof(_entries) / sizeof(_entries[0])` -/
def maxEntry : Nat := 64

structure Entry where
  path : Memory
  pathLen : Nat
  fs : Nat

/-- `VFS`. The entries from `count` on hold whatever they hold. -/
structure Table where
  entries : Nat → Entry
  count : Nat

/-- `VFS::VFS()` -/
def init (entries : Nat → Entry) : Table := ⟨entries, 0⟩

def mount (v : Table) (m : Memory) (mountPoint fs : Nat) : Bool × Table :=
  if v.count ≥ maxEntry then (false, v)
  else
    let copied := kstrncpy (v.entries v.count).path 0 m mountPoint pathSize
    let entry : Entry := { path := copied.1, pathLen := copied.2, fs := fs }
    (true, { entries := fun i => if i = v.count then entry else v.entries i, count := v.count + 1 })

/-- The loop of `VFS::find`, with so many entries to go. -/
def findFrom (v : Table) (m : Memory) (filename : Nat) : Nat → Nat → Option Nat
  | 0, _ => none
  | n + 1, i =>
    if kstrncmp (v.entries i).path 0 m filename (v.entries i).pathLen = 0 then some i
    else findFrom v m filename n (i + 1)

/-- `VFS::find`: the index of the entry. -/
def find (v : Table) (m : Memory) (filename : Nat) : Option Nat := findFrom v m filename v.count 0

/-- The functions of `struct FS_DRIVER` that the mount table calls. They take the device and the
rest of the filename. -/
structure FsDriver (σ : Type) where
  fstat : Nat → Nat → Nat → σ → Bool × σ
  read : Nat → Nat → Nat → Nat → Nat → σ → Int × σ
  write : Nat → Nat → Nat → Nat → Nat → σ → Int × σ

section Operations
variable {σ : Type} (driver : Nat → FsDriver σ) (v : Table) (m : Memory) (filename : Nat)

def fstat (stat : Nat) (s : σ) : Bool × σ :=
  match find v m filename with
  | none => (false, s)
  | some i =>
    let subpath := filename + (v.entries i).pathLen
    (driver (v.entries i).fs).fstat (v.entries i).fs subpath stat s

def read (buf offset size : Nat) (s : σ) : Int × σ :=
  match find v m filename with
  | none => (0, s)
  | some i =>
    let subpath := filename + (v.entries i).pathLen
    (driver (v.entries i).fs).read (v.entries i).fs subpath buf offset size s

def write (buf offset size : Nat) (s : σ) : Int × σ :=
  match find v m filename with
  | none => (0, s)
  | some i =>
    let subpath := filename + (v.entries i).pathLen
    (driver (v.entries i).fs).write (v.entries i).fs subpath buf offset size s

end Operations

/-! What the two string functions do on strings. -/

section Strings
variable {mem src ma mb : Memory} {des s a b copied room deslen n : Nat} {cs xs ys : List UInt8}

@[simp] theorem store_self (m : Memory) (a : Nat) (c : UInt8) : store m a c a = c := if_pos rfl

theorem store_other (m : Memory) {a x : Nat} (c : UInt8) (h : x ≠ a) :
    store m a c x = m x := if_neg h

theorem copyLoop_below {x : Nat} (hx : x < des) :
    (copyLoop src room mem des s copied).1 x = mem x := by
  induction room generalizing mem des s copied with
  | zero => exact store_other mem 0 (Nat.ne_of_lt hx)
  | succ room ih =>
    rw [copyLoop]
    by_cases hc : src s = 0
    · simp only [if_pos hc]
      exact store_other mem _ (Nat.ne_of_lt hx)
    · simp only [if_neg hc]
      rw [ih (Nat.lt_succ_of_lt hx)]
      exact store_other mem _ (Nat.ne_of_lt hx)

theorem copyLoop_spec (mem : Memory) (des copied room : Nat) (h : CStr src s cs) :
    CStr (copyLoop src room mem des s copied).1 des (cs.take room) ∧
      (copyLoop src room mem des s copied).2 = copied + (cs.take room).length := by
  induction room generalizing mem des s copied cs with
  | zero =>
    rw [List.take_zero]
    exact ⟨CStr.nil_iff.mpr (store_self mem des 0), rfl⟩
  | succ room ih =>
    cases cs with
    | nil =>
      have hc : src s = 0 := CStr.nil_iff.mp h
      rw [copyLoop, List.take_nil]
      simp only [if_pos hc]
      exact ⟨CStr.nil_iff.mpr ((store_self mem des _).trans hc), rfl⟩
    | cons c cs =>
      obtain ⟨heq, hne, htail⟩ := CStr.cons_iff.mp h
      have hc : src s ≠ 0 := heq ▸ hne
      obtain ⟨hcopy, hlen⟩ := ih (store mem des (src s)) (des + 1) (copied + 1) htail
      rw [copyLoop, List.take_succ_cons]
      simp only [if_neg hc]
      refine ⟨CStr.cons_iff.mpr ⟨?_, hne, hcopy⟩, ?_⟩
      · rw [copyLoop_below (Nat.lt_succ_self des), store_self, heq]
      · rw [hlen, List.length_cons]
        omega

theorem kstrncpy_spec (mem : Memory) (des : Nat) (h : CStr src s cs) (hdeslen : 0 < deslen) :
    CStr (kstrncpy mem des src s deslen).1 des (cs.take (deslen - 1)) ∧
      (kstrncpy mem des src s deslen).2 = (cs.take (deslen - 1)).length := by
  have hcopy := copyLoop_spec mem des 0 (deslen - 1) h
  rw [kstrncpy, if_neg (Nat.ne_of_gt hdeslen)]
  rwa [Nat.zero_add] at hcopy

/-- Comparing as many characters as the first string has tests for a prefix. -/
theorem kstrncmp_eq_zero_iff (hx : CStr ma a xs) (hy : CStr mb b ys) :
    kstrncmp ma a mb b xs.length = 0 ↔ xs <+: ys := by
  induction xs generalizing a b ys with
  | nil => simp [kstrncmp]
  | cons x xs ih =>
    obtain ⟨hax, hxne, hxtail⟩ := CStr.cons_iff.mp hx
    rw [List.length_cons, kstrncmp]
    cases ys with
    | nil =>
      have hb : mb b = 0 := CStr.nil_iff.mp hy
      simp [hax, hb, hxne]
    | cons y ys =>
      obtain ⟨hby, hyne, hytail⟩ := CStr.cons_iff.mp hy
      rw [hax, hby, if_pos ⟨hxne, hyne⟩, List.cons_prefix_cons]
      by_cases heq : x = y
      · simp only [if_neg (not_not.mpr (char_eq_iff.mpr heq)), ih hxtail hytail]
        exact ⟨fun h => ⟨heq, h⟩, fun h => h.2⟩
      · have hne : char x - char y ≠ 0 := fun h => heq (char_eq_iff.mp h)
        simp only [if_pos hne]
        exact ⟨fun h => absurd h hne, fun h => absurd h.1 heq⟩

end Strings

/-! The mount table as a list of mount points with their file systems. -/

abbrev Mounts := List (List UInt8 × Nat)

/-- The first mount point that the filename begins with. -/
def lookup (t : Mounts) (filename : List UInt8) : Option (List UInt8 × Nat) :=
  t.find? fun e => e.1 <+: filename

structure Represents (v : Table) (t : Mounts) : Prop where
  count_eq : v.count = t.length
  count_le : v.count ≤ maxEntry
  entry : ∀ i e, t[i]? = some e →
    CStr (v.entries i).path 0 e.1 ∧ (v.entries i).pathLen = e.1.length ∧ (v.entries i).fs = e.2

/-- A call of `mount`: the mount point is a string of at most 255 characters. -/
structure MountCall where
  mem : Memory
  mountPoint : Nat
  name : List UInt8
  fs : Nat
  string : CStr mem mountPoint name
  short : name.length ≤ 255

def MountCall.run (c : MountCall) (v : Table) : Bool × Table := mount v c.mem c.mountPoint c.fs

def Step (v : Table) (c : MountCall) (v' : Table) : Prop := (c.run v).2 = v'

/-- The mounts of a sequence of calls that the table keeps. -/
def mounted (calls : List MountCall) : Mounts := (calls.map fun c => (c.name, c.fs)).take maxEntry

section Table
variable {v v' : Table} {t : Mounts} {c : MountCall} {m : Memory} {filename : Nat}
    {name : List UInt8}

theorem Represents.init (entries : Nat → Entry) : Represents (init entries) [] :=
  ⟨rfl, Nat.zero_le _, fun _ _ h => absurd h (by simp)⟩

theorem run_full (c : MountCall) (hfull : maxEntry ≤ v.count) : c.run v = (false, v) := if_pos hfull

theorem Represents.mount (h : Represents v t) (hroom : v.count < maxEntry) :
    (c.run v).1 = true ∧ Represents (c.run v).2 (t ++ [(c.name, c.fs)]) := by
  have hnot : ¬ v.count ≥ maxEntry := Nat.not_le.mpr hroom
  have hcut : c.name.take (pathSize - 1) = c.name := List.take_of_length_le c.short
  have hsize : 0 < pathSize := by decide
  obtain ⟨hcopy, hlen⟩ := kstrncpy_spec (v.entries v.count).path 0 c.string hsize
  rw [hcut] at hcopy hlen
  rw [MountCall.run, Vfs.mount, if_neg hnot]
  refine ⟨rfl, ?_, hroom, fun i e he => ?_⟩
  · rw [List.length_append, List.length_singleton, h.count_eq]
  · by_cases hi : i < t.length
    · have hne : i ≠ v.count := by
        rw [h.count_eq]
        exact Nat.ne_of_lt hi
      rw [List.getElem?_append_left hi] at he
      simp only [if_neg hne]
      exact h.entry i e he
    · rw [List.getElem?_append_right (Nat.le_of_not_lt hi), List.getElem?_singleton] at he
      obtain ⟨hzero, he⟩ := Option.ite_none_right_eq_some.mp he
      obtain rfl := Option.some.inj he
      have hi' : i = v.count := by
        rw [h.count_eq]
        omega
      simp only [if_pos hi']
      exact ⟨hcopy, hlen, trivial⟩

theorem Represents.of_run {entries : Nat → Entry} {calls : List MountCall}
    (hrun : Run Step (Vfs.init entries) calls v) : Represents v (mounted calls) := by
  refine hrun.trace_invariant (fun calls v => Represents v (mounted calls)) ?_ (.init entries)
  intro calls v c v' h hstep
  obtain rfl : (c.run v).2 = v' := hstep
  have hcount := h.count_eq
  have hsnoc : mounted (calls ++ [c]) =
      (calls.map (fun c => (c.name, c.fs)) ++ [(c.name, c.fs)]).take maxEntry := by
    rw [mounted, List.map_append]
    rfl
  rw [mounted, List.length_take, List.length_map] at hcount
  by_cases hroom : calls.length < maxEntry
  · have hlong : (calls.map (fun c => (c.name, c.fs)) ++ [(c.name, c.fs)]).length ≤ maxEntry := by
      rw [List.length_append, List.length_map, List.length_singleton]
      exact hroom
    have hshort : (calls.map fun c => (c.name, c.fs)).length ≤ maxEntry := by
      rw [List.length_map]
      exact Nat.le_of_lt hroom
    have hnext := (h.mount (c := c) (by omega)).2
    rw [mounted, List.take_of_length_le hshort] at hnext
    rwa [hsnoc, List.take_of_length_le hlong]
  · have hshort : maxEntry ≤ (calls.map fun c => (c.name, c.fs)).length := by
      rw [List.length_map]
      exact Nat.le_of_not_lt hroom
    rw [run_full c (by omega), hsnoc, List.take_append_of_le_length hshort]
    exact h

theorem Represents.findFrom_spec (h : Represents v t) (hname : CStr m filename name)
    (us ws : Mounts)
    (ht : t = us ++ ws) :
    (lookup ws name = none ∧ findFrom v m filename ws.length us.length = none) ∨
    ∃ i e, lookup ws name = some e ∧ t[i]? = some e ∧
      findFrom v m filename ws.length us.length = some i := by
  induction ws generalizing us with
  | nil => exact Or.inl ⟨rfl, rfl⟩
  | cons e ws ih =>
    have hat : t[us.length]? = some e := by
      rw [ht, List.getElem?_append_right (Nat.le_refl _), Nat.sub_self]
      rfl
    obtain ⟨hpath, hlen, hfs⟩ := h.entry us.length e hat
    have hcmp := kstrncmp_eq_zero_iff hpath hname
    rw [← hlen] at hcmp
    rw [List.length_cons, findFrom, lookup, List.find?_cons]
    by_cases hpre : e.1 <+: name
    · rw [if_pos (hcmp.mpr hpre)]
      simp only [hpre, decide_true]
      exact Or.inr ⟨us.length, e, rfl, hat, rfl⟩
    · rw [if_neg fun hzero => hpre (hcmp.mp hzero)]
      simp only [hpre, decide_false]
      have hrest := ih (us ++ [e]) (by rw [ht, List.append_assoc]; rfl)
      rwa [List.length_append, List.length_singleton] at hrest

theorem Represents.find_spec (h : Represents v t) (hname : CStr m filename name) :
    (lookup t name = none ∧ find v m filename = none) ∨
    ∃ i e, lookup t name = some e ∧ t[i]? = some e ∧ find v m filename = some i := by
  have hspec := h.findFrom_spec hname [] t rfl
  rw [find, h.count_eq]
  exact hspec

theorem findFrom_mono {w : Table} {i n k j : Nat}
    (hsame : ∀ x, x < i + n → w.entries x = v.entries x)
    (hfind : findFrom v m filename n i = some j) : findFrom w m filename (n + k) i = some j := by
  induction n generalizing i with
  | zero => exact absurd hfind (by simp [findFrom])
  | succ n ih =>
    rw [Nat.succ_add, findFrom, hsame i (by omega)]
    rw [findFrom] at hfind
    split at hfind
    · rename_i hzero
      rw [if_pos hzero]
      exact hfind
    · rename_i hzero
      rw [if_neg hzero]
      exact ih (fun x hx => hsame x (by omega)) hfind

theorem findFrom_lt {i n j : Nat} (hfind : findFrom v m filename n i = some j) : j < i + n := by
  induction n generalizing i with
  | zero => exact absurd hfind (by simp [findFrom])
  | succ n ih =>
    rw [findFrom] at hfind
    split at hfind
    · cases hfind
      omega
    · have hlt := ih hfind
      omega

/-- A filename that resolves keeps its entry when something is mounted. -/
theorem find_mount (c : MountCall) {i : Nat} (hfind : find v m filename = some i) :
    find (c.run v).2 m filename = some i ∧ (c.run v).2.entries i = v.entries i := by
  by_cases hfull : maxEntry ≤ v.count
  · rw [run_full c hfull]
    exact ⟨hfind, rfl⟩
  · have hlt := findFrom_lt hfind
    rw [Nat.zero_add] at hlt
    rw [MountCall.run, mount, if_neg hfull]
    refine ⟨findFrom_mono (k := 1) (fun x hx => ?_) hfind, if_neg (Nat.ne_of_lt hlt)⟩
    exact if_neg (by omega)

end Table

/-- Every request for `filename` goes to the driver of `fs` with the rest of the filename at
`subpath`. -/
structure Calls (v : Table) (m : Memory) (filename fs subpath : Nat) : Prop where
  fstat : ∀ (σ : Type) (driver : Nat → FsDriver σ) (stat : Nat) (s : σ),
    Vfs.fstat driver v m filename stat s = (driver fs).fstat fs subpath stat s
  read : ∀ (σ : Type) (driver : Nat → FsDriver σ) (buf offset size : Nat) (s : σ),
    Vfs.read driver v m filename buf offset size s = (driver fs).read fs subpath buf offset size s
  write : ∀ (σ : Type) (driver : Nat → FsDriver σ) (buf offset size : Nat) (s : σ),
    Vfs.write driver v m filename buf offset size s = (driver fs).write fs subpath buf offset size s

/-- Every request for `filename` fails, and nothing else happens. -/
structure Refused (v : Table) (m : Memory) (filename : Nat) : Prop where
  fstat : ∀ (σ : Type) (driver : Nat → FsDriver σ) (stat : Nat) (s : σ),
    Vfs.fstat driver v m filename stat s = (false, s)
  read : ∀ (σ : Type) (driver : Nat → FsDriver σ) (buf offset size : Nat) (s : σ),
    Vfs.read driver v m filename buf offset size s = (0, s)
  write : ∀ (σ : Type) (driver : Nat → FsDriver σ) (buf offset size : Nat) (s : σ),
    Vfs.write driver v m filename buf offset size s = (0, s)

theorem calls_of_find {v : Table} {m : Memory} {filename i : Nat}
    (hfind : find v m filename = some i) :
    Calls v m filename (v.entries i).fs (filename + (v.entries i).pathLen) where
  fstat := by
    intro σ driver stat s
    simp only [Vfs.fstat, hfind]
  read := by
    intro σ driver buf offset size s
    simp only [Vfs.read, hfind]
  write := by
    intro σ driver buf offset size s
    simp only [Vfs.write, hfind]

theorem refused_of_find {v : Table} {m : Memory} {filename : Nat}
    (hfind : find v m filename = none) :
    Refused v m filename where
  fstat := by
    intro σ driver stat s
    simp only [Vfs.fstat, hfind]
  read := by
    intro σ driver buf offset size s
    simp only [Vfs.read, hfind]
  write := by
    intro σ driver buf offset size s
    simp only [Vfs.write, hfind]

/-- A driver that tells which device and path it was called with. -/
def recorder : FsDriver (Nat × Nat) where
  fstat device path _ _ := (true, device, path)
  read device path _ _ _ _ := (1, device, path)
  write device path _ _ _ _ := (1, device, path)

theorem find_of_calls {v : Table} {m : Memory} {filename fs subpath : Nat}
    (h : Calls v m filename fs subpath) : ∃ i, find v m filename = some i ∧
      (v.entries i).fs = fs ∧ filename + (v.entries i).pathLen = subpath := by
  have htold := h.fstat (Nat × Nat) (fun _ => recorder) 0 (0, 0)
  cases hfind : find v m filename with
  | none => simp [Vfs.fstat, hfind, recorder] at htold
  | some i =>
    simp only [Vfs.fstat, hfind, recorder, Prod.mk.injEq, true_and] at htold
    exact ⟨i, rfl, htold⟩

/-- What the requests for one filename do. -/
def Resolves (v : Table) (t : Mounts) (m : Memory) (filename : Nat) (name : List UInt8) : Prop :=
  match lookup t name with
  | none => Refused v m filename
  | some (point, fs) => ∃ subpath sub, point ++ sub = name ∧ CStr m subpath sub ∧
      subpath = filename + point.length ∧ Calls v m filename fs subpath

theorem Represents.resolves {v : Table} {t : Mounts} {m : Memory} {filename : Nat}
    {name : List UInt8}
    (h : Represents v t) (hname : CStr m filename name) : Resolves v t m filename name := by
  unfold Resolves
  rcases h.find_spec hname with ⟨hlookup, hfind⟩ | ⟨i, ⟨point, fs⟩, hlookup, hat, hfind⟩
  · rw [hlookup]
    exact refused_of_find hfind
  · rw [hlookup]
    obtain ⟨_, hlen, hfs⟩ := h.entry i _ hat
    obtain ⟨sub, rfl⟩ : point <+: name := by simpa using List.find?_some hlookup
    have hcalls := calls_of_find hfind
    rw [hlen, hfs] at hcalls
    exact ⟨filename + point.length, sub, rfl, hname.drop, rfl, hcalls⟩

theorem mount_table_resolves {entries : Nat → Entry} {calls : List MountCall} {v : Table}
    (hrun : Run Step (init entries) calls v) :
    (∀ m filename name, CStr m filename name → Resolves v (mounted calls) m filename name) ∧
    (∀ c : MountCall, (c.run v).1 = decide (calls.length < 64) ∧
    (64 ≤ calls.length → (c.run v).2 = v)) ∧
    ∀ (c : MountCall) m filename fs subpath,
      Calls v m filename fs subpath → Calls (c.run v).2 m filename fs subpath := by
  have hrep := Represents.of_run hrun
  refine ⟨fun m filename name hname => hrep.resolves hname, fun c => ?_, ?_⟩
  · have hcount := hrep.count_eq
    rw [mounted, List.length_take, List.length_map, maxEntry] at hcount
    by_cases hroom : calls.length < 64
    · have hlt : v.count < maxEntry := by
        rw [maxEntry]
        omega
      rw [(hrep.mount (c := c) hlt).1]
      exact ⟨by simp [hroom], fun hle => absurd hroom (Nat.not_lt.mpr hle)⟩
    · have hfull : maxEntry ≤ v.count := by
        rw [maxEntry]
        omega
      rw [run_full c hfull]
      exact ⟨by simp [hroom], fun _ => rfl⟩
  · intro c m filename fs subpath hcalls
    obtain ⟨i, hfind, rfl, rfl⟩ := find_of_calls hcalls
    obtain ⟨hfind', hsame⟩ := find_mount c hfind
    have hcalls' := calls_of_find hfind'
    rwa [hsame] at hcalls'

/-- The strings `/a/` and `/`, the second one behind the first. -/
def mountMemory : Memory := writeBytes (fun _ => 0) 8 [47, 97, 47, 0, 47]

def mountCalls : List MountCall :=
  [{ mem := mountMemory
     mountPoint := 8
     name := [47, 97, 47]
     fs := 4096
     string := ⟨⟨rfl, rfl, rfl, rfl, trivial⟩, by simp⟩
     short := by decide },
   { mem := mountMemory
     mountPoint := 12
     name := [47]
     fs := 8192
     string := ⟨⟨rfl, rfl, trivial⟩, by simp⟩
     short := by decide }]

theorem mount_table_resolves_both : ∃ v, Run Step (init fun _ => ⟨fun _ => 0, 0, 0⟩) mountCalls v ∧
    ((∀ m filename name, CStr m filename name → Resolves v (mounted mountCalls) m filename name) ∧
    (∀ c : MountCall, (c.run v).1 = decide (mountCalls.length < 64) ∧
      (64 ≤ mountCalls.length → (c.run v).2 = v)) ∧
    ∀ (c : MountCall) m filename fs subpath,
      Calls v m filename fs subpath → Calls (c.run v).2 m filename fs subpath) :=
  ⟨_, .cons rfl (.single rfl), mount_table_resolves (.cons rfl (.single rfl))⟩

end OsdevCourse.Vfs
