import OsdevCourse.Mmu

/-!
# Where the recursive windows lead

Under a directory whose last entry refers to itself, `MMU_PD_PTR` reaches the words of the
directory and `MMU_PT_PTR` the words of the page tables it refers to; an access to a slot
whose place is known has no side effect.
-/

namespace OsdevCourse.Mmu

set_option autoImplicit false

open PageEntry

section Slots
variable (addr : Nat)

theorem mmuPdIndex_lt : mmuPdIndex addr < 1024 := Nat.mod_lt _ (by omega)
theorem mmuPtIndex_lt : mmuPtIndex addr < 1024 := Nat.mod_lt _ (by omega)

theorem mmuPdIndex_pdSlot : mmuPdIndex (pdSlot addr) = 1023 := by
  have hlt := mmuPdIndex_lt addr
  unfold pdSlot
  generalize mmuPdIndex addr = d at *
  unfold mmuPdIndex mmuPdVma
  omega

theorem mmuPtIndex_pdSlot : mmuPtIndex (pdSlot addr) = 1023 := by
  have hlt := mmuPdIndex_lt addr
  unfold pdSlot
  generalize mmuPdIndex addr = d at *
  unfold mmuPtIndex mmuPdVma
  omega

theorem pdSlot_word : pdSlot addr % 4096 / 4 = mmuPdIndex addr := by
  have hlt := mmuPdIndex_lt addr
  unfold pdSlot mmuPdVma
  omega

theorem mmuPdIndex_ptSlot : mmuPdIndex (ptSlot addr) = 1023 := by
  have hd := mmuPdIndex_lt addr
  have hi := mmuPtIndex_lt addr
  unfold ptSlot
  generalize mmuPdIndex addr = d at *
  generalize mmuPtIndex addr = i at *
  unfold mmuPdIndex mmuPtVma
  omega

theorem mmuPtIndex_ptSlot : mmuPtIndex (ptSlot addr) = mmuPdIndex addr := by
  have hd := mmuPdIndex_lt addr
  have hi := mmuPtIndex_lt addr
  unfold ptSlot
  generalize mmuPdIndex addr = d at *
  generalize mmuPtIndex addr = i at *
  unfold mmuPtIndex mmuPtVma
  omega

theorem ptSlot_word : ptSlot addr % 4096 / 4 = mmuPtIndex addr := by
  have hd := mmuPdIndex_lt addr
  have hi := mmuPtIndex_lt addr
  unfold ptSlot mmuPtVma
  omega

/-- The slot of the entry that maps a page table is the slot of its directory entry. -/
theorem ptSlot_ptSlot : ptSlot (ptSlot addr) = pdSlot addr := by
  have hlt := mmuPdIndex_lt addr
  unfold pdSlot
  rw [ptSlot, mmuPdIndex_ptSlot, mmuPtIndex_ptSlot]
  unfold mmuPtVma mmuPdVma
  omega

theorem mmuPdIndex_page : mmuPdIndex (addr / 4096 * 4096) = mmuPdIndex addr := by
  unfold mmuPdIndex
  omega

theorem mmuPtIndex_page : mmuPtIndex (addr / 4096 * 4096) = mmuPtIndex addr := by
  unfold mmuPtIndex
  omega

theorem page_word : addr / 4096 * 4096 % 4096 / 4 = 0 := by
  rw [Nat.mul_mod_left]

variable {addr}

theorem mmuPdIndex_eq (haddr : addr < 2 ^ 32) : mmuPdIndex addr = addr / 4096 / 1024 := by
  unfold mmuPdIndex
  omega

theorem mmuPtIndex_eq (addr : Nat) : mmuPtIndex addr = addr / 4096 % 1024 := by
  unfold mmuPtIndex
  omega

theorem framesVma_word (i : Nat) : framesVma i % 4096 / 4 = i % 1024 := by
  unfold framesVma mmuFramepoolVma
  omega

variable {i : Nat} (hi : i < 2 ^ 20)
include hi

theorem mmuPdIndex_framesVma : mmuPdIndex (framesVma i) = 1022 := by
  unfold framesVma mmuPdIndex mmuFramepoolVma
  omega

theorem mmuPtIndex_framesVma : mmuPtIndex (framesVma i) = i / 1024 := by
  unfold framesVma mmuPtIndex mmuFramepoolVma
  omega

end Slots

section Stores
variable (s : State) (f : Word) (i : Nat) (w : Word)

@[simp] theorem set_cr3 : (s.set f i w).cr3 = s.cr3 := rfl
@[simp] theorem set_framesIndex : (s.set f i w).framesIndex = s.framesIndex := rfl
@[simp] theorem zero_cr3 : (s.zero f).cr3 = s.cr3 := rfl
@[simp] theorem zero_framesIndex : (s.zero f).framesIndex = s.framesIndex := rfl
@[simp] theorem copyFrom_cr3 (g : Word) : (s.copyFrom f g i).cr3 = s.cr3 := rfl
@[simp] theorem copyFrom_framesIndex (g : Word) :
    (s.copyFrom f g i).framesIndex = s.framesIndex := rfl
@[simp] theorem invlpg_mem (addr : Nat) : (s.invlpg addr).mem = s.mem := rfl
@[simp] theorem invlpg_cr3 (addr : Nat) : (s.invlpg addr).cr3 = s.cr3 := rfl
@[simp] theorem invlpg_framesIndex (addr : Nat) : (s.invlpg addr).framesIndex = s.framesIndex := rfl
@[simp] theorem loadCr3_mem : (s.loadCr3 f).mem = s.mem := rfl

theorem set_mem (g : Word) (j : Nat) :
    (s.set f i w).mem g j = if g = f ∧ j = i then w else s.mem g j := rfl

theorem zero_mem (g : Word) (j : Nat) :
    (s.zero f).mem g j = if g = f then 0#32 else s.mem g j := rfl

@[simp] theorem set_mem_same : (s.set f i w).mem f i = w := by
  rw [set_mem, if_pos ⟨rfl, rfl⟩]

theorem set_mem_frame {g : Word} (h : g ≠ f) (j : Nat) : (s.set f i w).mem g j = s.mem g j := by
  rw [set_mem, if_neg fun hand => h hand.1]

theorem set_mem_word (g : Word) {j : Nat} (h : j ≠ i) : (s.set f i w).mem g j = s.mem g j := by
  rw [set_mem, if_neg fun hand => h hand.2]

@[simp] theorem zero_mem_same (j : Nat) : (s.zero f).mem f j = 0#32 := by
  rw [zero_mem, if_pos rfl]

theorem zero_mem_frame {g : Word} (h : g ≠ f) (j : Nat) : (s.zero f).mem g j = s.mem g j := by
  rw [zero_mem, if_neg h]

end Stores

section Places
variable {s : State} {addr : Nat} {place : Word × Nat} {fault : Fault}

theorem access_of_translate (h : translate s addr = some place) :
    access fault addr s = some (place, s) := by
  unfold access
  rw [h]

theorem readWord_of_translate (h : translate s addr = some place) :
    readWord fault addr s = some (s.mem place.1 place.2, s) := by
  unfold readWord
  rw [access_of_translate h]
  rfl

theorem writeWord_of_translate (h : translate s addr = some place) (w : Word) :
    writeWord fault addr w s = some (s.set place.1 place.2 w) := by
  unfold writeWord
  rw [access_of_translate h]
  rfl

theorem readWord_handled {s' : State} (h : translate s addr = none)
    (hhandled : fault addr s = some s') (hplace : translate s' addr = some place) :
    readWord fault addr s = some (s'.mem place.1 place.2, s') := by
  unfold readWord access
  rw [h]
  simp only [hhandled, hplace, Option.bind_eq_bind, Option.bind_some]

theorem translate_eq_some (hd : present (s.mem s.cr3 (mmuPdIndex addr)) = true)
    (ht : present (s.mem (frameOf (s.mem s.cr3 (mmuPdIndex addr))) (mmuPtIndex addr)) = true) :
    translate s addr =
      some (frameOf (s.mem (frameOf (s.mem s.cr3 (mmuPdIndex addr))) (mmuPtIndex addr)),
        addr % 4096 / 4) := by
  unfold translate
  simp only [hd, ht, if_true]

/-- The last entry of the active directory refers to the directory. -/
def SelfMapped (s : State) : Prop :=
  present (s.mem s.cr3 1023) = true ∧ frameOf (s.mem s.cr3 1023) = s.cr3

theorem translate_pdSlot (h : SelfMapped s) (addr : Nat) :
    translate s (pdSlot addr) = some (s.cr3, mmuPdIndex addr) := by
  unfold translate
  simp only [mmuPdIndex_pdSlot, mmuPtIndex_pdSlot, pdSlot_word, h.2, h.1, if_true]

theorem translate_ptSlot (h : SelfMapped s) (addr : Nat) :
    translate s (ptSlot addr) =
      if present (s.mem s.cr3 (mmuPdIndex addr)) then
        some (frameOf (s.mem s.cr3 (mmuPdIndex addr)), mmuPtIndex addr)
      else none := by
  unfold translate
  simp only [mmuPdIndex_ptSlot, mmuPtIndex_ptSlot, ptSlot_word, h.2, h.1, if_true]

theorem translate_ptSlot_present (h : SelfMapped s)
    (hd : present (s.mem s.cr3 (mmuPdIndex addr)) = true) :
    translate s (ptSlot addr) =
      some (frameOf (s.mem s.cr3 (mmuPdIndex addr)), mmuPtIndex addr) := by
  rw [translate_ptSlot h, if_pos hd]

theorem translate_ptSlot_absent (h : SelfMapped s)
    (hd : present (s.mem s.cr3 (mmuPdIndex addr)) = false) : translate s (ptSlot addr) = none := by
  rw [translate_ptSlot h, hd]
  rfl

end Places

end OsdevCourse.Mmu
