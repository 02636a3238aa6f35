import Mathlib.Algebra.Group.Nat.Defs
import Mathlib.Tactic.Common
import Mathlib.Data.List.Basic

/-!
# A range cut into consecutive blocks

`Tiles len lo hi bs`: the blocks that start at the addresses `bs` and are `len` long lie
one behind the other and fill the range from `lo` to `hi`. Each address of the range is
then in exactly one block.
-/

namespace OsdevCourse

set_option autoImplicit false

variable {len len' : Nat → Nat} {lo hi x y a k : Nat} {bs : List Nat}

def Tiles (len : Nat → Nat) : Nat → Nat → List Nat → Prop
  | lo, hi, [] => lo = hi
  | lo, hi, b :: bs => b = lo ∧ 0 < len b ∧ Tiles len (lo + len b) hi bs

/-- Two blocks have no address in common. -/
def Apart (a m b n : Nat) : Prop := a + m ≤ b ∨ b + n ≤ a

namespace Tiles

theorem le (h : Tiles len lo hi bs) : lo ≤ hi := by
  induction bs generalizing lo with
  | nil => exact Nat.le_of_eq h
  | cons b bs ih =>
    have hrest := ih h.2.2
    omega

theorem within (h : Tiles len lo hi bs) (hx : x ∈ bs) : lo ≤ x ∧ x + len x ≤ hi := by
  induction bs generalizing lo with
  | nil => simp at hx
  | cons b bs ih =>
    obtain ⟨rfl, hpos, hrest⟩ := h
    rcases List.mem_cons.mp hx with rfl | hx
    · exact ⟨Nat.le_refl _, hrest.le⟩
    · have hin := ih hrest hx
      omega

theorem apart (h : Tiles len lo hi bs) (hx : x ∈ bs) (hy : y ∈ bs) (hne : x ≠ y) :
    Apart x (len x) y (len y) := by
  induction bs generalizing lo with
  | nil => simp at hx
  | cons b bs ih =>
    obtain ⟨rfl, _, hrest⟩ := h
    rcases List.mem_cons.mp hx with rfl | hx'
    · rcases List.mem_cons.mp hy with rfl | hy'
      · exact absurd rfl hne
      · exact Or.inl (hrest.within hy').1
    · rcases List.mem_cons.mp hy with rfl | hy'
      · exact Or.inr (hrest.within hx').1
      · exact ih hrest hx' hy'

theorem nodup (h : Tiles len lo hi bs) : bs.Nodup := by
  induction bs generalizing lo with
  | nil => exact List.nodup_nil
  | cons b bs ih =>
    obtain ⟨rfl, hpos, hrest⟩ := h
    refine List.nodup_cons.mpr ⟨fun hmem => ?_, ih hrest⟩
    have hin := hrest.within hmem
    omega

theorem congr (h : Tiles len lo hi bs) (heq : ∀ x ∈ bs, len' x = len x) : Tiles len' lo hi bs := by
  induction bs generalizing lo with
  | nil => exact h
  | cons b bs ih =>
    obtain ⟨rfl, hpos, hrest⟩ := h
    have hb := heq b List.mem_cons_self
    refine ⟨rfl, by omega, ?_⟩
    rw [hb]
    exact ih hrest fun x hx => heq x (List.mem_cons_of_mem b hx)

/-- The range grows by a block at its upper end. -/
theorem snoc (h : Tiles len lo hi bs) (hpos : 0 < len hi) :
    Tiles len lo (hi + len hi) (bs ++ [hi]) := by
  induction bs generalizing lo with
  | nil =>
    have heq : lo = hi := h
    subst heq
    exact ⟨rfl, hpos, rfl⟩
  | cons b bs ih =>
    obtain ⟨rfl, hb, hrest⟩ := h
    exact ⟨rfl, hb, ih hrest⟩

theorem dvd (h : Tiles len lo hi bs) (hlo : k ∣ lo) (hlen : ∀ x ∈ bs, k ∣ len x) (hx : x ∈ bs) :
    k ∣ x := by
  induction bs generalizing lo with
  | nil => simp at hx
  | cons b bs ih =>
    obtain ⟨rfl, _, hrest⟩ := h
    rcases List.mem_cons.mp hx with rfl | hx
    · exact hlo
    · exact ih hrest (Nat.dvd_add hlo (hlen b List.mem_cons_self))
        (fun y hy => hlen y (List.mem_cons_of_mem b hy)) hx

theorem dvd_end (h : Tiles len lo hi bs) (hlo : k ∣ lo) (hlen : ∀ x ∈ bs, k ∣ len x) : k ∣ hi := by
  induction bs generalizing lo with
  | nil =>
    have heq : lo = hi := h
    rwa [← heq]
  | cons b bs ih =>
    obtain ⟨rfl, _, hrest⟩ := h
    exact ih hrest (Nat.dvd_add hlo (hlen b List.mem_cons_self))
      fun y hy => hlen y (List.mem_cons_of_mem b hy)

end Tiles

end OsdevCourse
