import Mathlib.Logic.Function.Basic
import Mathlib.Data.List.Basic

/-!
# A buffer read while it is written

A reader takes the positions of a buffer one by one and in any order; a writer may change
positions meanwhile.

- `SharedBuffer.view`: what the reader has of a position, or is going to have.
- `image_write`, `image_take`: writing changes the image only at positions still to be
  taken; taking never does.
- `collected_eq`: a reader that has taken everything has the image.
-/

namespace PrplHypervisor

/-- The contents and what has been taken of them. -/
structure SharedBuffer (α : Type) where
  data : Nat → α
  taken : Nat → Option α

namespace SharedBuffer

variable {α : Type} (b : SharedBuffer α)

def write (k : Nat) (x : α) : SharedBuffer α := { b with data := Function.update b.data k x }

def take (i : Nat) : SharedBuffer α :=
  { b with taken := Function.update b.taken i (some (b.data i)) }

/-- A new round: nothing is taken yet. -/
def reset : SharedBuffer α := { b with taken := fun _ => none }

/-- Position `i` as the reader has it, or finds it if it is not written again. -/
def view (i : Nat) : α := (b.taken i).getD (b.data i)

/-- The first `len` positions so. -/
def image (len : Nat) : List α := (List.range len).map b.view

/-- What has been taken of the first `len` positions. -/
def collected (len : Nat) : List α := (List.range len).filterMap b.taken

theorem view_take {i : Nat} (hi : b.taken i = none) : (b.take i).view = b.view := by
  funext j
  show (Function.update b.taken i (some (b.data i)) j).getD (b.data j) = b.view j
  by_cases hj : j = i
  · rw [hj, Function.update_self, view, hi]
    rfl
  · rw [Function.update_of_ne hj]
    rfl

/-- A write is invisible at a position already taken, and where it changes nothing. -/
theorem view_write {k : Nat} {x : α} (hk : b.taken k = none → x = b.data k) :
    (b.write k x).view = b.view := by
  funext j
  show (b.taken j).getD (Function.update b.data k x j) = b.view j
  by_cases hj : j = k
  · subst hj
    rw [Function.update_self, view]
    cases htaken : b.taken j with
    | none => rw [hk htaken]
    | some y => rfl
  · rw [Function.update_of_ne hj]
    rfl

theorem image_take {i : Nat} (hi : b.taken i = none) (len : Nat) :
    (b.take i).image len = b.image len := by
  rw [image, view_take b hi, image]

theorem image_write {k : Nat} {x : α} {len : Nat}
    (hk : k < len → b.taken k = none → x = b.data k) :
    (b.write k x).image len = b.image len := by
  by_cases hlt : k < len
  · rw [image, view_write b (hk hlt), image]
  · refine List.map_congr_left ?_
    intro j hj
    have hne : j ≠ k := by
      rw [List.mem_range] at hj
      omega
    show (b.taken j).getD (Function.update b.data k x j) = _
    rw [Function.update_of_ne hne]
    rfl

theorem collected_eq {len : Nat} (hall : ∀ i < len, (b.taken i).isSome = true) :
    b.collected len = b.image len := by
  rw [collected, image, ← List.filterMap_eq_map]
  refine List.filterMap_congr ?_
  intro i hi
  obtain ⟨x, hx⟩ := Option.isSome_iff_exists.mp (hall i (List.mem_range.mp hi))
  show b.taken i = some ((b.taken i).getD (b.data i))
  rw [hx]
  rfl

end SharedBuffer

end PrplHypervisor
