import Mathlib.Data.List.Basic

/-!
# Files made of consecutive segments

A file is assembled from segments that each are meant for an address. If every
segment ends where the next one is meant to start, the file holds each of them
at its address, counted from the address of the file.

- `slice`: part of a file.
- `Contiguous`: the segments leave no room between each other.
- `Contiguous.slice_join`: a slice of the file is the slice of a segment.
-/

namespace PrplHypervisor.Segments

variable {α : Type}

/-- The `n` elements from offset `k`. -/
def slice (l : List α) (k n : Nat) : List α := (l.drop k).take n

/-- The contents of the segments one after the other. -/
def join (segs : List (Nat × List α)) : List α := (segs.map Prod.snd).flatten

/-- The segments follow each other from address `x` on. -/
def Contiguous : Nat → List (Nat × List α) → Prop
  | _, [] => True
  | x, seg :: segs => seg.1 = x ∧ Contiguous (x + seg.2.length) segs

theorem slice_zero (l : List α) : slice l 0 l.length = l := by
  rw [slice, List.drop_zero, List.take_length]

theorem slice_append_left {l₁ l₂ : List α} {k n : Nat} (h : k + n ≤ l₁.length) :
    slice (l₁ ++ l₂) k n = slice l₁ k n := by
  rw [slice, List.drop_append_of_le_length (by omega),
    List.take_append_of_le_length (by rw [List.length_drop]; omega), slice]

theorem slice_append_right (l₁ l₂ : List α) (k n : Nat) :
    slice (l₁ ++ l₂) (l₁.length + k) n = slice l₂ k n := by
  rw [slice, List.drop_length_add_append, slice]

theorem slice_length {l : List α} {k n : Nat} (h : k + n ≤ l.length) :
    (slice l k n).length = n := by
  rw [slice, List.length_take, List.length_drop]
  omega

theorem slice_replicate {a : α} {len k n : Nat} (h : k + n ≤ len) :
    slice (List.replicate len a) k n = List.replicate n a := by
  rw [slice, List.drop_replicate, List.take_replicate, Nat.min_eq_left (by omega)]

/-- A slice read element by element, from a file that continues with `d`. -/
theorem map_getD_eq_slice {l : List α} {d : α} {k n : Nat} (h : k + n ≤ l.length) :
    ((List.range n).map fun i => l.getD (k + i) d) = slice l k n := by
  refine List.ext_getElem ?_ fun i hi _ => ?_
  · rw [List.length_map, List.length_range, slice_length h]
  · rw [List.length_map, List.length_range] at hi
    have hlt : k + i < l.length := by omega
    simp only [List.getElem_map, List.getElem_range, slice, List.getElem_take, List.getElem_drop,
      List.getD_eq_getElem?_getD, List.getElem?_eq_getElem hlt, Option.getD_some]

theorem Contiguous.start_ge {x : Nat} {segs : List (Nat × List α)} (h : Contiguous x segs) :
    ∀ seg ∈ segs, x ≤ seg.1 := by
  induction segs generalizing x with
  | nil =>
    intro seg hseg
    cases hseg
  | cons head segs ih =>
    obtain ⟨hstart, hrest⟩ := h
    intro seg hseg
    rcases List.mem_cons.mp hseg with rfl | hseg
    · exact Nat.le_of_eq hstart.symm
    · exact Nat.le_trans (Nat.le_add_right _ _) (ih hrest seg hseg)

/-- What is inside a segment is found at its address. -/
theorem Contiguous.slice_join {x : Nat} {segs : List (Nat × List α)} (h : Contiguous x segs)
    {seg : Nat × List α} (hseg : seg ∈ segs) {k n : Nat} (hk : k + n ≤ seg.2.length) :
    slice (join segs) (seg.1 - x + k) n = slice seg.2 k n := by
  induction segs generalizing x with
  | nil => cases hseg
  | cons head segs ih =>
    obtain ⟨hstart, hrest⟩ := h
    have hjoin : join (head :: segs) = head.2 ++ join segs := rfl
    rw [hjoin]
    rcases List.mem_cons.mp hseg with rfl | hseg
    · rw [hstart, Nat.sub_self, Nat.zero_add]
      exact slice_append_left hk
    · have hge := hrest.start_ge seg hseg
      have hoffset : seg.1 - x + k =
          head.2.length + (seg.1 - (x + head.2.length) + k) := by omega
      rw [hoffset, slice_append_right]
      exact ih hrest hseg

/-- The end of a segment lies inside the file. -/
theorem Contiguous.stop_le {x : Nat} {segs : List (Nat × List α)} (h : Contiguous x segs)
    {seg : Nat × List α} (hseg : seg ∈ segs) :
    seg.1 - x + seg.2.length ≤ (join segs).length := by
  induction segs generalizing x with
  | nil => cases hseg
  | cons head segs ih =>
    obtain ⟨hstart, hrest⟩ := h
    have hlen : (join (head :: segs)).length = head.2.length + (join segs).length :=
      List.length_append
    rw [hlen]
    rcases List.mem_cons.mp hseg with rfl | hseg
    · omega
    · have hge := hrest.start_ge seg hseg
      have hrec := ih hrest hseg
      omega

end PrplHypervisor.Segments
