/-!
# The first difference of two lists

- `firstDiff`: the first pair of elements at one place that differ.
- Where no list continues the other there is such a pair unless the lists are equal: lists
  of one length (`firstDiff_none_iff`), and what is left up to some length of lists that end
  with a mark (`firstDiff_take_none_iff`).
-/

namespace PrplHypervisor.FirstDifference

variable {α : Type} [DecidableEq α] {l l' : List α} {a b t : α}

def firstDiff : List α → List α → Option (α × α)
  | a :: l, b :: l' => if a = b then firstDiff l l' else some (a, b)
  | _, _ => none

theorem firstDiff_cons (a b : α) (l l' : List α) :
    firstDiff (a :: l) (b :: l') = if a = b then firstDiff l l' else some (a, b) := rfl

@[simp] theorem firstDiff_nil_right (l : List α) : firstDiff l [] = none := by
  cases l <;> rfl

@[simp] theorem firstDiff_self (l : List α) : firstDiff l l = none := by
  induction l with
  | nil => rfl
  | cons a l ih => rw [firstDiff_cons, if_pos rfl, ih]

theorem ne_of_firstDiff (h : firstDiff l l' = some (a, b)) : a ≠ b := by
  induction l generalizing l' with
  | nil => cases h
  | cons c l ih =>
    cases l' with
    | nil => cases h
    | cons d l' =>
      rw [firstDiff_cons] at h
      split at h
      case isTrue => exact ih h
      case isFalse hne =>
        obtain ⟨rfl, rfl⟩ := Prod.mk.inj (Option.some.inj h)
        exact hne

theorem firstDiff_none_iff (hlen : l.length = l'.length) : firstDiff l l' = none ↔ l = l' := by
  refine ⟨fun h => ?_, fun h => by rw [h, firstDiff_self]⟩
  induction l generalizing l' with
  | nil => exact (List.length_eq_zero_iff.mp hlen.symm).symm
  | cons a l ih =>
    cases l' with
    | nil => cases hlen
    | cons b l' =>
      rw [firstDiff_cons] at h
      split at h
      case isTrue heq => rw [heq, ih (Nat.succ.inj hlen) h]
      case isFalse => cases h

/-- Both lists are read up to the mark, or up to `n` elements. -/
theorem firstDiff_take_none_iff (hl : t ∉ l) (hl' : t ∉ l') (n : Nat) :
    firstDiff ((l ++ [t]).take n) ((l' ++ [t]).take n) = none ↔
      (l ++ [t]).take n = (l' ++ [t]).take n := by
  refine ⟨fun h => ?_, fun h => by rw [h, firstDiff_self]⟩
  induction n generalizing l l' with
  | zero => rfl
  | succ n ih =>
    cases l with
    | nil =>
      cases l' with
      | nil => rfl
      | cons b l' =>
        have hne : t ≠ b := fun heq => hl' (heq ▸ List.mem_cons_self)
        rw [List.nil_append, List.cons_append, List.take_succ_cons, List.take_succ_cons,
          firstDiff_cons, if_neg hne] at h
        cases h
    | cons a l =>
      have hne : a ≠ t := fun heq => hl (heq ▸ List.mem_cons_self)
      cases l' with
      | nil =>
        rw [List.nil_append, List.cons_append, List.take_succ_cons, List.take_succ_cons,
          firstDiff_cons, if_neg hne] at h
        cases h
      | cons b l' =>
        rw [List.cons_append, List.cons_append, List.take_succ_cons, List.take_succ_cons] at h ⊢
        rw [firstDiff_cons] at h
        split at h
        case isTrue heq =>
          rw [heq, ih (fun hmem => hl (List.mem_cons_of_mem _ hmem))
            (fun hmem => hl' (List.mem_cons_of_mem _ hmem)) h]
        case isFalse => cases h

/-- Lists that end with a mark are read up to it. -/
theorem firstDiff_mark_none_iff (hl : t ∉ l) (hl' : t ∉ l') :
    firstDiff (l ++ [t]) (l' ++ [t]) = none ↔ l ++ [t] = l' ++ [t] := by
  have h := firstDiff_take_none_iff hl hl' ((l ++ [t]).length + (l' ++ [t]).length)
  rwa [List.take_of_length_le (Nat.le_add_right _ _),
    List.take_of_length_le (Nat.le_add_left _ _)] at h

end PrplHypervisor.FirstDifference
