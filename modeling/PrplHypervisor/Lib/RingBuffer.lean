import Mathlib.Data.List.Basic
import Mathlib.Data.Nat.ModEq

/-!
# Ring buffers with separate in, out and count

A ring of `cap` slots keeps the index of the next free slot, the index of the
oldest element and the number of elements. `RingRep` says which list such a ring
holds; `f` views a slot as an element, so that data beside the element may stay
stale.

- `RingRep.push`: filling the free slot and advancing `in` appends an element.
- `RingRep.pop`: advancing `out` removes the oldest element.
- `RingRep.congr`: while the ring is not full, the free slot may hold anything.
-/

namespace PrplHypervisor

variable {α β : Type}

/-- The ring with slots `slot`, oldest index `out`, free index `inx` and count
`num` holds the list `xs`, oldest first. -/
structure RingRep (cap : Nat) (f : α → β) (slot : Nat → α) (inx out num : Nat)
    (xs : List β) : Prop where
  num_eq : num = xs.length
  num_le : num ≤ cap
  out_lt : out < cap
  in_eq : inx = (out + num) % cap
  slot_eq : ∀ i x, xs[i]? = some x → f (slot ((out + i) % cap)) = x

namespace RingRep

variable {cap : Nat} {f : α → β} {slot slot' : Nat → α} {inx out num : Nat} {xs : List β}

theorem empty (hcap : 0 < cap) : RingRep cap f slot 0 0 0 [] where
  num_eq := rfl
  num_le := Nat.zero_le _
  out_lt := hcap
  in_eq := (Nat.zero_mod cap).symm
  slot_eq i x h := by simp at h

/-- Distinct offsets below `cap` are distinct slots. -/
theorem slot_ne {i j : Nat} (hi : i < cap) (hj : j < cap) (hne : i ≠ j) (out : Nat) :
    (out + i) % cap ≠ (out + j) % cap := by
  intro heq
  have hmod : i % cap = j % cap := Nat.ModEq.add_left_cancel' out heq
  rw [Nat.mod_eq_of_lt hi, Nat.mod_eq_of_lt hj] at hmod
  exact hne hmod

/-- Slots that hold live elements are all that matters. -/
theorem congr (h : RingRep cap f slot inx out num xs)
    (hslot : ∀ k, k < cap → k ≠ inx → slot' k = slot k) (hfull : num < cap) :
    RingRep cap f slot' inx out num xs := by
  refine ⟨h.num_eq, h.num_le, h.out_lt, h.in_eq, fun i x hx => ?_⟩
  have hi : i < xs.length := (List.getElem?_eq_some_iff.mp hx).1
  have hcap : 0 < cap := Nat.zero_lt_of_lt h.out_lt
  have hnum := h.num_eq
  rw [hslot _ (Nat.mod_lt _ hcap)]
  · exact h.slot_eq i x hx
  · rw [h.in_eq]
    exact slot_ne (by omega) hfull (by omega) out

/-- Filling the free slot and advancing `in` appends an element. -/
theorem push (h : RingRep cap f slot inx out num xs) (hfull : num < cap) (a : α)
    (hin : slot' inx = a) (hslot : ∀ k, k ≠ inx → slot' k = slot k) :
    RingRep cap f slot' ((inx + 1) % cap) out (num + 1) (xs ++ [f a]) := by
  have hrep := h.congr (fun k _ hk => hslot k hk) hfull
  refine ⟨by simp [h.num_eq], hfull, h.out_lt, ?_, fun i x hx => ?_⟩
  · rw [h.in_eq, Nat.mod_add_mod, Nat.add_assoc]
  · rw [List.getElem?_append] at hx
    by_cases hi : i < xs.length
    · rw [if_pos hi] at hx
      exact hrep.slot_eq i x hx
    · rw [if_neg hi] at hx
      have hlen := (List.getElem?_eq_some_iff.mp hx).1
      rw [List.length_singleton] at hlen
      obtain rfl : i = num := by
        have := h.num_eq
        omega
      rw [← h.in_eq, hin]
      rw [h.num_eq, Nat.sub_self, List.getElem?_cons_zero] at hx
      exact Option.some.inj hx

/-- The oldest element is in slot `out`; advancing `out` removes it. -/
theorem pop {x : β} (h : RingRep cap f slot inx out num (x :: xs)) :
    f (slot out) = x ∧ RingRep cap f slot inx ((out + 1) % cap) (num - 1) xs := by
  have hcap : 0 < cap := Nat.zero_lt_of_lt h.out_lt
  have hnum := h.num_eq
  rw [List.length_cons] at hnum
  constructor
  · have h0 := h.slot_eq 0 x rfl
    rwa [Nat.add_zero, Nat.mod_eq_of_lt h.out_lt] at h0
  · refine ⟨by omega, by have := h.num_le; omega, Nat.mod_lt _ hcap, ?_, fun i y hy => ?_⟩
    · rw [h.in_eq, Nat.mod_add_mod, show out + 1 + (num - 1) = out + num by omega]
    · have hs := h.slot_eq (i + 1) y hy
      rwa [Nat.mod_add_mod, show out + 1 + i = out + (i + 1) by omega]

theorem eq_nil_iff (h : RingRep cap f slot inx out num xs) : xs = [] ↔ num = 0 := by
  rw [h.num_eq, List.length_eq_zero_iff]

theorem exists_cons (h : RingRep cap f slot inx out num xs) (hnum : num ≠ 0) :
    ∃ x rest, xs = x :: rest :=
  List.exists_cons_of_ne_nil fun h0 => hnum (h.eq_nil_iff.mp h0)

end RingRep

end PrplHypervisor
