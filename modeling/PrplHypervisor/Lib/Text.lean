import PrplHypervisor.Lib.While
import Mathlib.Logic.Function.Basic

/-!
# Text in memory

- `Holds m p l`: the cells of `m` from `p` on hold `l`.
- `Ends.swap`: the first and the last cell of a range change places and the range
  shrinks. The loop that does this while there are two cells reverses what the range
  holds (`reverse_spec`).
-/

namespace PrplHypervisor.Text

open While

variable {α : Type} {m : Nat → α} {p q : Nat} {l l' : List α} {c : α}

def Holds (m : Nat → α) : Nat → List α → Prop
  | _, [] => True
  | p, c :: l => m p = c ∧ Holds m (p + 1) l

theorem holds_iff : Holds m p l ↔ ∀ k (h : k < l.length), m (p + k) = l[k] := by
  induction l generalizing p with
  | nil => simp [Holds]
  | cons c l ih =>
    rw [Holds, ih]
    constructor
    · rintro ⟨h0, h⟩ (_ | k) hk
      · exact h0
      · have := h k (by simpa using hk)
        rwa [Nat.add_right_comm, Nat.add_assoc] at this
    · intro h
      refine ⟨h 0 (by simp), fun k hk => ?_⟩
      have := h (k + 1) (by simpa using hk)
      rwa [Nat.add_assoc, Nat.add_comm 1]

theorem holds_append : Holds m p (l ++ l') ↔ Holds m p l ∧ Holds m (p + l.length) l' := by
  induction l generalizing p with
  | nil => simp [Holds]
  | cons c l ih =>
    rw [List.cons_append, Holds, Holds, ih, and_assoc, List.length_cons, Nat.add_assoc,
      Nat.add_comm 1]

/-- A cell outside changes. -/
theorem Holds.update (h : Holds m p l) (hq : q < p ∨ p + l.length ≤ q) :
    Holds (Function.update m q c) p l := by
  rw [holds_iff] at h ⊢
  intro k hk
  rw [Function.update_of_ne (by omega)]
  exact h k hk

/-- The cell behind is written. -/
theorem Holds.concat (h : Holds m p l) :
    Holds (Function.update m (p + l.length) c) p (l ++ [c]) := by
  rw [holds_append]
  exact ⟨h.update (.inr (Nat.le_refl _)), by simp, trivial⟩

/-! ## Reversing in place -/

/-- A range of cells, given by its ends. -/
structure Ends (α : Type) where
  lo : Nat
  hi : Nat
  mem : Nat → α

def Ends.swap (s : Ends α) : Ends α :=
  let tmp := s.mem s.hi
  { lo := s.lo + 1
    hi := s.hi - 1
    mem := Function.update (Function.update s.mem s.hi (s.mem s.lo)) s.lo tmp }

/-- `j` pairs of `n` cells from `p` on have changed places. -/
structure Swapped (m : Nat → α) (p n j : Nat) (s : Ends α) : Prop where
  lo_eq : s.lo = p + j
  hi_eq : s.hi + j + 1 = p + n
  outside : ∀ a, a < p ∨ p + n ≤ a → s.mem a = m a
  inner : ∀ k, j ≤ k → k + j < n → s.mem (p + k) = m (p + k)
  outer : ∀ k < n, k < j ∨ n ≤ k + j → s.mem (p + k) = m (p + (n - 1 - k))

variable {n j : Nat} {s : Ends α}

theorem Swapped.start (hn : 0 < n) : Swapped m p n 0 ⟨p, p + n - 1, m⟩ :=
  ⟨rfl, by simp only; omega, fun _ _ => rfl, fun _ _ _ => rfl, fun k hk h => by omega⟩

theorem Swapped.swap (h : Swapped m p n j s) (hlt : s.lo < s.hi) :
    Swapped m p n (j + 1) s.swap := by
  have hlo := h.lo_eq
  have hhi := h.hi_eq
  have hmem : ∀ a, s.swap.mem a =
      if a = s.lo then s.mem s.hi else if a = s.hi then s.mem s.lo else s.mem a := by
    intro a
    simp only [Ends.swap, Function.update_apply]
  have hfirst : s.mem s.lo = m (p + j) := by
    rw [hlo]
    exact h.inner j (Nat.le_refl j) (by omega)
  have hlast : s.mem s.hi = m (p + (n - 1 - j)) := by
    rw [show s.hi = p + (n - 1 - j) by omega]
    exact h.inner _ (by omega) (by omega)
  refine ⟨by simp only [Ends.swap]; omega, by simp only [Ends.swap]; omega, ?_, ?_, ?_⟩
  · intro a ha
    rw [hmem, if_neg (by omega), if_neg (by omega), h.outside a ha]
  · intro k hk hkn
    rw [hmem, if_neg (by omega), if_neg (by omega), h.inner k (by omega) (by omega)]
  · intro k hk hj
    rw [hmem]
    by_cases h1 : k = j
    · rw [if_pos (by omega), hlast, h1]
    · by_cases h2 : k = n - 1 - j
      · rw [if_neg (by omega), if_pos (by omega), hfirst]
        congr 2
        omega
      · rw [if_neg (by omega), if_neg (by omega), h.outer k hk (by omega)]

/-- The loop ends, and the range holds what it held in reverse order. -/
theorem reverse_spec {rounds : Nat} (h : Holds m p l) (hl : 0 < l.length)
    (hrounds : l.length ≤ rounds) :
    ∃ s, whileLoop (fun s => s.lo < s.hi) Ends.swap rounds ⟨p, p + l.length - 1, m⟩ = some s ∧
      Holds s.mem p l.reverse ∧ ∀ a, a < p ∨ p + l.length ≤ a → s.mem a = m a := by
  let inv : Nat → Ends α → Prop := fun r s => ∃ j, r + j = l.length ∧ Swapped m p l.length j s
  have hstep : ∀ r s, inv r s → (decide (s.lo < s.hi)) = true → ∃ r' < r, inv r' s.swap := by
    rintro r s ⟨j, hj, hs⟩ hc
    have hlt : s.lo < s.hi := by simpa using hc
    have hlo := hs.lo_eq
    have hhi := hs.hi_eq
    exact ⟨r - 1, by omega, j + 1, by omega, hs.swap hlt⟩
  obtain ⟨r, t, ht, ⟨j, -, hs⟩, hc⟩ := whileLoop_total inv hstep
    ⟨0, by omega, Swapped.start hl⟩ hrounds
  have hge : ¬t.lo < t.hi := by simpa using hc
  have hlo := hs.lo_eq
  have hhi := hs.hi_eq
  refine ⟨t, ht, holds_iff.mpr fun k hk => ?_, hs.outside⟩
  rw [List.length_reverse] at hk
  rw [holds_iff] at h
  rw [List.getElem_reverse, ← h (l.length - 1 - k) (by omega)]
  by_cases hmid : k < j ∨ l.length ≤ k + j
  · exact hs.outer k hk hmid
  · rw [hs.inner k (by omega) (by omega)]
    congr 2
    omega

end PrplHypervisor.Text
