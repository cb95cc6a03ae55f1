import Mathlib.Algebra.Order.BigOperators.Group.Finset
import PrplHypervisor.Cryptography.Vli

/-!
# Products of large integers (cryptography/uECC.c)

`uECC_vli_mult` computes the words of the product from the lowest on. Three words `r0`, `r1`,
`r2` hold the sum of a column and what the columns before carried into it.

- `muladd_value`: one product into the three words.
- `MultInv`, `multColumn_spec`: the words so far and the carry are the sum of the columns.
- `vliMult_value`: all words together.
-/

namespace PrplHypervisor.UEcc

open Limbs

variable {w : Nat}

/-- `r0`, `r1` and `r2`. -/
structure Acc (w : Nat) where
  r0 : BitVec w
  r1 : BitVec w
  r2 : BitVec w

namespace Acc

def value (acc : Acc w) : Nat := Limbs.value [acc.r0, acc.r1, acc.r2]

/-- `r0 = r1; r1 = r2; r2 = 0`. -/
def shift (acc : Acc w) : Acc w := { r0 := acc.r1, r1 := acc.r2, r2 := 0 }

end Acc

/-- `muladd`; `uECC_dword_t` has twice the bits of a word. -/
def muladd (a b : BitVec w) (acc : Acc w) : Acc w :=
  let p := a.setWidth (2 * w) * b.setWidth (2 * w)
  let r01 := (acc.r1.setWidth (2 * w) <<< w ||| acc.r0.setWidth (2 * w)) + p
  { r0 := r01.setWidth w
    r1 := (r01 >>> w).setWidth w
    r2 := acc.r2 + if r01 < p then 1 else 0 }

/-- The inner loops of `uECC_vli_mult`, for `count` values of `i` from `low` on. -/
def column (left right : Vli w) (k low count : Nat) (acc : Acc w) : Acc w :=
  (List.range' low count).foldl
    (fun acc i => muladd (left.getD i 0) (right.getD (k - i) 0) acc) acc

/-- One round of the outer loops: `result` up to word `k`, and the accumulator. -/
def multColumn (left right : Vli w) (k low count : Nat) (s : Vli w × Acc w) : Vli w × Acc w :=
  let acc := column left right k low count s.2
  (s.1 ++ [acc.r0], acc.shift)

/-- `uECC_vli_mult`. -/
def vliMult (left right : Vli w) : Vli w :=
  let n := left.length
  let lower := (List.range n).foldl (fun s k => multColumn left right k 0 (k + 1) s)
    ([], { r0 := 0, r1 := 0, r2 := 0 })
  let upper := (List.range' n (n - 1)).foldl
    (fun s k => multColumn left right k (k + 1 - n) (n - (k + 1 - n)) s) lower
  upper.1 ++ [upper.2.r0]

/-! ## One product -/

theorem Acc.value_eq (acc : Acc w) :
    acc.value = acc.r0.toNat + 2 ^ w * acc.r1.toNat + 2 ^ w * (2 ^ w * acc.r2.toNat) := by
  simp only [Acc.value, value_cons, value_nil]
  ring

theorem two_pow_double (w : Nat) : 2 ^ (2 * w) = 2 ^ w * 2 ^ w := by
  rw [Nat.two_mul, Nat.pow_add]

theorem toNat_setWidth_double (x : BitVec w) : (x.setWidth (2 * w)).toNat = x.toNat := by
  refine BitVec.toNat_setWidth_of_le ?_
  omega

theorem mul_add_lt_double (x y : BitVec w) : x.toNat + 2 ^ w * y.toNat < 2 ^ (2 * w) := by
  have hx := x.isLt
  have hy := Nat.mul_le_mul_left (2 ^ w) y.isLt
  rw [Nat.mul_succ] at hy
  rw [two_pow_double]
  omega

/-- `((uECC_dword_t)(*r1) << uECC_WORD_BITS) | *r0`. -/
theorem toNat_dword (r0 r1 : BitVec w) :
    (r1.setWidth (2 * w) <<< w ||| r0.setWidth (2 * w)).toNat = r0.toNat + 2 ^ w * r1.toNat := by
  have hlt := mul_add_lt_double r0 r1
  rw [BitVec.toNat_or, BitVec.toNat_shiftLeft, toNat_setWidth_double, toNat_setWidth_double,
    Nat.shiftLeft_eq, Nat.mul_comm r1.toNat, Nat.mod_eq_of_lt (by omega),
    ← Nat.two_pow_add_eq_or_of_lt r0.isLt, Nat.add_comm]

theorem toNat_mul_double (a b : BitVec w) :
    (a.setWidth (2 * w) * b.setWidth (2 * w)).toNat = a.toNat * b.toNat := by
  rw [BitVec.toNat_mul, toNat_setWidth_double, toNat_setWidth_double, two_pow_double]
  exact Nat.mod_eq_of_lt (Nat.mul_lt_mul'' a.isLt b.isLt)

/-- The two lower words are the halves of the double word. -/
theorem toNat_halves (x : BitVec (2 * w)) :
    (x.setWidth w).toNat + 2 ^ w * ((x >>> w).setWidth w).toNat = x.toNat := by
  have hdiv : x.toNat / 2 ^ w < 2 ^ w := by
    refine Nat.div_lt_of_lt_mul ?_
    rw [← two_pow_double]
    exact x.isLt
  rw [BitVec.toNat_setWidth, BitVec.toNat_setWidth, BitVec.toNat_ushiftRight,
    Nat.shiftRight_eq_div_pow, Nat.mod_eq_of_lt hdiv, Nat.mod_add_div]

/-- The sum of the double words and the carry the comparison finds. -/
theorem add_carry {n : Nat} (x p : BitVec n) :
    (x + p).toNat + 2 ^ n * (if x + p < p then 1 else 0) = x.toNat + p.toNat := by
  have hx := x.isLt
  have hp := p.isLt
  by_cases hover : x.toNat + p.toNat < 2 ^ n
  · have hsum : (x + p).toNat = x.toNat + p.toNat := by
      rw [BitVec.toNat_add, Nat.mod_eq_of_lt hover]
    rw [if_neg (by rw [BitVec.lt_def]; omega), hsum]
    omega
  · have hsum : (x + p).toNat = x.toNat + p.toNat - 2 ^ n := by
      rw [BitVec.toNat_add, Nat.mod_eq_sub_mod (by omega), Nat.mod_eq_of_lt (by omega)]
    rw [if_pos (by rw [BitVec.lt_def]; omega), hsum]
    omega

theorem muladd_value {a b : BitVec w} {acc : Acc w}
    (h : acc.value + a.toNat * b.toNat < 2 ^ (3 * w)) :
    (muladd a b acc).value = acc.value + a.toNat * b.toNat := by
  have hcarry := add_carry (acc.r1.setWidth (2 * w) <<< w ||| acc.r0.setWidth (2 * w))
    (a.setWidth (2 * w) * b.setWidth (2 * w))
  rw [toNat_dword, toNat_mul_double] at hcarry
  simp only [Acc.value_eq, muladd] at h ⊢
  rw [toNat_halves]
  generalize (acc.r1.setWidth (2 * w) <<< w ||| acc.r0.setWidth (2 * w)) +
    a.setWidth (2 * w) * b.setWidth (2 * w) = r01 at hcarry ⊢
  generalize a.setWidth (2 * w) * b.setWidth (2 * w) = p at hcarry ⊢
  have hcube : 2 ^ (3 * w) = 2 ^ w * (2 ^ w * 2 ^ w) := by
    rw [show 3 * w = w + 2 * w by omega, Nat.pow_add, two_pow_double]
  rw [two_pow_double] at hcarry
  by_cases hlt : r01 < p
  · rw [if_pos hlt] at hcarry ⊢
    -- the third word has room for the carry
    have hroom : acc.r2.toNat + 1 < 2 ^ w := by
      have hle : 2 ^ w * (2 ^ w * (acc.r2.toNat + 1)) < 2 ^ w * (2 ^ w * 2 ^ w) := by
        rw [← hcube, Nat.mul_succ, Nat.mul_add]
        omega
      exact Nat.lt_of_mul_lt_mul_left (Nat.lt_of_mul_lt_mul_left hle)
    have hbase : 1 < 2 ^ w := by omega
    have hone : (1 : BitVec w).toNat = 1 := Nat.mod_eq_of_lt hbase
    rw [BitVec.toNat_add, hone, Nat.mod_eq_of_lt hroom]
    linear_combination hcarry
  · rw [if_neg hlt] at hcarry ⊢
    rw [BitVec.toNat_add, toNat_zero, Nat.add_zero, Nat.mod_eq_of_lt acc.r2.isLt]
    linear_combination hcarry

/-! ## Columns -/

theorem column_value {left right : Vli w} {k low count : Nat} (acc : Acc w)
    (h : acc.value + ∑ i ∈ Finset.Ico low (low + count), wordAt left i * wordAt right (k - i) <
      2 ^ (3 * w)) :
    (column left right k low count acc).value =
      acc.value + ∑ i ∈ Finset.Ico low (low + count), wordAt left i * wordAt right (k - i) := by
  induction count generalizing low acc with
  | zero => simp [column]
  | succ count ih =>
    have hlast : low + (count + 1) = low + 1 + count := by omega
    rw [Finset.sum_eq_sum_Ico_succ_bot (by omega), hlast, ← Nat.add_assoc] at h ⊢
    have hstep : (muladd (left.getD low 0) (right.getD (k - low) 0) acc).value =
        acc.value + wordAt left low * wordAt right (k - low) :=
      muladd_value (Nat.lt_of_le_of_lt (Nat.le_add_right _ _) h)
    rw [column, List.range'_succ, List.foldl_cons, ← hstep]
    refine ih _ ?_
    rw [hstep]
    exact h

/-- The products of column `k`. -/
def columnSum (left right : Vli w) (k : Nat) : Nat :=
  ∑ i ∈ Finset.range (k + 1), wordAt left i * wordAt right (k - i)

/-- The upper loop leaves out the products with a word behind the last one. -/
theorem columnSum_upper {left right : Vli w} {n k : Nat} (hleft : left.length = n)
    (hright : right.length = n) (hk : n ≤ k) :
    ∑ i ∈ Finset.Ico (k + 1 - n) (k + 1 - n + (n - (k + 1 - n))),
      wordAt left i * wordAt right (k - i) = columnSum left right k := by
  refine Finset.sum_subset (fun i hi => ?_) fun i hi hnot => ?_
  · rw [Finset.mem_Ico] at hi
    rw [Finset.mem_range]
    omega
  · rw [Finset.mem_range] at hi
    rw [Finset.mem_Ico] at hnot
    obtain hi' | hi' := Nat.lt_or_ge i n
    · rw [wordAt_of_le (show right.length ≤ k - i by omega), Nat.mul_zero]
    · rw [wordAt_of_le (by omega), Nat.zero_mul]

theorem columnSum_le {left : Vli w} {n : Nat} (hleft : left.length = n) (right : Vli w) (k : Nat) :
    columnSum left right k ≤ n * ((2 ^ w - 1) * (2 ^ w - 1)) := by
  have hpos := Nat.two_pow_pos w
  have hterm : ∀ i, wordAt left i * wordAt right (k - i) ≤ (2 ^ w - 1) * (2 ^ w - 1) := by
    intro i
    have hl := wordAt_lt left i
    have hr := wordAt_lt right (k - i)
    exact Nat.mul_le_mul (by omega) (by omega)
  have hzero : columnSum left right k =
      ∑ i ∈ Finset.range (k + 1) with i < n, wordAt left i * wordAt right (k - i) := by
    rw [columnSum, Finset.sum_filter]
    refine Finset.sum_congr rfl fun i _ => ?_
    by_cases hi : i < n
    · rw [if_pos hi]
    · rw [if_neg hi, wordAt_of_le (by omega), Nat.zero_mul]
  rw [hzero]
  refine (Finset.sum_le_card_nsmul _ _ _ fun i _ => hterm i).trans ?_
  rw [smul_eq_mul]
  refine Nat.mul_le_mul_right _ ?_
  have hsub : (Finset.range (k + 1)).filter (· < n) ⊆ Finset.range n := by
    intro i hi
    exact Finset.mem_range.mpr (Finset.mem_filter.mp hi).2
  exact (Finset.card_le_card hsub).trans (Finset.card_range n).le

/-! ## All columns -/

/-- Before column `k`: the words so far and the carry are the columns so far. -/
structure MultInv (left right : Vli w) (k : Nat) (s : Vli w × Acc w) : Prop where
  length : s.1.length = k
  sum : Limbs.value s.1 + 2 ^ (w * k) * s.2.value =
    ∑ j ∈ Finset.range k, columnSum left right j * (2 ^ w) ^ j
  carry : s.2.value ≤ left.length * (2 ^ w - 1)

theorem Acc.shift_value (acc : Acc w) : acc.r0.toNat + 2 ^ w * acc.shift.value = acc.value := by
  simp only [Acc.value_eq, Acc.shift, toNat_zero]
  ring

/-- One column, when the inner loop leaves out zeros only. -/
theorem MultInv.step {left right : Vli w} {k low count : Nat} {s : Vli w × Acc w}
    (h : MultInv left right k s) (hlen : left.length ≤ 2 ^ w)
    (hcolumn : ∑ i ∈ Finset.Ico low (low + count), wordAt left i * wordAt right (k - i) =
      columnSum left right k) :
    MultInv left right (k + 1) (multColumn left right k low count s) := by
  obtain ⟨hlength, hsum, hcarry⟩ := h
  have hle := columnSum_le (rfl : left.length = left.length) right k
  have hbase : 2 ^ w - 1 + 1 = 2 ^ w := Nat.succ_pred_eq_of_pos (Nat.two_pow_pos w)
  have htotal : s.2.value + columnSum left right k ≤ 2 ^ w * (left.length * (2 ^ w - 1)) := by
    refine (Nat.add_le_add hcarry hle).trans (Nat.le_of_eq ?_)
    conv_rhs => rw [← hbase]
    rw [Nat.add_sub_cancel]
    ring
  have hroom : s.2.value + columnSum left right k < 2 ^ (3 * w) := by
    refine Nat.lt_of_le_of_lt htotal ?_
    rw [show 3 * w = w + 2 * w by omega, Nat.pow_add, two_pow_double]
    refine Nat.mul_lt_mul_of_pos_left ?_ (Nat.two_pow_pos w)
    refine Nat.lt_of_le_of_lt (Nat.mul_le_mul_right _ hlen) ?_
    exact Nat.mul_lt_mul_of_pos_left (by omega) (Nat.two_pow_pos w)
  have hvalue := column_value s.2 (by rw [hcolumn]; exact hroom)
  rw [hcolumn] at hvalue
  have hshift := (column left right k low count s.2).shift_value
  refine ⟨?_, ?_, ?_⟩
  · rw [multColumn, List.length_append, List.length_singleton, hlength]
  · simp only [multColumn, value_append, value_singleton, hlength, Nat.mul_succ, Nat.pow_add]
    rw [Finset.sum_range_succ, ← hsum, ← pow_mul]
    linear_combination 2 ^ (w * k) * (hshift + hvalue)
  · simp only [multColumn]
    refine Nat.le_of_mul_le_mul_left ?_ (Nat.two_pow_pos w)
    omega

/-- A run of columns. -/
theorem MultInv.run {left right : Vli w} {k : Nat} {s : Vli w × Acc w} (low count : Nat → Nat)
    (n : Nat) (h : MultInv left right k s) (hlen : left.length ≤ 2 ^ w)
    (hcolumn : ∀ j, k ≤ j → ∑ i ∈ Finset.Ico (low j) (low j + count j),
      wordAt left i * wordAt right (j - i) = columnSum left right j) :
    MultInv left right (k + n)
      ((List.range' k n).foldl (fun s j => multColumn left right j (low j) (count j) s) s) := by
  induction n generalizing k s with
  | zero => exact h
  | succ n ih =>
    rw [List.range'_succ, List.foldl_cons, Nat.add_comm n 1, ← Nat.add_assoc]
    exact ih (h.step hlen (hcolumn k (Nat.le_refl k))) fun j hj => hcolumn j (by omega)

section Mult

variable {left right : Vli w}

theorem vliMult_inv (hlen : left.length = right.length) (hpos : 0 < left.length)
    (hroom : left.length ≤ 2 ^ w) :
    ∃ s, MultInv left right (2 * left.length - 1) s ∧ vliMult left right = s.1 ++ [s.2.r0] := by
  have hinit : MultInv left right 0 ([], { r0 := 0, r1 := 0, r2 := 0 }) := by
    refine ⟨rfl, ?_, ?_⟩
    · simp [Acc.value_eq]
    · simp [Acc.value_eq]
  have hlower := MultInv.run (fun _ => 0) (fun j => j + 1) left.length hinit hroom
    fun j _ => by rw [Nat.zero_add, ← Finset.range_eq_Ico, columnSum]
  rw [Nat.zero_add, ← List.range_eq_range'] at hlower
  have hupper := MultInv.run (fun j => j + 1 - left.length)
    (fun j => left.length - (j + 1 - left.length)) (left.length - 1) hlower hroom
    fun j hj => columnSum_upper rfl hlen.symm hj
  rw [show left.length + (left.length - 1) = 2 * left.length - 1 by omega] at hupper
  exact ⟨_, hupper, rfl⟩

theorem vliMult_length (hlen : left.length = right.length) (hpos : 0 < left.length)
    (hroom : left.length ≤ 2 ^ w) : (vliMult left right).length = 2 * left.length := by
  obtain ⟨s, hinv, heq⟩ := vliMult_inv hlen hpos hroom
  rw [heq, List.length_append, List.length_singleton, hinv.length]
  omega

/-- The words are those of the product; nothing is carried out of the last one. -/
theorem vliMult_value (hlen : left.length = right.length) (hpos : 0 < left.length)
    (hroom : left.length ≤ 2 ^ w) :
    Limbs.value (vliMult left right) = Limbs.value left * Limbs.value right := by
  obtain ⟨s, hinv, heq⟩ := vliMult_inv hlen hpos hroom
  have hsum := hinv.sum
  have hproduct := value_mul_eq_sum (rfl : left.length = left.length) hlen.symm
  simp only [columnSum] at hsum
  rw [← hproduct] at hsum
  have hbound : Limbs.value left * Limbs.value right <
      2 ^ (w * (2 * left.length - 1)) * 2 ^ w := by
    have hmul := Nat.mul_lt_mul'' (value_lt left) (value_lt right)
    rw [← hlen, ← Nat.pow_add] at hmul
    refine Nat.lt_of_lt_of_eq hmul ?_
    rw [← Nat.pow_add, ← Nat.mul_succ, ← Nat.mul_add]
    exact congrArg (fun e => 2 ^ (w * e)) (by omega)
  have hacc : s.2.value < 2 ^ w := by
    refine Nat.lt_of_mul_lt_mul_left (a := 2 ^ (w * (2 * left.length - 1))) ?_
    omega
  have hr0 : s.2.r0.toNat = s.2.value := by
    have hshift := s.2.shift_value
    rw [← Nat.mod_eq_of_lt hacc, ← hshift, Nat.add_mul_mod_self_left,
      Nat.mod_eq_of_lt s.2.r0.isLt]
  rw [heq, value_append, value_singleton, hinv.length, hr0, hsum]

end Mult

end PrplHypervisor.UEcc
