import Mathlib.Algebra.BigOperators.Intervals
import Mathlib.Algebra.BigOperators.Ring.Finset
import Mathlib.Data.BitVec
import Mathlib.Data.List.GetD
import Mathlib.Data.Nat.Digits.Lemmas
import Mathlib.Tactic.LinearCombination

/-!
# Numbers of several words, the lowest first

`value xs` is the number the words `xs` write in base `2 ^ w`. Words of one length are
determined by their value (`value_inj`), and every length has its bound (`value_lt`).
-/

namespace PrplHypervisor.Limbs

variable {w : Nat}

def value (xs : List (BitVec w)) : Nat := Nat.ofDigits (2 ^ w) (xs.map BitVec.toNat)

@[simp]
theorem value_nil : value ([] : List (BitVec w)) = 0 := rfl

@[simp]
theorem value_cons (x : BitVec w) (xs : List (BitVec w)) :
    value (x :: xs) = x.toNat + 2 ^ w * value xs := by
  rw [value, List.map_cons, Nat.ofDigits_cons, value]

theorem value_append (xs ys : List (BitVec w)) :
    value (xs ++ ys) = value xs + 2 ^ (w * xs.length) * value ys := by
  rw [value, List.map_append, Nat.ofDigits_append, List.length_map, ← pow_mul, value, value]

theorem value_singleton (x : BitVec w) : value [x] = x.toNat := by
  rw [value_cons, value_nil, Nat.mul_zero, Nat.add_zero]

theorem value_lt (xs : List (BitVec w)) : value xs < 2 ^ (w * xs.length) := by
  induction xs with
  | nil => exact Nat.succ_pos 0
  | cons x xs ih =>
    have hx := x.isLt
    have hmul : 2 ^ w * value xs + 2 ^ w ≤ 2 ^ w * 2 ^ (w * xs.length) := by
      rw [← Nat.mul_succ]
      exact Nat.mul_le_mul_left _ ih
    rw [value_cons, List.length_cons, Nat.mul_succ, Nat.add_comm (w * xs.length), Nat.pow_add]
    omega

theorem value_inj {xs ys : List (BitVec w)} (hlen : xs.length = ys.length)
    (h : value xs = value ys) : xs = ys := by
  induction xs generalizing ys with
  | nil => exact (List.length_eq_zero_iff.mp hlen.symm).symm
  | cons x xs ih =>
    cases ys with
    | nil => cases hlen
    | cons y ys =>
      rw [value_cons, value_cons] at h
      have hmod := congrArg (· % 2 ^ w) h
      have hdiv := congrArg (· / 2 ^ w) h
      simp only [Nat.add_mul_mod_self_left, Nat.mod_eq_of_lt x.isLt, Nat.mod_eq_of_lt y.isLt]
        at hmod
      simp only [Nat.add_mul_div_left _ _ (Nat.two_pow_pos w), Nat.div_eq_of_lt x.isLt,
        Nat.div_eq_of_lt y.isLt, Nat.zero_add] at hdiv
      rw [BitVec.eq_of_toNat_eq hmod, ih (Nat.succ.inj hlen) hdiv]

@[simp]
theorem value_replicate_zero (n : Nat) : value (List.replicate n (0 : BitVec w)) = 0 := by
  induction n with
  | zero => rfl
  | succ n ih =>
    rw [List.replicate_succ, value_cons, ih]
    simp

theorem value_eq_zero_iff {xs : List (BitVec w)} : value xs = 0 ↔ ∀ x ∈ xs, x = 0 := by
  refine ⟨fun h => ?_, fun h => ?_⟩
  · rw [value_inj (List.length_replicate.symm) (h.trans (value_replicate_zero xs.length).symm)]
    intro x hx
    exact List.eq_of_mem_replicate hx
  · rw [List.eq_replicate_of_mem h, value_replicate_zero]

/-- Words behind the last one do not change the words in front. -/
theorem value_take_mod (xs : List (BitVec w)) (n : Nat) :
    value (xs.take n) = value xs % 2 ^ (w * n) := by
  obtain hle | hlt := Nat.le_total n xs.length
  · have hsplit := value_append (xs.take n) (xs.drop n)
    have hbound := value_lt (xs.take n)
    rw [List.take_append_drop, List.length_take_of_le hle] at hsplit
    rw [List.length_take_of_le hle] at hbound
    rw [hsplit, Nat.add_mul_mod_self_left, Nat.mod_eq_of_lt hbound]
  · have hbound : value xs < 2 ^ (w * n) :=
      Nat.lt_of_lt_of_le (value_lt xs)
        (Nat.pow_le_pow_right (Nat.succ_pos 1) (Nat.mul_le_mul_left w hlt))
    rw [List.take_of_length_le hlt, Nat.mod_eq_of_lt hbound]

theorem value_drop_div (xs : List (BitVec w)) {n : Nat} (hn : n ≤ xs.length) :
    value (xs.drop n) = value xs / 2 ^ (w * n) := by
  have hsplit := value_append (xs.take n) (xs.drop n)
  have hbound := value_lt (xs.take n)
  rw [List.take_append_drop, List.length_take_of_le hn] at hsplit
  rw [List.length_take_of_le hn] at hbound
  rw [hsplit, Nat.add_mul_div_left _ _ (Nat.two_pow_pos _), Nat.div_eq_of_lt hbound, Nat.zero_add]

/-- One word is exchanged. -/
theorem value_set (xs : List (BitVec w)) {i : Nat} (hi : i < xs.length) (x : BitVec w) :
    value (xs.set i x) + 2 ^ (w * i) * xs[i].toNat = value xs + 2 ^ (w * i) * x.toNat := by
  induction xs generalizing i with
  | nil => exact absurd hi (Nat.not_lt_zero i)
  | cons y xs ih =>
    cases i with
    | zero =>
      simp only [List.set_cons_zero, value_cons, List.getElem_cons_zero, Nat.mul_zero, Nat.pow_zero]
      omega
    | succ i =>
      have hrest := ih (Nat.lt_of_succ_lt_succ hi)
      simp only [List.set_cons_succ, value_cons, List.getElem_cons_succ, Nat.mul_succ, Nat.pow_add]
      linear_combination 2 ^ w * hrest

theorem mul_getElem_le_value (xs : List (BitVec w)) {i : Nat} (hi : i < xs.length) :
    2 ^ (w * i) * xs[i].toNat ≤ value xs := by
  have hset := value_set xs hi 0
  have hzero : (0 : BitVec w).toNat = 0 := by simp
  rw [hzero, Nat.mul_zero, Nat.add_zero] at hset
  exact Nat.le_of_add_left_le (Nat.le_of_eq hset)

/-- Word `i`, zero behind the last one. -/
def wordAt (xs : List (BitVec w)) (i : Nat) : Nat := (xs.getD i 0).toNat

theorem wordAt_lt (xs : List (BitVec w)) (i : Nat) : wordAt xs i < 2 ^ w := (xs.getD i 0).isLt

theorem wordAt_of_le {xs : List (BitVec w)} {i : Nat} (h : xs.length ≤ i) : wordAt xs i = 0 := by
  rw [wordAt, List.getD_eq_default _ _ h]
  simp

theorem value_eq_sum {xs : List (BitVec w)} {n : Nat} (hn : xs.length ≤ n) :
    value xs = ∑ i ∈ Finset.range n, wordAt xs i * (2 ^ w) ^ i := by
  induction xs generalizing n with
  | nil =>
    refine (Finset.sum_eq_zero fun i _ => ?_).symm
    rw [wordAt_of_le (Nat.zero_le i), Nat.zero_mul]
  | cons x xs ih =>
    obtain ⟨n, rfl⟩ := Nat.exists_eq_succ_of_ne_zero (Nat.ne_of_gt (Nat.lt_of_lt_of_le
      (Nat.succ_pos xs.length) hn))
    rw [Finset.sum_range_succ', value_cons, ih (Nat.le_of_succ_le_succ hn), Finset.mul_sum,
      Nat.add_comm]
    refine congrArg₂ (· + ·) (Finset.sum_congr rfl fun i _ => ?_) ?_
    · rw [Nat.pow_succ, Nat.mul_left_comm, Nat.mul_comm (2 ^ w)]
      rfl
    · rw [Nat.pow_zero, Nat.mul_one]
      rfl

/-- The product, one column of words after the other. -/
theorem value_mul_eq_sum {xs ys : List (BitVec w)} {n : Nat} (hxs : xs.length = n)
    (hys : ys.length = n) :
    value xs * value ys = ∑ k ∈ Finset.range (2 * n - 1),
      (∑ i ∈ Finset.range (k + 1), wordAt xs i * wordAt ys (k - i)) * (2 ^ w) ^ k := by
  have hflip := Finset.sum_range_diag_flip (2 * n - 1)
    fun i j => wordAt xs i * (2 ^ w) ^ i * (wordAt ys j * (2 ^ w) ^ j)
  have hcolumn : ∀ k, (∑ i ∈ Finset.range (k + 1), wordAt xs i * wordAt ys (k - i)) *
      (2 ^ w) ^ k = ∑ i ∈ Finset.range (k + 1),
        wordAt xs i * (2 ^ w) ^ i * (wordAt ys (k - i) * (2 ^ w) ^ (k - i)) := by
    intro k
    rw [Finset.sum_mul]
    refine Finset.sum_congr rfl fun i hi => ?_
    have hik : i + (k - i) = k := by
      rw [Finset.mem_range] at hi
      omega
    conv_lhs => rw [← hik, pow_add, hik]
    ring
  simp only [hcolumn]
  rw [hflip, value_eq_sum (n := 2 * n - 1) (by omega), Finset.sum_mul]
  refine Finset.sum_congr rfl fun i _ => ?_
  obtain hi | hi := Nat.lt_or_ge i n
  · rw [value_eq_sum (show ys.length ≤ 2 * n - 1 - i by omega), Finset.mul_sum]
  · rw [wordAt_of_le (by omega)]
    simp

end PrplHypervisor.Limbs
