import Mathlib.Data.List.GetD
import Mathlib.Data.Nat.Size
import Mathlib.Tactic.LinearCombination
import PrplHypervisor.Lib.Limbs

/-!
# Large integers (cryptography/uECC.c)

A `vli` is the list of its words, the lowest first; `num_words` is the length of the list. The
hypervisor has words of 32 bits, the host program words of 64 bits.

- `vliAdd_spec`, `vliSub_spec`: sum and difference with the carry and the borrow.
- `vliCmp_eq`, `vliCmpUnsafe_eq`: both comparisons give the sign of the difference.
- `vliNumBits_eq`, `vliTestBit_eq`, `vliRshift1_value`: the bits of the number.
-/

namespace PrplHypervisor.UEcc

open Limbs

variable {w : Nat}

/-- `uECC_word_t` and arrays of them. -/
abbrev Vli (w : Nat) := List (BitVec w)

/-! ## The functions -/

/-- `uECC_vli_clear`. -/
def vliClear (w numWords : Nat) : Vli w := List.replicate numWords 0

/-- `uECC_vli_isZero`. -/
def vliIsZero (vli : Vli w) : Bool := vli.foldl (· ||| ·) 0 == 0

/-- `uECC_vli_testBit`. -/
def vliTestBit (vli : Vli w) (bit : Nat) : Bool :=
  vli.getD (bit / w) 0 &&& ((1 : BitVec w) <<< (bit % w)) != 0

/-- `vli_numDigits`: the loop from the last word. -/
def vliNumDigits (vli : Vli w) : Nat → Nat
  | 0 => 0
  | i + 1 => if vli.getD i 0 = 0 then vliNumDigits vli i else i + 1

/-- `for (i = 0; digit; ++i) digit >>= 1`, at most `rounds` times. -/
def countBits : Nat → BitVec w → Nat
  | 0, _ => 0
  | rounds + 1, digit => if digit = 0 then 0 else countBits rounds (digit >>> 1) + 1

/-- `uECC_vli_numBits`. -/
def vliNumBits (vli : Vli w) : Nat :=
  let numDigits := vliNumDigits vli vli.length
  if numDigits = 0 then 0
  else (numDigits - 1) * w + countBits w (vli.getD (numDigits - 1) 0)

/-- The loop of `uECC_vli_cmp_unsafe`, from the last words. -/
def cmpLoop : List (BitVec w) → List (BitVec w) → Int
  | l :: left, r :: right => if l > r then 1 else if l < r then -1 else cmpLoop left right
  | _, _ => 0

/-- `uECC_vli_cmp_unsafe`. -/
def vliCmpUnsafe (left right : Vli w) : Int := cmpLoop left.reverse right.reverse

/-- `uECC_vli_equal`. -/
def vliEqual (left right : Vli w) : Bool :=
  (List.zipWith (· ^^^ ·) left.reverse right.reverse).foldl (· ||| ·) 0 == 0

/-- One word of `uECC_vli_add`: the sum and the carry. -/
def addWord (l r carry : BitVec w) : BitVec w × BitVec w :=
  let sum := l + r + carry
  (sum, if sum ≠ l then if sum < l then 1 else 0 else carry)

/-- The loop of `uECC_vli_add`. -/
def addLoop : Vli w → Vli w → BitVec w → Vli w × BitVec w
  | l :: left, r :: right, carry =>
    let word := addWord l r carry
    let rest := addLoop left right word.2
    (word.1 :: rest.1, rest.2)
  | _, _, carry => ([], carry)

/-- `uECC_vli_add`: `result` and the carry it returns. -/
def vliAdd (left right : Vli w) : Vli w × BitVec w := addLoop left right 0

/-- One word of `uECC_vli_sub`: the difference and the borrow. -/
def subWord (l r borrow : BitVec w) : BitVec w × BitVec w :=
  let diff := l - r - borrow
  (diff, if diff ≠ l then if diff > l then 1 else 0 else borrow)

/-- The loop of `uECC_vli_sub`. -/
def subLoop : Vli w → Vli w → BitVec w → Vli w × BitVec w
  | l :: left, r :: right, borrow =>
    let word := subWord l r borrow
    let rest := subLoop left right word.2
    (word.1 :: rest.1, rest.2)
  | _, _, borrow => ([], borrow)

/-- `uECC_vli_sub`: `result` and the borrow it returns. -/
def vliSub (left right : Vli w) : Vli w × BitVec w := subLoop left right 0

/-- `uECC_vli_cmp`. -/
def vliCmp (left right : Vli w) : Int :=
  let sub := vliSub left right
  let neg : Int := if sub.2 ≠ 0 then 1 else 0
  let notEqual : Int := if vliIsZero sub.1 then 0 else 1
  notEqual - 2 * neg

/-- The loop of `uECC_vli_rshift1`, from the last word. -/
def rshift1Loop : List (BitVec w) → BitVec w → List (BitVec w)
  | temp :: rest, carry => ((temp >>> 1) ||| carry) :: rshift1Loop rest (temp <<< (w - 1))
  | [], _ => []

/-- `uECC_vli_rshift1`. -/
def vliRshift1 (vli : Vli w) : Vli w := (rshift1Loop vli.reverse 0).reverse

/-! ## Sum and difference -/

theorem toNat_zero : (0 : BitVec w).toNat = 0 := by simp

/-- One is the carry a word can hold. -/
theorem toNat_one_of_ne {x y : BitVec w} (h : x ≠ y) : (1 : BitVec w).toNat = 1 := by
  cases w with
  | zero => exact absurd (Subsingleton.elim x y) h
  | succ w => exact Nat.mod_eq_of_lt (Nat.one_lt_two_pow (Nat.succ_ne_zero w))

theorem addWord_spec (l r carry : BitVec w) (hc : carry.toNat ≤ 1) :
    (addWord l r carry).1.toNat + 2 ^ w * (addWord l r carry).2.toNat =
      l.toNat + r.toNat + carry.toNat ∧ (addWord l r carry).2.toNat ≤ 1 := by
  have hl := l.isLt
  have hr := r.isLt
  have hsum : (l + r + carry).toNat = (l.toNat + r.toNat + carry.toNat) % 2 ^ w := by
    rw [BitVec.toNat_add, BitVec.toNat_add, Nat.mod_add_mod]
  simp only [addWord]
  by_cases hover : l.toNat + r.toNat + carry.toNat < 2 ^ w
  · -- no carry out: the sum is not below `l`
    rw [Nat.mod_eq_of_lt hover] at hsum
    by_cases heq : l + r + carry = l
    · have := congrArg BitVec.toNat heq
      rw [if_neg (not_not.mpr heq), show carry.toNat = 0 by omega]
      omega
    · rw [if_pos heq, if_neg (by rw [BitVec.lt_def]; omega)]
      rw [toNat_zero]
      omega
  · rw [Nat.mod_eq_sub_mod (by omega), Nat.mod_eq_of_lt (by omega)] at hsum
    by_cases heq : l + r + carry = l
    · have := congrArg BitVec.toNat heq
      rw [if_neg (not_not.mpr heq), show carry.toNat = 1 by omega]
      omega
    · have hne : (l + r + carry).toNat ≠ l.toNat := fun h => heq (BitVec.eq_of_toNat_eq h)
      rw [if_pos heq, if_pos (by rw [BitVec.lt_def]; omega), toNat_one_of_ne heq]
      omega

theorem addLoop_spec {left right : Vli w} (hlen : left.length = right.length) (carry : BitVec w)
    (hc : carry.toNat ≤ 1) :
    value (addLoop left right carry).1 +
        2 ^ (w * left.length) * (addLoop left right carry).2.toNat =
      value left + value right + carry.toNat ∧ (addLoop left right carry).2.toNat ≤ 1 := by
  induction left generalizing right carry with
  | nil =>
    rw [List.length_eq_zero_iff.mp hlen.symm]
    simpa [addLoop] using hc
  | cons l left ih =>
    cases right with
    | nil => cases hlen
    | cons r right =>
      obtain ⟨hword, hcarry⟩ := addWord_spec l r carry hc
      obtain ⟨hrest, hout⟩ := ih (Nat.succ.inj hlen) (addWord l r carry).2 hcarry
      refine ⟨?_, hout⟩
      simp only [addLoop, value_cons, List.length_cons, Nat.mul_succ, Nat.pow_add]
      linear_combination hword + 2 ^ w * hrest

theorem addLoop_length {left right : Vli w} (hlen : left.length = right.length)
    (carry : BitVec w) : (addLoop left right carry).1.length = left.length := by
  induction left generalizing right carry with
  | nil => rfl
  | cons l left ih =>
    cases right with
    | nil => cases hlen
    | cons r right => simp only [addLoop, List.length_cons, ih (Nat.succ.inj hlen)]

section Add

variable {left right : Vli w}

theorem vliAdd_length (hlen : left.length = right.length) :
    (vliAdd left right).1.length = left.length := addLoop_length hlen 0

/-- The carry counts what does not fit in the words. -/
theorem vliAdd_spec (hlen : left.length = right.length) :
    value (vliAdd left right).1 + 2 ^ (w * left.length) * (vliAdd left right).2.toNat =
      value left + value right := by
  have hspec := (addLoop_spec hlen 0 (by rw [toNat_zero]; exact Nat.zero_le 1)).1
  rw [toNat_zero] at hspec
  exact hspec

theorem vliAdd_carry_le (hlen : left.length = right.length) : (vliAdd left right).2.toNat ≤ 1 :=
  (addLoop_spec hlen 0 (by rw [toNat_zero]; exact Nat.zero_le 1)).2

/-- The words are the sum modulo their range. -/
theorem vliAdd_value (hlen : left.length = right.length) :
    value (vliAdd left right).1 = (value left + value right) % 2 ^ (w * left.length) := by
  have hbound := value_lt (vliAdd left right).1
  rw [vliAdd_length hlen] at hbound
  rw [← vliAdd_spec hlen, Nat.add_mul_mod_self_left, Nat.mod_eq_of_lt hbound]

/-- There is a carry exactly if the sum does not fit. -/
theorem vliAdd_carry_iff (hlen : left.length = right.length) :
    (vliAdd left right).2 = 0 ↔ value left + value right < 2 ^ (w * left.length) := by
  have hbound := value_lt (vliAdd left right).1
  have hspec := vliAdd_spec hlen
  rw [vliAdd_length hlen] at hbound
  refine ⟨fun h => ?_, fun h => ?_⟩
  · rw [h, toNat_zero] at hspec
    omega
  · refine BitVec.eq_of_toNat_eq ?_
    by_contra hne
    rw [toNat_zero] at hne
    have := Nat.le_mul_of_pos_right (2 ^ (w * left.length)) (Nat.pos_of_ne_zero hne)
    omega

end Add

theorem subWord_spec (l r borrow : BitVec w) (hb : borrow.toNat ≤ 1) :
    (subWord l r borrow).1.toNat + r.toNat + borrow.toNat =
      l.toNat + 2 ^ w * (subWord l r borrow).2.toNat ∧ (subWord l r borrow).2.toNat ≤ 1 := by
  have hl := l.isLt
  have hr := r.isLt
  have hborrow := borrow.isLt
  simp only [subWord]
  by_cases hover : r.toNat + borrow.toNat ≤ l.toNat
  · -- no borrow: the difference is not above `l`
    have hdiff : (l - r - borrow).toNat = l.toNat - r.toNat - borrow.toNat := by
      rw [BitVec.toNat_sub_of_le, BitVec.toNat_sub_of_le]
      · rw [BitVec.le_def]
        omega
      · rw [BitVec.le_def, BitVec.toNat_sub_of_le]
        · omega
        · rw [BitVec.le_def]
          omega
    by_cases heq : l - r - borrow = l
    · have := congrArg BitVec.toNat heq
      rw [if_neg (not_not.mpr heq), show borrow.toNat = 0 by omega]
      omega
    · rw [if_pos heq, if_neg (by rw [gt_iff_lt, BitVec.lt_def]; omega), toNat_zero]
      omega
  · have hdiff : (l - r - borrow).toNat = l.toNat + 2 ^ w - r.toNat - borrow.toNat := by
      rw [BitVec.toNat_sub, BitVec.toNat_sub, Nat.add_mod_mod]
      obtain hcase | hcase := Nat.lt_or_ge l.toNat r.toNat
      · rw [Nat.mod_eq_sub_mod (by omega), Nat.mod_eq_of_lt (by omega)]
        omega
      · rw [Nat.mod_eq_sub_mod (by omega), Nat.mod_eq_of_lt (by omega)]
        omega
    by_cases heq : l - r - borrow = l
    · have := congrArg BitVec.toNat heq
      rw [if_neg (not_not.mpr heq), show borrow.toNat = 1 by omega]
      omega
    · have hne : (l - r - borrow).toNat ≠ l.toNat := fun h => heq (BitVec.eq_of_toNat_eq h)
      rw [if_pos heq, if_pos (by rw [gt_iff_lt, BitVec.lt_def]; omega), toNat_one_of_ne heq]
      omega

theorem subLoop_spec {left right : Vli w} (hlen : left.length = right.length) (borrow : BitVec w)
    (hb : borrow.toNat ≤ 1) :
    value (subLoop left right borrow).1 + value right + borrow.toNat =
      value left + 2 ^ (w * left.length) * (subLoop left right borrow).2.toNat ∧
      (subLoop left right borrow).2.toNat ≤ 1 := by
  induction left generalizing right borrow with
  | nil =>
    rw [List.length_eq_zero_iff.mp hlen.symm]
    simpa [subLoop] using hb
  | cons l left ih =>
    cases right with
    | nil => cases hlen
    | cons r right =>
      obtain ⟨hword, hborrow⟩ := subWord_spec l r borrow hb
      obtain ⟨hrest, hout⟩ := ih (Nat.succ.inj hlen) (subWord l r borrow).2 hborrow
      refine ⟨?_, hout⟩
      simp only [subLoop, value_cons, List.length_cons, Nat.mul_succ, Nat.pow_add]
      linear_combination hword + 2 ^ w * hrest

theorem subLoop_length {left right : Vli w} (hlen : left.length = right.length)
    (borrow : BitVec w) : (subLoop left right borrow).1.length = left.length := by
  induction left generalizing right borrow with
  | nil => rfl
  | cons l left ih =>
    cases right with
    | nil => cases hlen
    | cons r right => simp only [subLoop, List.length_cons, ih (Nat.succ.inj hlen)]

section Sub

variable {left right : Vli w}

theorem vliSub_length (hlen : left.length = right.length) :
    (vliSub left right).1.length = left.length := subLoop_length hlen 0

theorem vliSub_spec (hlen : left.length = right.length) :
    value (vliSub left right).1 + value right =
      value left + 2 ^ (w * left.length) * (vliSub left right).2.toNat := by
  have hspec := (subLoop_spec hlen 0 (by rw [toNat_zero]; exact Nat.zero_le 1)).1
  rw [toNat_zero] at hspec
  exact hspec

theorem vliSub_borrow_le (hlen : left.length = right.length) : (vliSub left right).2.toNat ≤ 1 :=
  (subLoop_spec hlen 0 (by rw [toNat_zero]; exact Nat.zero_le 1)).2

/-- There is no borrow exactly if the difference is a natural number. -/
theorem vliSub_borrow_iff (hlen : left.length = right.length) :
    (vliSub left right).2 = 0 ↔ value right ≤ value left := by
  have hbound := value_lt (vliSub left right).1
  have hspec := vliSub_spec hlen
  rw [vliSub_length hlen] at hbound
  refine ⟨fun h => ?_, fun h => ?_⟩
  · rw [h, toNat_zero] at hspec
    omega
  · refine BitVec.eq_of_toNat_eq ?_
    by_contra hne
    rw [toNat_zero] at hne
    have := Nat.le_mul_of_pos_right (2 ^ (w * left.length)) (Nat.pos_of_ne_zero hne)
    omega

theorem vliSub_value_of_le (hlen : left.length = right.length) (h : value right ≤ value left) :
    value (vliSub left right).1 = value left - value right := by
  have hspec := vliSub_spec hlen
  rw [(vliSub_borrow_iff hlen).mpr h, toNat_zero] at hspec
  omega

theorem vliSub_value_of_lt (hlen : left.length = right.length) (h : value left < value right) :
    value (vliSub left right).1 = 2 ^ (w * left.length) + value left - value right := by
  have hspec := vliSub_spec hlen
  have hle := vliSub_borrow_le hlen
  have hne : (vliSub left right).2.toNat ≠ 0 := by
    intro h0
    have := (vliSub_borrow_iff hlen).mp (BitVec.eq_of_toNat_eq (h0.trans toNat_zero.symm))
    omega
  rw [show (vliSub left right).2.toNat = 1 by omega] at hspec
  omega

end Sub

/-! ## Comparisons -/

theorem foldl_or_eq_zero {xs : List (BitVec w)} {a : BitVec w} :
    xs.foldl (· ||| ·) a = 0 ↔ a = 0 ∧ ∀ x ∈ xs, x = 0 := by
  induction xs generalizing a with
  | nil => simp
  | cons x xs ih =>
    rw [List.foldl_cons, ih, List.forall_mem_cons, ← and_assoc]
    exact and_congr_left' BitVec.or_eq_zero_iff

theorem vliIsZero_iff (vli : Vli w) : vliIsZero vli = true ↔ value vli = 0 := by
  rw [vliIsZero, beq_iff_eq, foldl_or_eq_zero, value_eq_zero_iff]
  exact and_iff_right rfl

theorem zipWith_xor_eq_zero {xs ys : List (BitVec w)} (hlen : xs.length = ys.length) :
    (∀ x ∈ List.zipWith (· ^^^ ·) xs ys, x = 0) ↔ xs = ys := by
  induction xs generalizing ys with
  | nil =>
    rw [List.length_eq_zero_iff.mp hlen.symm]
    simp
  | cons x xs ih =>
    cases ys with
    | nil => cases hlen
    | cons y ys =>
      rw [List.zipWith_cons_cons, List.forall_mem_cons, ih (Nat.succ.inj hlen), List.cons.injEq]
      exact and_congr_left' BitVec.xor_eq_zero_iff

theorem vliEqual_iff {left right : Vli w} (hlen : left.length = right.length) :
    vliEqual left right = true ↔ left = right := by
  rw [vliEqual, beq_iff_eq, foldl_or_eq_zero, and_iff_right rfl, ← List.reverse_inj]
  refine zipWith_xor_eq_zero ?_
  rw [List.length_reverse, List.length_reverse, hlen]

theorem value_reverse_cons (x : BitVec w) (xs : List (BitVec w)) :
    value (x :: xs).reverse = value xs.reverse + 2 ^ (w * xs.length) * x.toNat := by
  rw [List.reverse_cons, value_append, value_singleton, List.length_reverse]

/-- The first word that differs decides, whatever the words below are. -/
theorem cmpLoop_eq {left right : List (BitVec w)} (hlen : left.length = right.length) :
    cmpLoop left right = Int.sign ((value left.reverse : Int) - value right.reverse) := by
  induction left generalizing right with
  | nil =>
    rw [List.length_eq_zero_iff.mp hlen.symm]
    rfl
  | cons l left ih =>
    cases right with
    | nil => cases hlen
    | cons r right =>
      have hlen := Nat.succ.inj hlen
      have hl := value_lt left.reverse
      have hr := value_lt right.reverse
      rw [List.length_reverse] at hl hr
      rw [value_reverse_cons, value_reverse_cons, ← hlen]
      rw [← hlen] at hr
      simp only [cmpLoop]
      obtain hlt | heq | hgt := Nat.lt_trichotomy l.toNat r.toNat
      · have hmul := Nat.mul_le_mul_left (2 ^ (w * left.length)) hlt
        rw [Nat.mul_succ] at hmul
        rw [if_neg (by rw [gt_iff_lt, BitVec.lt_def]; omega),
          if_pos (BitVec.lt_def.mpr hlt)]
        exact (Int.sign_eq_neg_one_of_neg (by omega)).symm
      · rw [if_neg (by rw [gt_iff_lt, BitVec.lt_def]; omega), if_neg (by rw [BitVec.lt_def]; omega),
          ih hlen, heq]
        exact congrArg Int.sign (by push_cast; ring)
      · have hmul := Nat.mul_le_mul_left (2 ^ (w * left.length)) hgt
        rw [Nat.mul_succ] at hmul
        rw [if_pos (BitVec.lt_def.mpr hgt)]
        exact (Int.sign_eq_one_of_pos (by omega)).symm

section Compare

variable {left right : Vli w}

theorem vliCmpUnsafe_eq (hlen : left.length = right.length) :
    vliCmpUnsafe left right = Int.sign ((value left : Int) - value right) := by
  rw [vliCmpUnsafe, cmpLoop_eq (by rw [List.length_reverse, List.length_reverse, hlen]),
    List.reverse_reverse, List.reverse_reverse]

/-- The comparison in constant time agrees with the other one. -/
theorem vliCmp_eq (hlen : left.length = right.length) :
    vliCmp left right = Int.sign ((value left : Int) - value right) := by
  simp only [vliCmp]
  have hr := value_lt right
  rw [← hlen] at hr
  obtain hlt | hge := Nat.lt_or_ge (value left) (value right)
  · have hborrow : (vliSub left right).2 ≠ 0 := fun h => by
      have := (vliSub_borrow_iff hlen).mp h
      omega
    have hzero : ¬vliIsZero (vliSub left right).1 = true := by
      rw [vliIsZero_iff, vliSub_value_of_lt hlen hlt]
      omega
    rw [if_pos hborrow, if_neg hzero, Int.sign_eq_neg_one_of_neg (by omega)]
    rfl
  · have hzero := vliIsZero_iff (vliSub left right).1
    rw [vliSub_value_of_le hlen hge] at hzero
    rw [if_neg (not_not.mpr ((vliSub_borrow_iff hlen).mpr hge))]
    obtain heq | hlt := Nat.eq_or_lt_of_le hge
    · rw [if_pos (hzero.mpr (by omega)), heq, Int.sub_self]
      rfl
    · rw [if_neg (fun h => by have := hzero.mp h; omega), Int.sign_eq_one_of_pos (by omega)]
      rfl

theorem vliCmpUnsafe_eq_one_iff (hlen : left.length = right.length) :
    vliCmpUnsafe left right = 1 ↔ value right < value left := by
  rw [vliCmpUnsafe_eq hlen, Int.sign_eq_one_iff_pos]
  omega

theorem vliCmpUnsafe_pos_iff (hlen : left.length = right.length) :
    0 < vliCmpUnsafe left right ↔ value right < value left := by
  rw [vliCmpUnsafe_eq hlen, Int.sign_pos_iff]
  omega

theorem vliCmpUnsafe_neg_iff (hlen : left.length = right.length) :
    vliCmpUnsafe left right < 0 ↔ value left < value right := by
  rw [vliCmpUnsafe_eq hlen, Int.sign_neg_iff]
  omega

theorem vliCmpUnsafe_eq_zero_iff (hlen : left.length = right.length) :
    vliCmpUnsafe left right = 0 ↔ left = right := by
  rw [vliCmpUnsafe_eq hlen, Int.sign_eq_zero_iff_zero]
  refine ⟨fun h => value_inj hlen (by omega), fun h => by rw [h, Int.sub_self]⟩

end Compare

/-! ## Bits -/

theorem testBit_value (hw : 0 < w) (vli : Vli w) (bit : Nat) :
    (value vli).testBit bit = (vli.getD (bit / w) 0).getLsbD (bit % w) := by
  induction vli generalizing bit with
  | nil => simp
  | cons x xs ih =>
    rw [value_cons, Nat.add_comm, Nat.testBit_two_pow_mul_add _ x.isLt]
    by_cases hbit : bit < w
    · rw [if_pos hbit, Nat.div_eq_of_lt hbit, Nat.mod_eq_of_lt hbit]
      rfl
    · have hsub : bit = bit - w + w := by omega
      rw [if_neg hbit, ih, hsub, Nat.add_div_right _ hw, Nat.add_mod_right, Nat.add_sub_cancel]
      rfl

theorem vliTestBit_eq (hw : 0 < w) (vli : Vli w) (bit : Nat) :
    vliTestBit vli bit = (value vli).testBit bit := by
  have hmask : (1 : BitVec w) <<< (bit % w) = BitVec.twoPow w (bit % w) :=
    (BitVec.twoPow_eq w (bit % w)).symm
  have hpow : BitVec.twoPow w (bit % w) ≠ 0 := by
    intro h
    have hbit : (BitVec.twoPow w (bit % w)).getLsbD (bit % w) = true := by
      simp [Nat.mod_lt bit hw]
    rw [h] at hbit
    simp at hbit
  rw [testBit_value hw, vliTestBit, hmask, BitVec.and_twoPow]
  cases (vli.getD (bit / w) 0).getLsbD (bit % w)
  · simp
  · simpa using hpow

/-- Bit 0 is what `EVEN` looks at. -/
theorem vliTestBit_zero (hw : 0 < w) (vli : Vli w) :
    vliTestBit vli 0 = decide (value vli % 2 = 1) := by
  rw [vliTestBit_eq hw, Nat.testBit_zero]

/-- The words from the number of digits on are zero, the one below is not. -/
theorem vliNumDigits_spec (vli : Vli w) (i : Nat) :
    vliNumDigits vli i ≤ i ∧
      (∀ j, vliNumDigits vli i ≤ j → j < i → vli.getD j 0 = 0) ∧
      (vliNumDigits vli i ≠ 0 → vli.getD (vliNumDigits vli i - 1) 0 ≠ 0) := by
  induction i with
  | zero =>
    exact ⟨Nat.le_refl 0, fun j _ hj => absurd hj (Nat.not_lt_zero j), fun h => absurd rfl h⟩
  | succ i ih =>
    obtain ⟨hle, hzero, htop⟩ := ih
    rw [vliNumDigits]
    by_cases hi : vli.getD i 0 = 0
    · rw [if_pos hi]
      refine ⟨by omega, ?_, htop⟩
      intro j hj hlt
      obtain hlt | rfl := Nat.lt_succ_iff_lt_or_eq.mp hlt
      · exact hzero j hj hlt
      · exact hi
    · rw [if_neg hi]
      exact ⟨Nat.le_refl _, fun j hj hlt => by omega, fun _ => hi⟩

theorem size_half {n : Nat} (hn : n ≠ 0) : n.size = (n / 2).size + 1 := by
  refine Nat.le_antisymm (Nat.size_le.mpr ?_) ?_
  · have hlt := Nat.lt_size_self (n / 2)
    rw [Nat.pow_succ]
    omega
  · obtain ⟨k, hk⟩ := Nat.exists_eq_succ_of_ne_zero (Nat.size_eq_zero.not.mpr hn)
    have hlt := Nat.lt_size_self n
    rw [hk, Nat.pow_succ] at hlt
    rw [hk]
    exact Nat.succ_le_succ (Nat.size_le.mpr (by omega))

theorem countBits_eq {rounds : Nat} {digit : BitVec w} (h : digit.toNat < 2 ^ rounds) :
    countBits rounds digit = digit.toNat.size := by
  induction rounds generalizing digit with
  | zero =>
    have hzero : digit.toNat = 0 := by omega
    rw [countBits, hzero, Nat.size_zero]
  | succ rounds ih =>
    rw [countBits]
    by_cases hdigit : digit = 0
    · rw [if_pos hdigit, hdigit, toNat_zero, Nat.size_zero]
    · have hpos : digit.toNat ≠ 0 := by
        intro h
        exact hdigit (BitVec.eq_of_toNat_eq (h.trans toNat_zero.symm))
      have hhalf : (digit >>> 1).toNat = digit.toNat / 2 := by
        rw [BitVec.toNat_ushiftRight, Nat.shiftRight_one]
      rw [if_neg hdigit, ih (by rw [hhalf]; omega), hhalf, size_half hpos]

theorem size_add_mul {k low top : Nat} (hlow : low < 2 ^ k) (htop : top ≠ 0) :
    (low + 2 ^ k * top).size = k + top.size := by
  refine Nat.le_antisymm (Nat.size_le.mpr ?_) ?_
  · have hmul := Nat.mul_le_mul_left (2 ^ k) (Nat.lt_size_self top)
    rw [Nat.mul_succ] at hmul
    rw [Nat.pow_add]
    omega
  · obtain ⟨n, hn⟩ := Nat.exists_eq_succ_of_ne_zero (Nat.size_eq_zero.not.mpr htop)
    have hmul := Nat.mul_le_mul_left (2 ^ k) (Nat.lt_size.mp (hn ▸ Nat.lt_succ_self n))
    rw [← Nat.pow_add] at hmul
    rw [hn, Nat.add_succ]
    exact Nat.lt_size.mpr (by omega)

theorem value_take_of_zeros {vli : Vli w} {n : Nat}
    (h : ∀ j, n ≤ j → j < vli.length → vli.getD j 0 = 0) : value (vli.take n) = value vli := by
  have hdrop : value (vli.drop n) = 0 := by
    rw [value_eq_zero_iff]
    intro x hx
    obtain ⟨j, hj, rfl⟩ := List.mem_iff_getElem.mp hx
    rw [List.length_drop] at hj
    have hzero := h (n + j) (Nat.le_add_right n j) (by omega)
    rw [List.getD_eq_getElem _ _ (by omega)] at hzero
    rw [List.getElem_drop, hzero]
  conv_rhs => rw [← List.take_append_drop n vli, value_append, hdrop, Nat.mul_zero, Nat.add_zero]

theorem vliNumBits_eq (vli : Vli w) : vliNumBits vli = (value vli).size := by
  obtain ⟨hle, hzero, htop⟩ := vliNumDigits_spec vli vli.length
  have hvalue := value_take_of_zeros hzero
  simp only [vliNumBits]
  generalize vliNumDigits vli vli.length = n at hle htop hvalue
  cases n with
  | zero => rw [if_pos rfl, ← hvalue, List.take_zero, value_nil, Nat.size_zero]
  | succ n =>
    have hdigit := htop (Nat.succ_ne_zero n)
    rw [Nat.add_sub_cancel, List.getD_eq_getElem _ _ hle] at hdigit
    have hlow := value_lt (vli.take n)
    rw [List.length_take_of_le (Nat.le_of_lt hle)] at hlow
    have hne : vli[n].toNat ≠ 0 := by
      intro h
      exact hdigit (BitVec.eq_of_toNat_eq (h.trans toNat_zero.symm))
    rw [if_neg (Nat.succ_ne_zero n), Nat.add_sub_cancel, List.getD_eq_getElem _ _ hle,
      countBits_eq vli[n].isLt, ← hvalue, List.take_succ_eq_append_getElem hle, value_append,
      value_singleton, List.length_take_of_le (Nat.le_of_lt hle), size_add_mul hlow hne,
      Nat.mul_comm]

theorem rshift1Loop_length (xs : List (BitVec w)) (carry : BitVec w) :
    (rshift1Loop xs carry).length = xs.length := by
  induction xs generalizing carry with
  | nil => rfl
  | cons temp rest ih => rw [rshift1Loop, List.length_cons, ih, List.length_cons]

/-- The bit that falls out of the shift is `bit`; the one that comes in is `high`. -/
theorem rshift1Loop_spec (hw : 0 < w) (xs : List (BitVec w)) (carry : BitVec w) {high : Nat}
    (hhigh : high ≤ 1) (hcarry : 2 * carry.toNat = 2 ^ w * high) :
    ∃ bit ≤ 1, 2 * value (rshift1Loop xs carry).reverse + bit =
      value xs.reverse + 2 ^ (w * xs.length) * high := by
  obtain ⟨n, rfl⟩ : ∃ n, w = n + 1 := ⟨w - 1, by omega⟩
  induction xs generalizing carry high with
  | nil => exact ⟨high, hhigh, by simp [rshift1Loop]⟩
  | cons temp rest ih =>
    have htemp := temp.isLt
    have hin : 2 * (temp <<< n).toNat = 2 ^ (n + 1) * (temp.toNat % 2) := by
      rw [BitVec.toNat_shiftLeft, Nat.shiftLeft_eq, Nat.pow_succ, Nat.mul_comm temp.toNat,
        Nat.mul_mod_mul_left]
      ring
    have hhead : ((temp >>> 1) ||| carry).toNat = temp.toNat / 2 + carry.toNat := by
      have hlow : temp.toNat / 2 < 2 ^ n := by
        rw [Nat.pow_succ] at htemp
        omega
      have hshift : carry.toNat = 2 ^ n * high := by
        rw [Nat.pow_succ, Nat.mul_right_comm] at hcarry
        omega
      rw [BitVec.toNat_or, BitVec.toNat_ushiftRight, Nat.shiftRight_one, hshift, Nat.or_comm,
        ← Nat.two_pow_add_eq_or_of_lt hlow, Nat.add_comm]
    obtain ⟨bit, hbit, hrest⟩ :=
      ih (Nat.le_of_lt_succ (Nat.mod_lt temp.toNat (Nat.succ_pos 1))) (temp <<< n) hin
    refine ⟨bit, hbit, ?_⟩
    have hlen : (rshift1Loop rest (temp <<< n)).length = rest.length := rshift1Loop_length _ _
    have hparts := Nat.div_add_mod temp.toNat 2
    simp only [rshift1Loop, Nat.add_sub_cancel, value_reverse_cons, hhead, hlen, List.length_cons,
      Nat.mul_succ, Nat.pow_add]
    rw [Nat.pow_add] at hcarry
    linear_combination hrest + 2 ^ ((n + 1) * rest.length) * (hcarry + hparts)

/-- Half the number, and what was shifted out of its lowest bit is dropped. -/
theorem vliRshift1_value (hw : 0 < w) (vli : Vli w) : value (vliRshift1 vli) = value vli / 2 := by
  obtain ⟨bit, hbit, hspec⟩ := rshift1Loop_spec hw vli.reverse 0
    (Nat.zero_le 1) (by rw [toNat_zero, Nat.mul_zero, Nat.mul_zero])
  rw [List.reverse_reverse, Nat.mul_zero, Nat.add_zero] at hspec
  rw [vliRshift1]
  omega

theorem vliRshift1_length (vli : Vli w) : (vliRshift1 vli).length = vli.length := by
  rw [vliRshift1, List.length_reverse, rshift1Loop_length, List.length_reverse]

end PrplHypervisor.UEcc
