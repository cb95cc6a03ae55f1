import Mathlib.Data.Nat.ModEq
import PrplHypervisor.Cryptography.VliMult

/-!
# Modular arithmetic on large integers (cryptography/uECC.c)

- `vliModAdd_value`, `vliModSub_value`: sum and difference of reduced operands.
- `halve_value`: the shift of a number that is kept in two halves.
- `MmodInv`: what is left of the product is congruent to it and below twice the multiple of the
  modulus that is subtracted next.
- `vliMmod_value`, `vliModMult_value`: the remainder, for a modulus whose last word is not zero.
-/

namespace PrplHypervisor.UEcc

open Limbs

variable {w : Nat}

/-- `uECC_vli_modAdd`. -/
def vliModAdd (left right mod : Vli w) : Vli w :=
  let add := vliAdd left right
  if add.2 ≠ 0 ∨ vliCmpUnsafe mod add.1 ≠ 1 then (vliSub add.1 mod).1 else add.1

/-- `uECC_vli_modSub`. -/
def vliModSub (left right mod : Vli w) : Vli w :=
  let sub := vliSub left right
  if sub.2 ≠ 0 then (vliAdd sub.1 mod).1 else sub.1

/-- The loop of `uECC_vli_mmod` that shifts the words of `mod` by a part of a word. -/
def shiftLoop (bitShift : Nat) : Vli w → BitVec w → Vli w
  | m :: mod, carry =>
    (m <<< bitShift ||| carry) :: shiftLoop bitShift mod (m >>> (w - bitShift))
  | [], _ => []

/-- `mod_multiple` before the loop: the words that are cleared and the words of `mod`. -/
def modMultiple (mod : Vli w) (shift : Nat) : Vli w :=
  let wordShift := shift / w
  let bitShift := shift % w
  vliClear w wordShift ++ if bitShift > 0 then shiftLoop bitShift mod 0 else mod

/-- `mod_multiple >> 1`: the upper half hands its lowest bit to the lower one. -/
def halve (numWords : Nat) (multiple : Vli w) : Vli w :=
  let low := vliRshift1 (multiple.take numWords)
  let top := low.getD (numWords - 1) 0 ||| multiple.getD numWords 0 <<< (w - 1)
  low.set (numWords - 1) top ++ vliRshift1 (multiple.drop numWords)

/-- `v[0]` is `tmp`, `v[1]` the product. -/
structure MmodState (w : Nat) where
  v0 : Vli w
  v1 : Vli w
  index : Bool
  multiple : Vli w

namespace MmodState

/-- `v[index]`. -/
def current (s : MmodState w) : Vli w := if s.index then s.v1 else s.v0

/-- One round of the loop of `uECC_vli_mmod`. -/
def round (numWords : Nat) (s : MmodState w) : MmodState w :=
  let sub := vliSub s.current s.multiple
  { v0 := if s.index then sub.1 else s.v0
    v1 := if s.index then s.v1 else sub.1
    index := !(s.index ^^ decide (sub.2 ≠ 0))
    multiple := halve numWords s.multiple }

end MmodState

/-- `uECC_vli_mmod`; the first round writes `tmp` before it is read. -/
def vliMmod (product mod : Vli w) : Vli w :=
  let numWords := mod.length
  let shift := numWords * 2 * w - vliNumBits mod
  let s := (MmodState.round numWords)^[shift + 1]
    { v0 := [], v1 := product, index := true, multiple := modMultiple mod shift }
  s.current.take numWords

/-- `uECC_vli_modMult`. -/
def vliModMult (left right mod : Vli w) : Vli w := vliMmod (vliMult left right) mod

/-! ## Sum and difference of reduced numbers -/

section ModAdd

variable {left right mod : Vli w}

theorem vliModAdd_length (hlen : left.length = right.length) (hmod : left.length = mod.length) :
    (vliModAdd left right mod).length = left.length := by
  have hadd := vliAdd_length hlen
  simp only [vliModAdd]
  split
  · rw [vliSub_length (hadd.trans hmod), hadd]
  · exact hadd

theorem vliModAdd_value (hlen : left.length = right.length) (hmod : left.length = mod.length)
    (hleft : value left < value mod) (hright : value right < value mod) :
    value (vliModAdd left right mod) = (value left + value right) % value mod := by
  have hadd := vliAdd_length hlen
  have hvalue := vliAdd_value hlen
  have hcarry := vliAdd_carry_iff hlen
  have hbound := value_lt mod
  rw [← hmod] at hbound
  simp only [vliModAdd]
  by_cases hover : (vliAdd left right).2 = 0
  · have hsum := hcarry.mp hover
    rw [Nat.mod_eq_of_lt hsum] at hvalue
    by_cases hcmp : vliCmpUnsafe mod (vliAdd left right).1 = 1
    · rw [if_neg (by simp [hover, hcmp]), hvalue]
      rw [vliCmpUnsafe_eq_one_iff (by rw [hadd, hmod]), hvalue] at hcmp
      exact (Nat.mod_eq_of_lt hcmp).symm
    · rw [if_pos (Or.inr hcmp)]
      rw [vliCmpUnsafe_eq_one_iff (by rw [hadd, hmod]), hvalue] at hcmp
      rw [vliSub_value_of_le (hadd.trans hmod) (by omega), hvalue, Nat.mod_eq_sub_mod (by omega),
        Nat.mod_eq_of_lt (by omega)]
  · have hsum : 2 ^ (w * left.length) ≤ value left + value right := by
      rw [hcarry] at hover
      omega
    have hwords : value (vliAdd left right).1 =
        value left + value right - 2 ^ (w * left.length) := by
      rw [hvalue, Nat.mod_eq_sub_mod hsum, Nat.mod_eq_of_lt (by omega)]
    rw [if_pos (Or.inl hover), vliSub_value_of_lt (hadd.trans hmod) (by omega), hwords, hadd,
      Nat.mod_eq_sub_mod (by omega : value mod ≤ value left + value right),
      Nat.mod_eq_of_lt (by omega)]
    omega

theorem vliModSub_length (hlen : left.length = right.length) (hmod : left.length = mod.length) :
    (vliModSub left right mod).length = left.length := by
  have hsub := vliSub_length hlen
  simp only [vliModSub]
  split
  · rw [vliAdd_length (hsub.trans hmod), hsub]
  · exact hsub

/-- The difference and the subtrahend add up to the minuend. -/
theorem vliModSub_value (hlen : left.length = right.length) (hmod : left.length = mod.length)
    (hleft : value left < value mod) (hright : value right < value mod) :
    value (vliModSub left right mod) = (value left + (value mod - value right)) % value mod := by
  have hsub := vliSub_length hlen
  have hbound := value_lt mod
  rw [← hmod] at hbound
  simp only [vliModSub]
  by_cases hborrow : (vliSub left right).2 = 0
  · have hle := (vliSub_borrow_iff hlen).mp hborrow
    rw [if_neg (not_not.mpr hborrow), vliSub_value_of_le hlen hle, Nat.mod_eq_sub_mod (by omega),
      Nat.mod_eq_of_lt (by omega)]
    omega
  · have hlt : value left < value right := by
      rw [vliSub_borrow_iff hlen] at hborrow
      omega
    rw [if_pos hborrow, vliAdd_value (hsub.trans hmod), vliSub_value_of_lt hlen hlt, hsub,
      Nat.mod_eq_sub_mod (by omega), Nat.mod_eq_of_lt (by omega), Nat.mod_eq_of_lt (by omega)]
    omega

/-- A left operand that is not reduced: at most one modulus is subtracted. -/
theorem vliModAdd_modEq (hlen : left.length = right.length) (hmod : left.length = mod.length)
    (hright : value right < value mod) :
    value (vliModAdd left right mod) ≡ value left + value right [MOD value mod] := by
  have hadd := vliAdd_length hlen
  have hspec := vliAdd_spec hlen
  have hcarry := vliAdd_carry_le hlen
  have hleft := value_lt left
  have hbound := value_lt mod
  rw [← hmod] at hbound
  simp only [vliModAdd]
  by_cases hover : (vliAdd left right).2 = 0
  · rw [hover, toNat_zero, Nat.mul_zero, Nat.add_zero] at hspec
    by_cases hcmp : vliCmpUnsafe mod (vliAdd left right).1 = 1
    · rw [if_neg (by simp [hover, hcmp]), hspec]
    · rw [if_pos (Or.inr hcmp)]
      rw [vliCmpUnsafe_eq_one_iff (by rw [hadd, hmod]), hspec] at hcmp
      rw [vliSub_value_of_le (hadd.trans hmod) (by omega), hspec]
      exact (Nat.sub_modulus_modEq_iff (by omega)).mpr rfl
  · have hone : (vliAdd left right).2.toNat = 1 := by
      have hne : (vliAdd left right).2.toNat ≠ 0 := fun h =>
        hover (BitVec.eq_of_toNat_eq (h.trans toNat_zero.symm))
      omega
    rw [hone, Nat.mul_one] at hspec
    rw [if_pos (Or.inl hover), vliSub_value_of_lt (hadd.trans hmod) (by omega), hadd,
      Nat.add_comm, hspec]
    exact (Nat.sub_modulus_modEq_iff (by omega)).mpr rfl

end ModAdd

/-! ## Half of the multiple -/

section Halve

variable {n : Nat} {multiple : Vli w}

theorem halve_length (hlen : multiple.length = 2 * n) : (halve n multiple).length = 2 * n := by
  simp only [halve, List.length_append, List.length_set, vliRshift1_length, List.length_take,
    List.length_drop]
  omega

/-- The lowest bit of a word, at the top of a word. -/
theorem toNat_shiftLeft_pred (hw : 0 < w) (x : BitVec w) :
    (x <<< (w - 1)).toNat = 2 ^ (w - 1) * (x.toNat % 2) := by
  have hpow : 2 ^ w = 2 ^ (w - 1) * 2 := by rw [← Nat.pow_succ, Nat.succ_eq_add_one,
    Nat.sub_add_cancel hw]
  rw [BitVec.toNat_shiftLeft, Nat.shiftLeft_eq, Nat.mul_comm, hpow, Nat.mul_mod_mul_left]

/-- The upper half hands its lowest bit down. -/
theorem value_drop_mod_two (hw : 0 < w) (xs : Vli w) (n : Nat) :
    value (xs.drop n) % 2 = (xs.getD n 0).toNat % 2 := by
  have heven : 2 ∣ 2 ^ w := dvd_pow_self 2 (Nat.ne_of_gt hw)
  obtain hn | hn := Nat.lt_or_ge n xs.length
  · rw [List.drop_eq_getElem_cons hn, value_cons, List.getD_eq_getElem _ _ hn, Nat.add_mod,
      Nat.mod_eq_zero_of_dvd (Dvd.dvd.mul_right heven _), Nat.add_zero, Nat.mod_mod]
  · rw [List.drop_eq_nil_of_le hn, List.getD_eq_default _ _ hn, toNat_zero, value_nil]

theorem two_pow_words (hw : 0 < w) (hn : 0 < n) :
    2 ^ (w * n) = 2 * (2 ^ (w * (n - 1)) * 2 ^ (w - 1)) := by
  rw [← Nat.pow_add, ← Nat.pow_succ']
  refine congrArg (2 ^ ·) ?_
  obtain ⟨m, rfl⟩ : ∃ m, n = m + 1 := ⟨n - 1, by omega⟩
  rw [Nat.mul_succ, Nat.add_sub_cancel]
  omega

/-- A bit that is set where a shift to the right left a zero. -/
theorem value_set_top (hw : 0 < w) (hn : 0 < n) {xs : Vli w} (hlen : xs.length = n)
    (hlow : 2 * value xs < 2 ^ (w * n)) {top : BitVec w} {bit : Nat}
    (htop : top.toNat = 2 ^ (w - 1) * bit) :
    value (xs.set (n - 1) (xs.getD (n - 1) 0 ||| top)) =
      value xs + 2 ^ (w * (n - 1)) * 2 ^ (w - 1) * bit := by
  have hlt : n - 1 < xs.length := by omega
  have hfree : xs[n - 1].toNat < 2 ^ (w - 1) := by
    have hword := mul_getElem_le_value xs hlt
    rw [two_pow_words hw hn] at hlow
    refine Nat.lt_of_mul_lt_mul_left (a := 2 ^ (w * (n - 1))) ?_
    omega
  have hor : (xs.getD (n - 1) 0 ||| top).toNat = xs[n - 1].toNat + 2 ^ (w - 1) * bit := by
    rw [BitVec.toNat_or, List.getD_eq_getElem _ _ hlt, htop, Nat.or_comm,
      ← Nat.two_pow_add_eq_or_of_lt hfree, Nat.add_comm]
  have hset := value_set xs hlt (xs.getD (n - 1) 0 ||| top)
  rw [hor] at hset
  linear_combination hset

theorem halve_value (hw : 0 < w) (hn : 0 < n) (hlen : multiple.length = 2 * n) :
    value (halve n multiple) = value multiple / 2 := by
  have hlow : (vliRshift1 (multiple.take n)).length = n := by
    rw [vliRshift1_length, List.length_take_of_le (by omega)]
  have hbound := value_lt (multiple.take n)
  have hsplit := value_append (multiple.take n) (multiple.drop n)
  rw [List.take_append_drop, List.length_take_of_le (by omega)] at hsplit
  rw [List.length_take_of_le (by omega)] at hbound
  have hset := value_set_top hw hn hlow (by rw [vliRshift1_value hw]; omega)
    (toNat_shiftLeft_pred hw (multiple.getD n 0))
  have hbit := value_drop_mod_two hw multiple n
  have hparts := Nat.div_add_mod (value (multiple.drop n)) 2
  have hresult : value (halve n multiple) =
      value (multiple.take n) / 2 + 2 ^ (w * (n - 1)) * 2 ^ (w - 1) * value (multiple.drop n) := by
    rw [halve, value_append, List.length_set, hlow, hset, vliRshift1_value hw, vliRshift1_value hw,
      two_pow_words hw hn]
    linear_combination 2 ^ (w * (n - 1)) * 2 ^ (w - 1) * hparts -
      2 ^ (w * (n - 1)) * 2 ^ (w - 1) * hbit
  rw [hresult, hsplit, two_pow_words hw hn, Nat.mul_assoc 2,
    Nat.add_mul_div_left _ _ Nat.two_pos]

end Halve

/-! ## The multiple of the modulus -/

section Multiple

variable {mod : Vli w} {shift : Nat}

theorem shiftLoop_length (bitShift : Nat) (mod : Vli w) (carry : BitVec w) :
    (shiftLoop bitShift mod carry).length = mod.length := by
  induction mod generalizing carry with
  | nil => rfl
  | cons m mod ih => rw [shiftLoop, List.length_cons, ih, List.length_cons]

/-- The bits a word loses are those the next one takes in. -/
theorem shiftLoop_value {bitShift : Nat} (hbit : bitShift ≤ w) (mod : Vli w) (carry : BitVec w)
    (hcarry : carry.toNat < 2 ^ bitShift) :
    value (shiftLoop bitShift mod carry) =
      (2 ^ bitShift * value mod + carry.toNat) % 2 ^ (w * mod.length) := by
  have hpow : 2 ^ w = 2 ^ bitShift * 2 ^ (w - bitShift) := by
    rw [← Nat.pow_add, Nat.add_sub_cancel' hbit]
  induction mod generalizing carry with
  | nil => simp [shiftLoop, Nat.mod_one]
  | cons m mod ih =>
    have hout : (m >>> (w - bitShift)).toNat = m.toNat / 2 ^ (w - bitShift) := by
      rw [BitVec.toNat_ushiftRight, Nat.shiftRight_eq_div_pow]
    have hrest : (m >>> (w - bitShift)).toNat < 2 ^ bitShift := by
      rw [hout]
      refine Nat.div_lt_of_lt_mul ?_
      rw [Nat.mul_comm, ← hpow]
      exact m.isLt
    have hshifted : m.toNat * 2 ^ bitShift % 2 ^ w =
        2 ^ bitShift * (m.toNat % 2 ^ (w - bitShift)) := by
      rw [Nat.mul_comm, hpow, Nat.mul_mod_mul_left]
    have hword : (m <<< bitShift ||| carry).toNat =
        2 ^ bitShift * (m.toNat % 2 ^ (w - bitShift)) + carry.toNat := by
      rw [BitVec.toNat_or, BitVec.toNat_shiftLeft, Nat.shiftLeft_eq, hshifted,
        ← Nat.two_pow_add_eq_or_of_lt hcarry]
    have hlow : (2 ^ bitShift * m.toNat + carry.toNat) % 2 ^ w =
        2 ^ bitShift * (m.toNat % 2 ^ (w - bitShift)) + carry.toNat := by
      rw [hpow, Nat.mod_mul, Nat.mul_add_mod, Nat.mod_eq_of_lt hcarry,
        Nat.mul_add_div (Nat.two_pow_pos bitShift), Nat.div_eq_of_lt hcarry, Nat.add_zero,
        Nat.add_comm]
    have hhigh : (2 ^ bitShift * m.toNat + carry.toNat) / 2 ^ w =
        m.toNat / 2 ^ (w - bitShift) := by
      rw [hpow, ← Nat.div_div_eq_div_mul, Nat.mul_add_div (Nat.two_pow_pos bitShift),
        Nat.div_eq_of_lt hcarry, Nat.add_zero]
    have hsum : 2 ^ bitShift * value (m :: mod) + carry.toNat =
        2 ^ bitShift * m.toNat + carry.toNat + 2 ^ w * (2 ^ bitShift * value mod) := by
      rw [value_cons]
      ring
    rw [shiftLoop, value_cons, hword, ih _ hrest, hout, List.length_cons, Nat.mul_succ,
      Nat.add_comm (w * mod.length), Nat.pow_add, Nat.mod_mul, hsum, Nat.add_mul_mod_self_left,
      Nat.add_mul_div_left _ _ (Nat.two_pow_pos w), hlow, hhigh, Nat.add_comm (m.toNat / _)]

theorem modMultiple_spec (hw : 0 < w) (htop : w * (mod.length - 1) < (value mod).size)
    (hshift : shift = mod.length * 2 * w - vliNumBits mod) :
    (modMultiple mod shift).length = 2 * mod.length ∧
      value (modMultiple mod shift) = value mod * 2 ^ shift := by
  have hsize : (value mod).size ≤ w * mod.length := Nat.size_le.mpr (value_lt mod)
  have hlt := Nat.lt_size_self (value mod)
  obtain ⟨n, hn⟩ : ∃ n, mod.length = n + 1 := by
    refine Nat.exists_eq_succ_of_ne_zero fun h => ?_
    rw [h] at hsize
    omega
  have hprev : w * mod.length = w * (mod.length - 1) + w := by
    rw [hn, Nat.add_sub_cancel, Nat.mul_succ]
  rw [vliNumBits_eq] at hshift
  -- the words cleared are as many as `mod` has
  have hparts : shift = w * mod.length + (w * mod.length - (value mod).size) := by
    rw [hshift, Nat.mul_right_comm, Nat.mul_comm mod.length]
    omega
  have hword : shift / w = mod.length := by
    rw [hparts, Nat.mul_add_div hw, Nat.div_eq_of_lt (by omega), Nat.add_zero]
  have hbit : shift % w = w * mod.length - (value mod).size := by
    rw [hparts, Nat.mul_add_mod, Nat.mod_eq_of_lt (by omega)]
  have hzero : (0 : BitVec w).toNat < 2 ^ (shift % w) := by
    rw [toNat_zero]
    exact Nat.two_pow_pos _
  have hfits : 2 ^ (shift % w) * value mod < 2 ^ (w * mod.length) := by
    have hmul := Nat.mul_lt_mul_of_pos_left hlt (Nat.two_pow_pos (shift % w))
    rw [← Nat.pow_add, hbit, Nat.sub_add_cancel hsize] at hmul
    rw [hbit]
    exact hmul
  have hvalue : value (if shift % w > 0 then shiftLoop (shift % w) mod 0 else mod) =
      2 ^ (shift % w) * value mod := by
    split
    · rw [shiftLoop_value (Nat.le_of_lt (Nat.mod_lt shift hw)) mod 0 hzero, toNat_zero,
        Nat.add_zero, Nat.mod_eq_of_lt hfits]
    · rename_i h
      rw [Nat.eq_zero_of_not_pos h, Nat.pow_zero, Nat.one_mul]
  have hlength : (if shift % w > 0 then shiftLoop (shift % w) mod 0 else mod).length =
      mod.length := by
    split
    · exact shiftLoop_length _ _ _
    · rfl
  have hclear : (vliClear w (shift / w)).length = mod.length := by
    rw [vliClear, List.length_replicate, hword]
  refine ⟨?_, ?_⟩
  · simp only [modMultiple, List.length_append, hclear, hlength]
    omega
  · simp only [modMultiple, value_append, hclear, hvalue]
    rw [vliClear, value_replicate_zero, Nat.zero_add, ← Nat.mul_assoc, ← Nat.pow_add, hbit,
      ← hparts, Nat.mul_comm]

end Multiple

/-! ## The loop -/

/-- With `k` rounds to go. -/
structure MmodInv (product mod : Vli w) (k : Nat) (s : MmodState w) : Prop where
  length : s.current.length = 2 * mod.length
  multipleLength : s.multiple.length = 2 * mod.length
  multiple : value s.multiple = value mod * 2 ^ k / 2
  below : value s.current < value mod * 2 ^ k
  congr : value s.current ≡ value product [MOD value mod]

theorem MmodState.current_round (numWords : Nat) (s : MmodState w) :
    (s.round numWords).current =
      if (vliSub s.current s.multiple).2 = 0 then (vliSub s.current s.multiple).1
      else s.current := by
  by_cases hborrow : (vliSub s.current s.multiple).2 = 0
  · cases hindex : s.index
    · simp_all [MmodState.round, MmodState.current]
    · simp_all [MmodState.round, MmodState.current]
  · cases hindex : s.index
    · simp_all [MmodState.round, MmodState.current]
    · simp_all [MmodState.round, MmodState.current]

theorem MmodInv.step (hw : 0 < w) {product mod : Vli w} {k : Nat} {s : MmodState w}
    (hmod : 0 < mod.length) (h : MmodInv product mod (k + 1) s) :
    MmodInv product mod k (s.round mod.length) := by
  obtain ⟨hlength, hmlength, hmultiple, hbelow, hcongr⟩ := h
  have hlen : s.current.length = s.multiple.length := by rw [hlength, hmlength]
  have hhalf : value s.multiple = value mod * 2 ^ k := by
    rw [hmultiple, Nat.pow_succ, ← Nat.mul_assoc, Nat.mul_div_cancel _ Nat.two_pos]
  have hdouble : value mod * 2 ^ (k + 1) = 2 * (value mod * 2 ^ k) := by
    rw [Nat.pow_succ]
    ring
  have hcurrent := s.current_round mod.length
  have hnext : (s.round mod.length).multiple = halve mod.length s.multiple := rfl
  refine ⟨?_, ?_, ?_, ?_, ?_⟩
  · rw [hcurrent]
    split
    · rw [vliSub_length hlen, hlength]
    · exact hlength
  · rw [hnext, halve_length hmlength]
  · rw [hnext, halve_value hw hmod hmlength, hhalf]
  · rw [hcurrent]
    split
    · rename_i hborrow
      rw [vliSub_value_of_le hlen ((vliSub_borrow_iff hlen).mp hborrow)]
      omega
    · rename_i hborrow
      rw [vliSub_borrow_iff hlen] at hborrow
      omega
  · rw [hcurrent]
    split
    · rename_i hborrow
      have hle := (vliSub_borrow_iff hlen).mp hborrow
      rw [vliSub_value_of_le hlen hle]
      refine Nat.ModEq.trans ?_ hcongr
      refine (Nat.modEq_iff_dvd' (Nat.sub_le _ _)).mpr ?_
      rw [Nat.sub_sub_self hle, hhalf]
      exact Nat.dvd_mul_right _ _
    · exact hcongr

theorem MmodInv.run (hw : 0 < w) {product mod : Vli w} (hmod : 0 < mod.length) {k : Nat}
    {s : MmodState w} (h : MmodInv product mod k s) :
    MmodInv product mod 0 ((MmodState.round mod.length)^[k] s) := by
  induction k generalizing s with
  | zero => exact h
  | succ k ih =>
    rw [Function.iterate_succ_apply]
    exact ih (h.step hw hmod)

section Mmod

variable {product mod : Vli w}

theorem length_pos_of_size (htop : w * (mod.length - 1) < (value mod).size) :
    0 < mod.length := by
  refine Nat.pos_of_ne_zero fun h => ?_
  rw [List.length_eq_zero_iff.mp h] at htop
  exact Nat.not_lt_zero _ htop

theorem vliMmod_inv (hw : 0 < w) (hlen : product.length = 2 * mod.length)
    (htop : w * (mod.length - 1) < (value mod).size) :
    ∃ s, MmodInv product mod 0 s ∧ vliMmod product mod = s.current.take mod.length := by
  have hpos := length_pos_of_size htop
  obtain ⟨hmlength, hmvalue⟩ := modMultiple_spec hw htop rfl
  refine ⟨_, MmodInv.run hw hpos (k := mod.length * 2 * w - vliNumBits mod + 1) ?_, rfl⟩
  exact
    { length := hlen
      multipleLength := hmlength
      multiple := by
        rw [hmvalue, Nat.pow_succ, ← Nat.mul_assoc, Nat.mul_div_cancel _ Nat.two_pos]
      below := by
        have hsize : (value mod).size ≤ w * mod.length := Nat.size_le.mpr (value_lt mod)
        have hlow : 2 ^ ((value mod).size - 1) ≤ value mod := Nat.lt_size.mp (by omega)
        refine Nat.lt_of_lt_of_le (value_lt product) ?_
        refine Nat.le_trans ?_ (Nat.mul_le_mul_right _ hlow)
        rw [← Nat.pow_add, vliNumBits_eq, hlen]
        refine Nat.pow_le_pow_right Nat.two_pos ?_
        rw [← Nat.mul_assoc, Nat.mul_comm w 2, Nat.mul_assoc, Nat.mul_right_comm,
          Nat.mul_comm mod.length w, Nat.mul_comm _ 2]
        omega
      congr := Nat.ModEq.refl _ }

theorem vliMmod_length (hw : 0 < w) (hlen : product.length = 2 * mod.length)
    (htop : w * (mod.length - 1) < (value mod).size) :
    (vliMmod product mod).length = mod.length := by
  obtain ⟨s, hinv, heq⟩ := vliMmod_inv hw hlen htop
  rw [heq, List.length_take_of_le (by rw [hinv.length]; omega)]

/-- The remainder of the product. -/
theorem vliMmod_value (hw : 0 < w) (hlen : product.length = 2 * mod.length)
    (htop : w * (mod.length - 1) < (value mod).size) :
    value (vliMmod product mod) = value product % value mod := by
  obtain ⟨s, hinv, heq⟩ := vliMmod_inv hw hlen htop
  have hbelow := hinv.below
  rw [Nat.pow_zero, Nat.mul_one] at hbelow
  rw [heq, value_take_mod, Nat.mod_eq_of_lt (hbelow.trans (value_lt mod))]
  exact (Nat.mod_eq_of_lt hbelow).symm.trans hinv.congr

end Mmod

section ModMult

variable {left right mod : Vli w}

theorem vliModMult_length (hw : 0 < w) (hroom : mod.length ≤ 2 ^ w)
    (hleft : left.length = mod.length) (hright : right.length = mod.length)
    (htop : w * (mod.length - 1) < (value mod).size) :
    (vliModMult left right mod).length = mod.length := by
  have hpos := length_pos_of_size htop
  rw [← hleft] at hpos hroom
  refine vliMmod_length hw ?_ htop
  rw [vliMult_length (hleft.trans hright.symm) hpos hroom, hleft]

theorem vliModMult_value (hw : 0 < w) (hroom : mod.length ≤ 2 ^ w)
    (hleft : left.length = mod.length) (hright : right.length = mod.length)
    (htop : w * (mod.length - 1) < (value mod).size) :
    value (vliModMult left right mod) = value left * value right % value mod := by
  have hlen : left.length = right.length := hleft.trans hright.symm
  have hpos := length_pos_of_size htop
  rw [← hleft] at hpos hroom
  rw [vliModMult, vliMmod_value hw (by rw [vliMult_length hlen hpos hroom, hleft]) htop,
    vliMult_value hlen hpos hroom]

/-- The remainder of the product, for every modulus whose highest word is in use. -/
theorem vliModMult_remainder (hw : 0 < w) (hroom : mod.length ≤ 2 ^ w)
    (hleft : left.length = mod.length) (hright : right.length = mod.length)
    (htop : w * (mod.length - 1) < (value mod).size) :
    (vliModMult left right mod).length = mod.length ∧
      value (vliModMult left right mod) = value left * value right % value mod :=
  ⟨vliModMult_length hw hroom hleft hright htop, vliModMult_value hw hroom hleft hright htop⟩

theorem vliModMult_remainder_two_bytes :
    value (vliModMult ([200, 3] : Vli 8) [100, 7] [5, 9]) = 419 := by
  have hmult := @vliModMult_remainder 8 [200, 3] [100, 7] [5, 9] (by decide) (by decide) rfl rfl
    (by decide +kernel)
  exact hmult.2.trans (by decide +kernel)

end ModMult

end PrplHypervisor.UEcc
