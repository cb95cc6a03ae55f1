import PrplHypervisor.Cryptography.CurvePrimes
import PrplHypervisor.Cryptography.VliMod

/-!
# The curve secp256k1 (cryptography/include/curve-specific.inc)

`fieldPrime` is `2 ^ 256 - primeOmega`, so a product `q * 2 ^ 256 + r` is congruent to
`q * primeOmega + r`. `vli_mmod_fast_secp256k1` folds twice that way and then subtracts the prime as
often as the sums carried, and once more if the result is above it.

- `omegaMult32_value`, `omegaMult64_value`: the product with `omega` for both sizes of words.
- `folded`: the sum of both folds; `mmodFast_eq_iff`: the result is the remainder exactly if the
  sum is none of `fieldPrime` and `2 * fieldPrime` and not in the window of `Missed`.
- `IsSecp256k1`: what the curves of the hypervisor and of the host program have in common.
-/

namespace PrplHypervisor.UEcc

open Limbs

variable {w : Nat}

/-! ## The curve -/

/-- `struct uECC_Curve_t`; the two other functions it points to are `double_jacobian_secp256k1`
and `x_side_secp256k1`. -/
structure Curve (w : Nat) where
  numWords : Nat
  numBytes : Nat
  numNBits : Nat
  p : Vli w
  n : Vli w
  G : Vli w
  b : Vli w
  mmodFast : Vli w → Vli w

/-- `BYTES_TO_WORDS_8`: eight bytes, the lowest first, as words of `w` bits. -/
def bytesToWords8 (w a b c d e f g h : Nat) : Vli w :=
  let number := a + 2 ^ 8 * b + 2 ^ 16 * c + 2 ^ 24 * d + 2 ^ 32 * e + 2 ^ 40 * f + 2 ^ 48 * g +
    2 ^ 56 * h
  (List.range (64 / w)).map fun i => BitVec.ofNat w (number / 2 ^ (w * i))

def curveP (w : Nat) : Vli w :=
  bytesToWords8 w 0x2F 0xFC 0xFF 0xFF 0xFE 0xFF 0xFF 0xFF ++
    bytesToWords8 w 0xFF 0xFF 0xFF 0xFF 0xFF 0xFF 0xFF 0xFF ++
    bytesToWords8 w 0xFF 0xFF 0xFF 0xFF 0xFF 0xFF 0xFF 0xFF ++
    bytesToWords8 w 0xFF 0xFF 0xFF 0xFF 0xFF 0xFF 0xFF 0xFF

def curveN (w : Nat) : Vli w :=
  bytesToWords8 w 0x41 0x41 0x36 0xD0 0x8C 0x5E 0xD2 0xBF ++
    bytesToWords8 w 0x3B 0xA0 0x48 0xAF 0xE6 0xDC 0xAE 0xBA ++
    bytesToWords8 w 0xFE 0xFF 0xFF 0xFF 0xFF 0xFF 0xFF 0xFF ++
    bytesToWords8 w 0xFF 0xFF 0xFF 0xFF 0xFF 0xFF 0xFF 0xFF

def curveG (w : Nat) : Vli w :=
  bytesToWords8 w 0x98 0x17 0xF8 0x16 0x5B 0x81 0xF2 0x59 ++
    bytesToWords8 w 0xD9 0x28 0xCE 0x2D 0xDB 0xFC 0x9B 0x02 ++
    bytesToWords8 w 0x07 0x0B 0x87 0xCE 0x95 0x62 0xA0 0x55 ++
    bytesToWords8 w 0xAC 0xBB 0xDC 0xF9 0x7E 0x66 0xBE 0x79 ++
    bytesToWords8 w 0xB8 0xD4 0x10 0xFB 0x8F 0xD0 0x47 0x9C ++
    bytesToWords8 w 0x19 0x54 0x85 0xA6 0x48 0xB4 0x17 0xFD ++
    bytesToWords8 w 0xA8 0x08 0x11 0x0E 0xFC 0xFB 0xA4 0x5D ++
    bytesToWords8 w 0x65 0xC4 0xA3 0x26 0x77 0xDA 0x3A 0x48

def curveB (w : Nat) : Vli w :=
  bytesToWords8 w 0x07 0x00 0x00 0x00 0x00 0x00 0x00 0x00 ++
    bytesToWords8 w 0x00 0x00 0x00 0x00 0x00 0x00 0x00 0x00 ++
    bytesToWords8 w 0x00 0x00 0x00 0x00 0x00 0x00 0x00 0x00 ++
    bytesToWords8 w 0x00 0x00 0x00 0x00 0x00 0x00 0x00 0x00

/-! ## Reduction modulo the prime -/

/-- The loop of `omega_mult_secp256k1` for words of 32 bits, and `carry` behind it. -/
def omegaLoop : Vli 32 → BitVec 32 → Vli 32
  | r :: right, carry =>
    let p : BitVec 64 := 0x3D1 * r.setWidth 64 + carry.setWidth 64
    p.setWidth 32 :: omegaLoop right ((p >>> 32).setWidth 32)
  | [], carry => [carry]

/-- `omega_mult_secp256k1` for words of 32 bits: the words of `result` it writes. -/
def omegaMult32 (right : Vli 32) : Vli 32 :=
  let result := omegaLoop right 0
  let add := vliAdd (result.drop 1) right
  result.take 1 ++ add.1 ++ [add.2]

/-- The loop of `omega_mult_secp256k1` for words of 64 bits, and `r0` behind it. -/
def omegaColumns : Vli 64 → Acc 64 → Vli 64
  | r :: right, acc =>
    let acc := muladd 0x1000003D1 r acc
    acc.r0 :: omegaColumns right acc.shift
  | [], acc => [acc.r0]

/-- `omega_mult_secp256k1` for words of 64 bits. -/
def omegaMult64 (right : Vli 64) : Vli 64 := omegaColumns right { r0 := 0, r1 := 0, r2 := 0 }

/-- `vli_mmod_fast_secp256k1`; `tmp` is cleared before `omega_mult_secp256k1` writes to it. -/
def vliMmodFast (omegaMult : Vli w → Vli w) (p product : Vli w) : Vli w :=
  let numWords := p.length
  let written := omegaMult (product.drop numWords)
  let tmp := written ++ vliClear w (2 * numWords - written.length)
  let add := vliAdd (product.take numWords) (tmp.take numWords)
  let again := vliAdd add.1 ((omegaMult (tmp.drop numWords)).take numWords)
  let carry := add.2 + again.2
  -- while (carry > 0)
  let result := (fun result => (vliSub result p).1)^[carry.toNat] again.1
  if vliCmpUnsafe result p > 0 then (vliSub result p).1 else result

/-- `curve_secp256k1` on the hypervisor. -/
def secp256k1 : Curve 32 :=
  { numWords := 8
    numBytes := 32
    numNBits := 256
    p := curveP 32
    n := curveN 32
    G := curveG 32
    b := curveB 32
    mmodFast := vliMmodFast omegaMult32 (curveP 32) }

/-- `curve_secp256k1` on the host. -/
def hostSecp256k1 : Curve 64 :=
  { numWords := 4
    numBytes := 32
    numNBits := 256
    p := curveP 64
    n := curveN 64
    G := curveG 64
    b := curveB 64
    mmodFast := vliMmodFast omegaMult64 (curveP 64) }

/-! ## Products with omega -/

def primeOmega : Nat := 2 ^ 32 + 977

theorem omegaLoop_length (right : Vli 32) (carry : BitVec 32) :
    (omegaLoop right carry).length = right.length + 1 := by
  induction right generalizing carry with
  | nil => rfl
  | cons r right ih => rw [omegaLoop, List.length_cons, ih, List.length_cons]

theorem omegaLoop_value (right : Vli 32) (carry : BitVec 32) :
    value (omegaLoop right carry) = 0x3D1 * value right + carry.toNat := by
  induction right generalizing carry with
  | nil => simp [omegaLoop]
  | cons r right ih =>
    have hr := r.isLt
    have hc := carry.isLt
    have hp : (0x3D1 * r.setWidth 64 + carry.setWidth 64 : BitVec 64).toNat =
        0x3D1 * r.toNat + carry.toNat := by
      rw [BitVec.toNat_add, BitVec.toNat_mul, BitVec.toNat_setWidth_of_le (by omega),
        BitVec.toNat_setWidth_of_le (by omega), show (0x3D1 : BitVec 64).toNat = 0x3D1 from rfl]
      omega
    have hhalves := toNat_halves (w := 32) (0x3D1 * r.setWidth 64 + carry.setWidth 64)
    rw [hp] at hhalves
    rw [omegaLoop, value_cons, ih, value_cons]
    linear_combination hhalves

theorem omegaMult32_length (right : Vli 32) : (omegaMult32 right).length = right.length + 2 := by
  have hlen : ((omegaLoop right 0).drop 1).length = right.length := by
    rw [List.length_drop, omegaLoop_length, Nat.add_sub_cancel]
  rw [omegaMult32, List.length_append, List.length_append, vliAdd_length hlen, hlen,
    List.length_singleton, List.length_take_of_le (by rw [omegaLoop_length]; omega)]
  omega

theorem omegaMult32_value (right : Vli 32) :
    value (omegaMult32 right) = primeOmega * value right := by
  have hlen : ((omegaLoop right 0).drop 1).length = right.length := by
    rw [List.length_drop, omegaLoop_length, Nat.add_sub_cancel]
  have hone : ((omegaLoop right 0).take 1).length = 1 := by
    rw [List.length_take_of_le (by rw [omegaLoop_length]; omega)]
  have hloop := omegaLoop_value right 0
  have hsplit := value_append ((omegaLoop right 0).take 1) ((omegaLoop right 0).drop 1)
  have hadd := vliAdd_spec hlen
  rw [List.take_append_drop, hone, hloop, toNat_zero] at hsplit
  rw [hlen] at hadd
  rw [omegaMult32, List.append_assoc, value_append, value_append, hone, vliAdd_length hlen, hlen,
    value_singleton, hadd, primeOmega]
  linear_combination -hsplit

theorem omegaColumns_length (right : Vli 64) (acc : Acc 64) :
    (omegaColumns right acc).length = right.length + 1 := by
  induction right generalizing acc with
  | nil => rfl
  | cons r right ih => rw [omegaColumns, List.length_cons, ih, List.length_cons]

/-- What is carried from word to word stays below `2 ^ 64`. -/
theorem omegaColumns_value (right : Vli 64) (acc : Acc 64) (hacc : acc.value < 2 ^ 64) :
    value (omegaColumns right acc) = 0x1000003D1 * value right + acc.value := by
  induction right generalizing acc with
  | nil =>
    have hr0 : acc.r0.toNat = acc.value := by
      have hshift := acc.shift_value
      omega
    rw [omegaColumns, value_singleton, value_nil, hr0, Nat.mul_zero, Nat.zero_add]
  | cons r right ih =>
    have hr := r.isLt
    have hmul : (muladd 0x1000003D1 r acc).value = acc.value + 0x1000003D1 * r.toNat := by
      refine muladd_value ?_
      rw [show (0x1000003D1 : BitVec 64).toNat = 0x1000003D1 from rfl]
      omega
    have hshift := (muladd 0x1000003D1 r acc).shift_value
    rw [hmul] at hshift
    rw [omegaColumns, value_cons, ih _ (by omega), value_cons]
    linear_combination hshift

theorem omegaMult64_length (right : Vli 64) : (omegaMult64 right).length = right.length + 1 :=
  omegaColumns_length right _

theorem omegaMult64_value (right : Vli 64) :
    value (omegaMult64 right) = primeOmega * value right := by
  rw [omegaMult64, omegaColumns_value right _ (by rw [Acc.value_eq]; decide), Acc.value_eq]
  simp [primeOmega]

/-! ## The reduction -/

/-- The product folded twice, before the primes are subtracted. -/
def folded (product : Nat) : Nat :=
  let q := product / 2 ^ 256 * primeOmega
  product % 2 ^ 256 + q % 2 ^ 256 + q / 2 ^ 256 * primeOmega

/-- One carry and a rest that is not below the prime: the subtraction of the prime does not
borrow, so the carry is lost. -/
def Missed (product : Nat) : Prop :=
  2 ^ 256 + fieldPrime ≤ folded product ∧ folded product < 2 * 2 ^ 256

instance (product : Nat) : Decidable (Missed product) := inferInstanceAs (Decidable (_ ∧ _))

theorem fieldPrime_add_omega : fieldPrime + primeOmega = 2 ^ 256 := by decide +kernel

theorem folded_congr (product : Nat) : folded product ≡ product [MOD fieldPrime] := by
  have hpow : primeOmega ≡ 2 ^ 256 [MOD fieldPrime] := by
    rw [← fieldPrime_add_omega]
    exact Nat.add_modEq_left.symm
  have hq := Nat.mod_add_div (product / 2 ^ 256 * primeOmega) (2 ^ 256)
  have hproduct := Nat.mod_add_div product (2 ^ 256)
  simp only [folded]
  calc product % 2 ^ 256 + product / 2 ^ 256 * primeOmega % 2 ^ 256 +
        product / 2 ^ 256 * primeOmega / 2 ^ 256 * primeOmega
      ≡ product % 2 ^ 256 + product / 2 ^ 256 * primeOmega % 2 ^ 256 +
        product / 2 ^ 256 * primeOmega / 2 ^ 256 * 2 ^ 256 [MOD fieldPrime] :=
        (hpow.mul_left _).add_left _
    _ = product % 2 ^ 256 + product / 2 ^ 256 * primeOmega := by
        rw [Nat.add_assoc, Nat.mul_comm _ (2 ^ 256), hq]
    _ ≡ product % 2 ^ 256 + product / 2 ^ 256 * 2 ^ 256 [MOD fieldPrime] :=
        (hpow.mul_left _).add_left _
    _ = product := by rw [Nat.mul_comm, hproduct]

theorem folded_high_lt {product : Nat} (h : product < 2 ^ 256 * 2 ^ 256) :
    product / 2 ^ 256 * primeOmega / 2 ^ 256 * primeOmega < 2 ^ 67 := by
  have hhigh : product / 2 ^ 256 < 2 ^ 256 := Nat.div_lt_of_lt_mul h
  have hq : product / 2 ^ 256 * primeOmega / 2 ^ 256 < primeOmega := by
    refine Nat.div_lt_of_lt_mul ?_
    exact Nat.mul_lt_mul_of_pos_right hhigh (by decide)
  refine (Nat.mul_lt_mul_of_pos_right hq (by decide)).trans ?_
  decide

theorem folded_lt {product : Nat} (h : product < 2 ^ 256 * 2 ^ 256) :
    folded product < 2 * 2 ^ 256 + 2 ^ 67 := by
  have hlow := Nat.mod_lt product (Nat.two_pow_pos 256)
  have hmid := Nat.mod_lt (product / 2 ^ 256 * primeOmega) (Nat.two_pow_pos 256)
  have hhigh := folded_high_lt h
  simp only [folded]
  omega

/-- One subtraction of the prime modulo `2 ^ 256`. -/
def subPrime (v : Nat) : Nat := if fieldPrime ≤ v then v - fieldPrime else v + primeOmega

/-- What the subtractions make of the sum. -/
def reduced (total : Nat) : Nat :=
  let v := subPrime^[total / 2 ^ 256] (total % 2 ^ 256)
  if fieldPrime < v then v - fieldPrime else v

/-- The cases are the carries: none, one or two. -/
theorem reduced_eq_iff {total : Nat} (h : total < 2 * 2 ^ 256 + 2 ^ 67) :
    reduced total = total % fieldPrime ↔
      total ≠ fieldPrime ∧ total ≠ 2 * fieldPrime ∧
        ¬(2 ^ 256 + fieldPrime ≤ total ∧ total < 2 * 2 ^ 256) := by
  have hcarry : total / 2 ^ 256 = 0 ∨ total / 2 ^ 256 = 1 ∨ total / 2 ^ 256 = 2 := by omega
  simp only [reduced]
  obtain h0 | h1 | h2 := hcarry
  · rw [h0, Function.iterate_zero_apply, fieldPrime]
    split <;> omega
  · rw [h1, Function.iterate_one, subPrime, fieldPrime, primeOmega]
    split <;> split <;> omega
  · have hlow : total % 2 ^ 256 < 2 ^ 67 := by omega
    have honce : subPrime (total % 2 ^ 256) = total % 2 ^ 256 + primeOmega := by
      rw [subPrime, if_neg (by rw [fieldPrime]; omega)]
    have htwice : subPrime^[2] (total % 2 ^ 256) = total % 2 ^ 256 + primeOmega + primeOmega := by
      rw [Function.iterate_succ_apply, Function.iterate_one, honce, subPrime,
        if_neg (by rw [fieldPrime, primeOmega]; omega)]
    rw [h2, htwice, fieldPrime, primeOmega]
    split <;> omega

/-- Even where it is not the remainder, the result is reduced. -/
theorem reduced_lt {total : Nat} (h : total < 2 * 2 ^ 256 + 2 ^ 67) (hne : total ≠ fieldPrime)
    (hne' : total ≠ 2 * fieldPrime) : reduced total < fieldPrime := by
  by_cases hmissed : 2 ^ 256 + fieldPrime ≤ total ∧ total < 2 * 2 ^ 256
  · have homega : primeOmega < fieldPrime := by decide +kernel
    have hsum := fieldPrime_add_omega
    have hsub : fieldPrime ≤ total % 2 ^ 256 →
        subPrime (total % 2 ^ 256) = total % 2 ^ 256 - fieldPrime := fun hlow => if_pos hlow
    simp only [reduced]
    generalize fieldPrime = p at *
    have hcarry : total / 2 ^ 256 = 1 := by omega
    rw [hcarry, Function.iterate_one, hsub (by omega), if_neg (by omega)]
    omega
  · rw [(reduced_eq_iff h).mpr ⟨hne, hne', hmissed⟩]
    exact Nat.mod_lt total fieldPrime_prime.pos

theorem reduced_lt_two_pow (total : Nat) : reduced total < 2 ^ 256 := by
  have hstep : ∀ v < 2 ^ 256, subPrime v < 2 ^ 256 := by
    intro v hv
    have hsum := fieldPrime_add_omega
    unfold subPrime
    split <;> omega
  have hloop : ∀ n v, v < 2 ^ 256 → subPrime^[n] v < 2 ^ 256 := by
    intro n
    induction n with
    | zero => exact fun v hv => hv
    | succ n ih => exact fun v hv => ih _ (hstep v hv)
  have hv := hloop (total / 2 ^ 256) _ (Nat.mod_lt total (Nat.two_pow_pos 256))
  simp only [reduced]
  split
  · exact (Nat.sub_le _ _).trans_lt hv
  · exact hv

/-- What the reduction relies on for the product with omega. -/
structure OmegaSpec (n : Nat) (omegaMult : Vli w → Vli w) : Prop where
  value : ∀ right, Limbs.value (omegaMult right) = primeOmega * Limbs.value right
  length : ∀ right, right.length = n →
    n ≤ (omegaMult right).length ∧ (omegaMult right).length ≤ 2 * n

section Reduction

variable {omegaMult : Vli w → Vli w} {p product : Vli w} {n : Nat}

theorem product_lt (hwords : w * n = 256) (hproduct : product.length = 2 * n) :
    value product < 2 ^ 256 * 2 ^ 256 := by
  have hhigh := value_lt (product.drop n)
  rw [value_drop_div _ (by omega), List.length_drop, hproduct, Nat.two_mul, Nat.add_sub_cancel,
    hwords] at hhigh
  exact (Nat.div_lt_iff_lt_mul (Nat.two_pow_pos 256)).mp hhigh

theorem subPrime_value (hwords : w * n = 256) (hp : p.length = n) (hvalue : value p = fieldPrime)
    {v : Vli w} (hv : v.length = n) : value (vliSub v p).1 = subPrime (value v) := by
  have hlen := hv.trans hp.symm
  rw [subPrime]
  split
  · rename_i hle
    rw [vliSub_value_of_le hlen (by rw [hvalue]; exact hle), hvalue]
  · rename_i hlt
    rw [vliSub_value_of_lt hlen (by rw [hvalue]; omega), hvalue, hv, hwords, ← fieldPrime_add_omega]
    omega

theorem subPrime_iterate (hwords : w * n = 256) (hp : p.length = n) (hvalue : value p = fieldPrime)
    (k : Nat) {v : Vli w} (hv : v.length = n) :
    ((fun v => (vliSub v p).1)^[k] v).length = n ∧
      value ((fun v => (vliSub v p).1)^[k] v) = subPrime^[k] (value v) := by
  induction k generalizing v with
  | zero => exact ⟨hv, rfl⟩
  | succ k ih =>
    rw [Function.iterate_succ_apply, Function.iterate_succ_apply,
      ← subPrime_value hwords hp hvalue hv]
    exact ih (by rw [vliSub_length (hv.trans hp.symm), hv])

/-- The words of the reduction are those of `reduced`. -/
theorem vliMmodFast_spec (hw : 2 ≤ w) (hwords : w * n = 256) (hp : p.length = n)
    (hvalue : value p = fieldPrime) (homega : OmegaSpec n omegaMult)
    (hproduct : product.length = 2 * n) :
    (vliMmodFast omegaMult p product).length = n ∧
      value (vliMmodFast omegaMult p product) = reduced (folded (value product)) := by
  have hhigh := folded_high_lt (product_lt hwords hproduct)
  have hq : (product.drop n).length = n := by
    rw [List.length_drop]
    omega
  obtain ⟨hmin, hmax⟩ := homega.length _ hq
  have hwritten := homega.value (product.drop n)
  rw [value_drop_div _ (by omega), hwords, Nat.mul_comm] at hwritten
  -- `tmp` holds the first product with omega
  generalize htmp : omegaMult (product.drop n) ++
    vliClear w (2 * n - (omegaMult (product.drop n)).length) = tmp
  have htmpLength : tmp.length = 2 * n := by
    rw [← htmp, List.length_append, vliClear, List.length_replicate]
    omega
  have htmpValue : value tmp = value product / 2 ^ 256 * primeOmega := by
    rw [← htmp, value_append, vliClear, value_replicate_zero, Nat.mul_zero, Nat.add_zero, hwritten]
  have hrq : value ((omegaMult (tmp.drop n)).take n) =
      value product / 2 ^ 256 * primeOmega / 2 ^ 256 * primeOmega := by
    rw [value_take_mod, homega.value, value_drop_div _ (by omega), hwords, htmpValue, Nat.mul_comm]
    exact Nat.mod_eq_of_lt (hhigh.trans (by decide))
  have hrqLength : ((omegaMult (tmp.drop n)).take n).length = n := by
    refine List.length_take_of_le (homega.length _ ?_).1
    rw [List.length_drop]
    omega
  -- both additions
  have hlow : (product.take n).length = n := List.length_take_of_le (by omega)
  have hmid : (tmp.take n).length = n := List.length_take_of_le (by omega)
  have hadd := vliAdd_spec (hlow.trans hmid.symm)
  have haddLength := (vliAdd_length (hlow.trans hmid.symm)).trans hlow
  have hagain := vliAdd_spec (haddLength.trans hrqLength.symm)
  have hagainLength := (vliAdd_length (haddLength.trans hrqLength.symm)).trans haddLength
  have hcarry := vliAdd_carry_le (hlow.trans hmid.symm)
  have hcarry' := vliAdd_carry_le (haddLength.trans hrqLength.symm)
  rw [value_take_mod, value_take_mod, hlow, hwords, htmpValue] at hadd
  rw [hrq, haddLength, hwords] at hagain
  have hagainBound := value_lt (vliAdd (vliAdd (product.take n) (tmp.take n)).1
    ((omegaMult (tmp.drop n)).take n)).1
  rw [hagainLength, hwords] at hagainBound
  simp only [vliMmodFast, hp, htmp]
  generalize vliAdd (product.take n) (tmp.take n) = add at *
  generalize vliAdd add.1 ((omegaMult (tmp.drop n)).take n) = again at *
  have hsum : (add.2 + again.2).toNat = add.2.toNat + again.2.toNat := by
    have hfour : 2 ^ 2 ≤ 2 ^ w := Nat.pow_le_pow_right Nat.two_pos hw
    rw [BitVec.toNat_add, Nat.mod_eq_of_lt (by omega)]
  have htotal : folded (value product) =
      value again.1 + 2 ^ 256 * (add.2.toNat + again.2.toNat) := by
    simp only [folded]
    omega
  have hdiv : folded (value product) / 2 ^ 256 = (add.2 + again.2).toNat := by
    rw [htotal, hsum, Nat.add_mul_div_left _ _ (Nat.two_pow_pos 256),
      Nat.div_eq_of_lt hagainBound, Nat.zero_add]
  have hmod : folded (value product) % 2 ^ 256 = value again.1 := by
    rw [htotal, Nat.add_mul_mod_self_left, Nat.mod_eq_of_lt hagainBound]
  obtain ⟨hlength, hresult⟩ :=
    subPrime_iterate hwords hp hvalue (add.2 + again.2).toNat hagainLength
  rw [← hmod, ← hdiv] at hresult
  rw [← hdiv] at hlength ⊢
  have hcmp := vliCmpUnsafe_pos_iff (hlength.trans hp.symm)
  rw [hvalue, hresult] at hcmp
  simp only [reduced, ← hcmp]
  split
  · rename_i hgt
    rw [vliSub_length (hlength.trans hp.symm), vliSub_value_of_le (hlength.trans hp.symm), hresult,
      hvalue]
    · exact ⟨hlength, rfl⟩
    · rw [hvalue, hresult]
      exact Nat.le_of_lt (hcmp.mp hgt)
  · exact ⟨hlength, hresult⟩

end Reduction

/-! ## What the curves have in common -/

/-- The base point. -/
def baseX : Nat := 0x79BE667EF9DCBBAC55A06295CE870B07029BFCDB2DCE28D959F2815B16F81798

def baseY : Nat := 0x483ADA7726A3C4655DA4FBFC0E1108A8FD17B448A68554199C47D08FFB10D4B8

/-- A curve with the numbers of secp256k1, in words of any size. -/
structure IsSecp256k1 (c : Curve w) : Prop where
  word : 8 ∣ w
  words : w * c.numWords = 256
  room : c.numWords ≤ 2 ^ w
  numBytes : c.numBytes = 32
  numNBits : c.numNBits = 256
  pLength : c.p.length = c.numWords
  pValue : value c.p = fieldPrime
  nLength : c.n.length = c.numWords
  nValue : value c.n = groupOrder
  gLength : c.G.length = 2 * c.numWords
  gxValue : value (c.G.take c.numWords) = baseX
  gyValue : value (c.G.drop c.numWords) = baseY
  bLength : c.b.length = c.numWords
  bValue : value c.b = 7
  mmodFast : ∀ product : Vli w, product.length = 2 * c.numWords →
    (c.mmodFast product).length = c.numWords ∧
      value (c.mmodFast product) = reduced (folded (value product))

theorem isSecp256k1_secp256k1 : IsSecp256k1 secp256k1 where
  word := by decide
  words := rfl
  room := by decide
  numBytes := rfl
  numNBits := rfl
  pLength := rfl
  pValue := by decide +kernel
  nLength := rfl
  nValue := by decide +kernel
  gLength := rfl
  gxValue := by decide +kernel
  gyValue := by decide +kernel
  bLength := rfl
  bValue := by decide +kernel
  mmodFast := fun product hproduct => by
    refine vliMmodFast_spec (by decide) rfl rfl (by decide +kernel) ⟨omegaMult32_value, ?_⟩ hproduct
    intro right hright
    rw [omegaMult32_length, hright]
    decide

theorem isSecp256k1_hostSecp256k1 : IsSecp256k1 hostSecp256k1 where
  word := by decide
  words := rfl
  room := by decide
  numBytes := rfl
  numNBits := rfl
  pLength := rfl
  pValue := by decide +kernel
  nLength := rfl
  nValue := by decide +kernel
  gLength := rfl
  gxValue := by decide +kernel
  gyValue := by decide +kernel
  bLength := rfl
  bValue := by decide +kernel
  mmodFast := fun product hproduct => by
    refine vliMmodFast_spec (by decide) rfl rfl (by decide +kernel) ⟨omegaMult64_value, ?_⟩ hproduct
    intro right hright
    rw [omegaMult64_length, hright]
    decide

section Common

variable {c : Curve w}

theorem IsSecp256k1.mmodFast_iff (hc : IsSecp256k1 c) {product : Vli w}
    (hproduct : product.length = 2 * c.numWords) :
    value (c.mmodFast product) = value product % fieldPrime ↔
      folded (value product) ≠ fieldPrime ∧ folded (value product) ≠ 2 * fieldPrime ∧
        ¬Missed (value product) := by
  have hcongr : folded (value product) % fieldPrime = value product % fieldPrime :=
    folded_congr (value product)
  rw [(hc.mmodFast product hproduct).2, ← hcongr]
  exact reduced_eq_iff (folded_lt (product_lt hc.words hproduct))

/-- Products of reduced numbers are multiples of the prime only if they are zero. -/
theorem folded_mul_ne {l r : Nat} (hl : l < fieldPrime) (hr : r < fieldPrime) :
    folded (l * r) ≠ fieldPrime ∧ folded (l * r) ≠ 2 * fieldPrime := by
  have hzero : fieldPrime ∣ folded (l * r) → folded (l * r) = 0 := by
    intro hdvd
    have hmul : fieldPrime ∣ l * r := ((folded_congr (l * r)).dvd_iff (dvd_refl _)).mp hdvd
    obtain hdvd | hdvd := fieldPrime_prime.dvd_mul.mp hmul
    · rw [Nat.eq_zero_of_dvd_of_lt hdvd hl, Nat.zero_mul]
      rfl
    · rw [Nat.eq_zero_of_dvd_of_lt hdvd hr, Nat.mul_zero]
      rfl
  have hpos := fieldPrime_prime.pos
  refine ⟨fun h => ?_, fun h => ?_⟩
  · have := hzero (Dvd.intro 1 (by omega))
    omega
  · have := hzero (Dvd.intro_left 2 (by omega))
    omega

/-- Operands the code can have, whose product it reduces to the wrong number. -/
theorem missed_operands :
    Missed (0x1affff98f5018940f5232f1874b943aa88f4c22b51e6f8ac6d84f5f203 *
      0x97b425ed097b425ed097b425ed097b425ed097b425ed097b425ed0986253967) := by
  decide +kernel

end Common

/-- On both machines the fast reduction leaves the remainder, with the exceptions named; reduced
operands can have a product of the last kind. -/
theorem vliMmodFast_remainder :
    (∀ product : Vli 32, product.length = 16 →
      (value (secp256k1.mmodFast product) = value product % fieldPrime ↔
        folded (value product) ≠ fieldPrime ∧ folded (value product) ≠ 2 * fieldPrime ∧
          ¬Missed (value product))) ∧
    (∀ product : Vli 64, product.length = 8 →
      (value (hostSecp256k1.mmodFast product) = value product % fieldPrime ↔
        folded (value product) ≠ fieldPrime ∧ folded (value product) ≠ 2 * fieldPrime ∧
          ¬Missed (value product))) ∧
    ∃ l r, l < fieldPrime ∧ r < fieldPrime ∧ Missed (l * r) := by
  refine ⟨fun product h => isSecp256k1_secp256k1.mmodFast_iff h,
    fun product h => isSecp256k1_hostSecp256k1.mmodFast_iff h, _, _, ?_, ?_, missed_operands⟩
  · decide +kernel
  · decide +kernel

theorem vliMmodFast_remainder_ones :
    value (secp256k1.mmodFast (List.replicate 16 1)) =
      value (List.replicate 16 (1 : BitVec 32)) % fieldPrime ∧
    value (hostSecp256k1.mmodFast (List.replicate 8 1)) =
      value (List.replicate 8 (1 : BitVec 64)) % fieldPrime := by
  obtain ⟨hmachine, hhost, -⟩ := vliMmodFast_remainder
  refine ⟨(hmachine _ rfl).mpr ?_, (hhost _ rfl).mpr ?_⟩
  · decide +kernel
  · decide +kernel

end PrplHypervisor.UEcc
