import PrplHypervisor.Cryptography.Secp256k1
import PrplHypervisor.Cryptography.VliInverse
import PrplHypervisor.Lib.Ledger

/-!
# Coordinates (cryptography/uECC.c)

Words below the prime are elements of its field. A `Run` notes every product that is reduced;
as long as no product is `Missed` the words stay those of the field element.

- `Rep`: the words of a field element.
- `Rep.add`, `Rep.sub`, `Rep.mul`, `Rep.inv`, `Rep.half`: the operations.
-/

namespace PrplHypervisor.UEcc

open Limbs Ledger BinaryInverse

variable {w : Nat}

/-- A computation and the products it reduces modulo the prime. -/
abbrev Run (α : Type) := Ledger Nat α

/-- A product that is reduced to its remainder. -/
def Exact (product : Nat) : Prop := ¬Missed product

instance (product : Nat) : Decidable (Exact product) := inferInstanceAs (Decidable (¬_))

/-- `uECC_vli_modMult_fast`. -/
def modMultFast (c : Curve w) (left right : Vli w) : Run (Vli w) := do
  let product := vliMult left right
  note (value product)
  return c.mmodFast product

/-- `uECC_vli_modSquare_fast`. -/
def modSquareFast (c : Curve w) (left : Vli w) : Run (Vli w) := modMultFast c left left

/-- Half of `Y1` in `double_jacobian_secp256k1`. -/
def halfMod (c : Curve w) (Y1 : Vli w) : Vli w :=
  if vliTestBit Y1 0 then
    let add := vliAdd Y1 c.p
    let Y1 := vliRshift1 add.1
    let last := c.numWords - 1
    Y1.set last (Y1.getD last 0 ||| add.2 <<< (w - 1))
  else vliRshift1 Y1

/-! ## Field elements -/

/-- The words of `x`. -/
structure Rep (c : Curve w) (xs : Vli w) (x : ZMod fieldPrime) : Prop where
  length : xs.length = c.numWords
  lt : value xs < fieldPrime
  cast : (value xs : ZMod fieldPrime) = x

section Field

variable {c : Curve w} {xs ys : Vli w} {x y : ZMod fieldPrime}

theorem IsSecp256k1.pos (hc : IsSecp256k1 c) : 0 < w ∧ 0 < c.numWords := by
  have hpos : 0 < w * c.numWords := by
    rw [hc.words]
    exact Nat.succ_pos 255
  exact ⟨Nat.pos_of_mul_pos_right hpos, Nat.pos_of_mul_pos_left hpos⟩

theorem rep_of_mod {n : Nat} (hlen : xs.length = c.numWords) (hvalue : value xs = n % fieldPrime) :
    Rep c xs n where
  length := hlen
  lt := by
    rw [hvalue]
    exact Nat.mod_lt n fieldPrime_prime.pos
  cast := by rw [hvalue, ZMod.natCast_mod]

/-- The words are determined by the element. -/
theorem Rep.val (h : Rep c xs x) : x.val = value xs := by
  rw [← h.cast, ZMod.val_natCast_of_lt h.lt]

theorem Rep.eq_iff (hx : Rep c xs x) (hy : Rep c ys y) : xs = ys ↔ x = y := by
  constructor
  · rintro rfl
    rw [← hx.cast, hy.cast]
  · rintro rfl
    exact value_inj (hx.length.trans hy.length.symm) (hx.val.symm.trans hy.val)

theorem Rep.isZero (hx : Rep c xs x) : vliIsZero xs = true ↔ x = 0 := by
  rw [vliIsZero_iff, ← hx.val, ZMod.val_eq_zero]

theorem Rep.equal (hx : Rep c xs x) (hy : Rep c ys y) : vliEqual xs ys = true ↔ x = y := by
  rw [vliEqual_iff (hx.length.trans hy.length.symm), hx.eq_iff hy]

theorem rep_zero : Rep c (vliClear w c.numWords) 0 where
  length := List.length_replicate
  lt := by
    rw [vliClear, value_replicate_zero]
    exact fieldPrime_prime.pos
  cast := by rw [vliClear, value_replicate_zero, Nat.cast_zero]

theorem rep_one (hc : IsSecp256k1 c) : Rep c ((vliClear w c.numWords).set 0 1) 1 where
  length := by rw [List.length_set, vliClear, List.length_replicate]
  lt := by
    rw [value_one hc.pos.1 hc.pos.2]
    exact fieldPrime_prime.one_lt
  cast := by rw [value_one hc.pos.1 hc.pos.2, Nat.cast_one]

theorem Rep.add (hc : IsSecp256k1 c) (hx : Rep c xs x) (hy : Rep c ys y) :
    Rep c (vliModAdd xs ys c.p) (x + y) := by
  have hlen := hx.length.trans hy.length.symm
  have hmod := hx.length.trans hc.pLength.symm
  rw [← hx.cast, ← hy.cast, ← Nat.cast_add]
  refine rep_of_mod ((vliModAdd_length hlen hmod).trans hx.length) ?_
  have hvalue := vliModAdd_value hlen hmod (by rw [hc.pValue]; exact hx.lt)
    (by rw [hc.pValue]; exact hy.lt)
  rw [hc.pValue] at hvalue
  exact hvalue

theorem Rep.sub (hc : IsSecp256k1 c) (hx : Rep c xs x) (hy : Rep c ys y) :
    Rep c (vliModSub xs ys c.p) (x - y) := by
  have hlen := hx.length.trans hy.length.symm
  have hmod := hx.length.trans hc.pLength.symm
  have hcast : ((value xs + (fieldPrime - value ys) : Nat) : ZMod fieldPrime) = x - y := by
    rw [Nat.cast_add, Nat.cast_sub (Nat.le_of_lt hy.lt), ZMod.natCast_self, hx.cast, hy.cast]
    ring
  rw [← hcast]
  refine rep_of_mod ((vliModSub_length hlen hmod).trans hx.length) ?_
  have hvalue := vliModSub_value hlen hmod (by rw [hc.pValue]; exact hx.lt)
    (by rw [hc.pValue]; exact hy.lt)
  rw [hc.pValue] at hvalue
  exact hvalue

/-- The product is reduced exactly unless it is one of those the reduction misses. -/
theorem Rep.mul (hc : IsSecp256k1 c) (hx : Rep c xs x) (hy : Rep c ys y) :
    Ensures Exact (modMultFast c xs ys) fun zs => Rep c zs (x * y) := by
  have hlen := hx.length.trans hy.length.symm
  have hpos : 0 < xs.length := hx.length ▸ hc.pos.2
  have hroom : xs.length ≤ 2 ^ w := hx.length ▸ hc.room
  have hproduct := vliMult_value hlen hpos hroom
  have hsize : (vliMult xs ys).length = 2 * c.numWords := by
    rw [vliMult_length hlen hpos hroom, hx.length]
  refine ensures_note fun hexact => ensures_pure ?_
  obtain ⟨hne, hne'⟩ := folded_mul_ne hx.lt hy.lt
  rw [← hproduct] at hne hne'
  have hvalue := (hc.mmodFast_iff hsize).mpr ⟨hne, hne', hexact⟩
  rw [hproduct] at hvalue
  rw [← hx.cast, ← hy.cast, ← Nat.cast_mul]
  exact rep_of_mod (hc.mmodFast _ hsize).1 hvalue

theorem Rep.square (hc : IsSecp256k1 c) (hx : Rep c xs x) :
    Ensures Exact (modSquareFast c xs) fun zs => Rep c zs (x * x) := hx.mul hc hx

theorem fieldPrime_odd : fieldPrime % 2 = 1 := by decide +kernel

/-- Zero has the inverse zero. -/
theorem Rep.inv (hc : IsSecp256k1 c) (hx : Rep c xs x) : Rep c (vliModInv xs c.p) x⁻¹ := by
  have hlen := hx.length.trans hc.pLength.symm
  by_cases hzero : value xs = 0
  · have hx0 : x = 0 := by rw [← hx.cast, hzero, Nat.cast_zero]
    rw [vliModInv_zero hzero, hc.pLength, hx0, inv_zero]
    exact rep_zero
  · have hodd : value c.p % 2 = 1 := by
      rw [hc.pValue]
      exact fieldPrime_odd
    have hone : 1 < value c.p := by
      rw [hc.pValue]
      exact fieldPrime_prime.one_lt
    obtain ⟨hlength, hlt, hcongr⟩ := vliModInv_quotient hlen hodd hone hzero
    have hcoprime : (value xs).gcd fieldPrime = 1 :=
      Nat.Coprime.symm ((Nat.Prime.coprime_iff_not_dvd fieldPrime_prime).mpr
        (Nat.not_dvd_of_pos_of_lt (Nat.pos_of_ne_zero hzero) hx.lt))
    rw [hc.pValue] at hlt hcongr
    rw [hcoprime, ← ZMod.natCast_eq_natCast_iff, Nat.cast_mul, hx.cast, Nat.cast_one] at hcongr
    exact ⟨hlength.trans hc.pLength, hlt, eq_inv_of_mul_eq_one_left hcongr⟩

theorem two_ne_zero_field : (2 : ZMod fieldPrime) ≠ 0 := by
  intro h
  have hdvd : fieldPrime ∣ 2 := (ZMod.natCast_eq_zero_iff 2 fieldPrime).mp (by exact_mod_cast h)
  have hle := Nat.le_of_dvd Nat.two_pos hdvd
  exact absurd hle (by decide +kernel)

/-- The carry of the addition comes back as the highest bit. -/
theorem halfMod_value (hc : IsSecp256k1 c) (hlen : xs.length = c.numWords) :
    (halfMod c xs).length = c.numWords ∧
      value (halfMod c xs) = half fieldPrime (value xs) := by
  obtain ⟨hw, hn⟩ := hc.pos
  have hadd := vliAdd_length (hlen.trans hc.pLength.symm)
  have hspec := vliAdd_spec (hlen.trans hc.pLength.symm)
  have hcarry := vliAdd_carry_le (hlen.trans hc.pLength.symm)
  have hbound := value_lt (vliAdd xs c.p).1
  rw [hadd, hlen] at hbound
  rw [hlen, hc.pValue, two_pow_words hw hn] at hspec
  have hbit := vliTestBit_zero hw xs
  simp only [halfMod]
  split
  · rename_i hodd
    rw [hodd] at hbit
    have htop := toNat_shiftLeft_pred hw (vliAdd xs c.p).2
    rw [Nat.mod_eq_of_lt (by omega)] at htop
    have hset := value_set_top hw hn ((vliRshift1_length _).trans (hadd.trans hlen))
      (by rw [vliRshift1_value hw]; omega) htop
    refine ⟨by rw [List.length_set, vliRshift1_length, hadd, hlen], ?_⟩
    rw [hset, vliRshift1_value hw, half, if_neg (by have := of_decide_eq_true hbit.symm; omega),
      ← hspec, Nat.mul_assoc 2, Nat.add_mul_div_left _ _ Nat.two_pos]
  · rename_i heven
    have heven := of_decide_eq_false (hbit.symm.trans (Bool.eq_false_iff.mpr heven))
    rw [vliRshift1_length, vliRshift1_value hw, half, if_pos (by omega)]
    exact ⟨hlen, rfl⟩

theorem Rep.half (hc : IsSecp256k1 c) (hx : Rep c xs x) : Rep c (halfMod c xs) (x / 2) := by
  obtain ⟨hlength, hvalue⟩ := halfMod_value hc hx.length
  have hdouble := double_half fieldPrime_odd (value xs)
  rw [← hvalue, ← ZMod.natCast_eq_natCast_iff, Nat.cast_mul, hx.cast, Nat.cast_two] at hdouble
  refine ⟨hlength, ?_, ?_⟩
  · rw [hvalue]
    exact half_lt hx.lt
  · rw [eq_div_iff two_ne_zero_field, mul_comm]
    exact hdouble

end Field

end PrplHypervisor.UEcc
