import PrplHypervisor.Cryptography.GroupOrder
import PrplHypervisor.Cryptography.Ladder

/-!
# Private and public keys (cryptography/uECC.c)

The private key is regularized: one or two times the order is added, so that 257 bits are read.
The ladder then meets opposite points for the private keys `1`, `n - 2` and `n - 1` and for no
others.

- `climbs_iff_regular`: the multiples the ladder computes.
- `computePublicKey_spec`: the public key, and the private keys that have none.
-/

namespace PrplHypervisor.UEcc

open Limbs Ledger MontgomeryLadder

variable {w : Nat}

/-- `regularize_k`: the carry, `k0` and `k1`. -/
def regularizeK (c : Curve w) (k : Vli w) : Bool × Vli w × Vli w :=
  let add := vliAdd k c.n
  let carry := add.2 != 0 ||
    (decide (c.numNBits < c.numWords * w) && vliTestBit add.1 c.numNBits)
  (carry, add.1, (vliAdd add.1 c.n).1)

/-- `p2[!carry]`. -/
def regularScalar (c : Curve w) (k : Vli w) : Vli w :=
  let regular := regularizeK c k
  if regular.1 then regular.2.1 else regular.2.2

/-- `EccPoint_compute_public_key`; `none` is the return value 0. -/
def eccPointComputePublicKey (c : Curve w) (privateKey : Vli w) : Run (Option (EccPoint w)) := do
  let result ← eccPointMult c c.base (regularScalar c privateKey) none (c.numNBits + 1)
  return if result.isZero then none else some result

/-- `uECC_compute_public_key`: the bytes of the public key, or the return value 0. -/
def computePublicKey (c : Curve w) (privateKey : List UInt8) : Run (Option (List UInt8)) := do
  let priv := bytesToNative (vliClear w c.numWords) (privateKey.take ((c.numNBits + 7) / 8))
  if vliIsZero priv then return none
  if vliCmp c.n priv != 1 then return none
  let pub ← eccPointComputePublicKey c priv
  return pub.map (pointToBytes c)

/-! ## The scalar -/

section Scalar

variable {c : Curve w} {k : Vli w}

/-- The scalar whose lower 256 bits are read. -/
def regular (k : Nat) : Nat :=
  if 2 ^ 256 ≤ k + groupOrder then k + groupOrder else k + 2 * groupOrder

theorem regular_bounds {k : Nat} (h : k < groupOrder) :
    2 ^ 256 ≤ regular k ∧ regular k < 2 * 2 ^ 256 := by
  have horder : groupOrder < 2 ^ 256 ∧ 2 ^ 256 < 2 * groupOrder := by decide +kernel
  unfold regular
  split <;> omega

theorem regularScalar_value (hc : IsSecp256k1 c) (hk : k.length = c.numWords)
    (hlt : value k < groupOrder) :
    2 ^ 256 + value (regularScalar c k) = regular (value k) := by
  have hlen := hk.trans hc.nLength.symm
  have hadd := vliAdd_length hlen
  have hspec := vliAdd_spec hlen
  have hcarry := vliAdd_carry_iff hlen
  have hle := vliAdd_carry_le hlen
  have hagain := vliAdd_value (hadd.trans hlen)
  have hbound := value_lt (vliAdd k c.n).1
  have hwords : ¬c.numNBits < c.numWords * w := by
    rw [hc.numNBits, Nat.mul_comm, hc.words]
    exact Nat.lt_irrefl 256
  have horder : groupOrder < 2 ^ 256 ∧ 2 ^ 256 < 2 * groupOrder := by decide +kernel
  rw [hadd, hk, hc.words] at hbound
  rw [hk, hc.words, hc.nValue] at hspec hcarry
  rw [hadd, hk, hc.words, hc.nValue] at hagain
  simp only [regularScalar, regularizeK, hwords, decide_false, Bool.false_and, Bool.or_false,
    bne_iff_ne, regular]
  by_cases hzero : (vliAdd k c.n).2 = 0
  · rw [hzero, toNat_zero, Nat.mul_zero, Nat.add_zero] at hspec
    rw [if_neg (not_not.mpr hzero), if_neg (by have := hcarry.mp hzero; omega), hagain, hspec]
    omega
  · have hone : (vliAdd k c.n).2.toNat = 1 := by
      have hne : (vliAdd k c.n).2.toNat ≠ 0 := fun h =>
        hzero (BitVec.eq_of_toNat_eq (h.trans toNat_zero.symm))
      omega
    rw [hone] at hspec
    rw [if_pos hzero, if_pos (by have := hcarry.not.mp hzero; omega)]
    omega

theorem regularized (hc : IsSecp256k1 c) (hk : k.length = c.numWords)
    (hlt : value k < groupOrder) :
    Regularized (regularScalar c k) (regular (value k)) 257 := by
  have hvalue := regularScalar_value hc hk hlt
  obtain ⟨hge, hlt'⟩ := regular_bounds hlt
  refine ⟨?_, by omega, fun i hi => ?_⟩
  · have hsize := size_add_mul (show value (regularScalar c k) < 2 ^ 256 by omega) one_ne_zero
    rw [← hvalue, Nat.add_comm, ← Nat.mul_one (2 ^ 256), hsize, Nat.size_one]
  · rw [← hvalue, Nat.testBit_two_pow_add_gt]
    omega

end Scalar

/-! ## The ladder over the base point -/

/-- The factor of the base point is not one that the ladder cannot compute. -/
def Computable (k : Nat) : Prop := k ≠ 1 ∧ k ≠ groupOrder - 2 ∧ k ≠ groupOrder - 1

instance (k : Nat) : Decidable (Computable k) := inferInstanceAs (Decidable (_ ∧ _))

/-- Opposite points: twice the lower factor and one is the order. -/
theorem climbs_iff_factor {m i : Nat} (hm : m < 2 * 2 ^ 256) :
    Climbs basePoint m i ↔ m / 2 ^ (i + 1) ≠ (groupOrder - 1) / 2 := by
  have horder : groupOrder % 2 = 1 ∧ 2 * 2 ^ 256 < 3 * groupOrder := by decide +kernel
  have hle : 2 * (m / 2 ^ (i + 1)) ≤ m := by
    rw [Nat.pow_succ, ← Nat.div_div_eq_div_mul]
    exact (Nat.mul_div_le _ 2).trans (Nat.div_le_self m _)
  rw [Climbs, Ne, nsmul_base_eq_zero_iff, not_iff_not]
  generalize m / 2 ^ (i + 1) = k at *
  constructor
  · rintro ⟨q, hq⟩
    have hq3 : q < 3 := by
      by_contra hge
      have := Nat.mul_le_mul_left groupOrder (Nat.le_of_not_lt hge)
      omega
    obtain rfl | rfl | rfl : q = 0 ∨ q = 1 ∨ q = 2 := by omega
    · omega
    · omega
    · omega
  · intro hk
    exact ⟨1, by omega⟩

/-- The factor is met two bits before the end. -/
theorem climbs_iff_regular {k : Nat} (hpos : 0 < k) (hlt : k < groupOrder) :
    ClimbsFrom basePoint (regular k) 257 0 ↔ Computable k := by
  obtain ⟨hge, hlt'⟩ := regular_bounds hlt
  have hhalf : 2 ^ 254 ≤ (groupOrder - 1) / 2 ∧ (groupOrder - 1) / 2 < 2 ^ 255 := by
    decide +kernel
  have hfour : regular k / 2 ^ (1 + 1) = (groupOrder - 1) / 2 ↔ ¬Computable k := by
    clear hge hlt' hhalf
    unfold groupOrder at hlt
    unfold regular Computable groupOrder
    split <;> omega
  constructor
  · intro hall
    have hone := (climbs_iff_factor hlt').mp (hall 1 (by omega) (by omega))
    rw [Ne, hfour, not_not] at hone
    exact hone
  · intro hcomputable j _ hj
    rw [climbs_iff_factor hlt']
    intro heq
    -- the length of the factor fixes the round
    have hsize : j = 1 := by
      have hupper : regular k < 2 ^ 255 * 2 ^ (j + 1) := by
        rw [← Nat.div_lt_iff_lt_mul (Nat.two_pow_pos _), heq]
        exact hhalf.2
      have hlower : 2 ^ 254 * 2 ^ (j + 1) ≤ regular k := by
        rw [← Nat.le_div_iff_mul_le (Nat.two_pow_pos _), heq]
        exact hhalf.1
      have hlow : 2 ^ 256 < 2 ^ (255 + (j + 1)) := by
        rw [Nat.pow_add]
        exact Nat.lt_of_le_of_lt hge hupper
      have hhigh : 2 ^ (254 + (j + 1)) < 2 ^ 257 := by
        rw [Nat.pow_add, Nat.pow_succ 2 256, Nat.mul_comm (2 ^ 256)]
        exact Nat.lt_of_le_of_lt hlower hlt'
      have := (Nat.pow_lt_pow_iff_right (by decide : 1 < 2)).mp hlow
      have := (Nat.pow_lt_pow_iff_right (by decide : 1 < 2)).mp hhigh
      omega
    rw [hsize] at heq
    exact hfour.mp heq hcomputable

theorem regular_nsmul (k : Nat) : regular k • basePoint = k • basePoint := by
  rw [nsmul_base_eq_iff]
  unfold regular
  split
  · exact Nat.add_modEq_right
  · rw [Nat.two_mul, ← Nat.add_assoc]
    exact Nat.add_modEq_right.trans Nat.add_modEq_right

/-! ## Public keys -/

section PublicKey

variable {c : Curve w} {k : Vli w}

theorem base_x_ne_zero (hc : IsSecp256k1 c) : value c.base.x ≠ 0 := by
  rw [Curve.base, pointOf, hc.gxValue]
  decide +kernel

/-- The multiple of the base point, or `(0, 0)`. -/
theorem mult_base_spec (hc : IsSecp256k1 c) (hk : k.length = c.numWords) (hpos : 0 < value k)
    (hlt : value k < groupOrder) :
    Ensures Exact (eccPointMult c c.base (regularScalar c k) none (c.numNBits + 1)) fun R =>
      (Computable (value k) ∧ Holds c R 1 (value k • basePoint)) ∨
        (¬Computable (value k) ∧ Origin c R) := by
  have hx := base_x_ne_zero hc
  have hnone : ∀ Z ∈ (none : Option (Vli w)), ∃ t, t ≠ 0 ∧ Rep c Z t := fun Z hZ => by cases hZ
  rw [hc.numNBits]
  refine (eccPointMult_spec hc (base_holds hc) hx hnone (regularized hc hk hlt)).mono fun R hR => ?_
  rw [climbs_iff_regular hpos hlt, regular_nsmul] at hR
  exact hR

/-- A point of the curve is not `(0, 0)`. -/
theorem Holds.not_isZero {P : EccPoint w} {A : Secp} (h : Holds c P 1 A) : P.isZero = false := by
  obtain ⟨X, Y, hXY, hP, rfl⟩ := h.affine
  rw [Bool.eq_false_iff, EccPoint.isZero, Ne, vliIsZero_iff, value_append, Nat.add_eq_zero_iff,
    mul_eq_zero, or_iff_right (Nat.ne_of_gt (Nat.two_pow_pos _)), ← hP.y.val, ZMod.val_eq_zero]
  exact fun hzero => y_ne_zero hXY.1 hzero.2

theorem Origin.isZero {P : EccPoint w} (h : Origin c P) : P.isZero = true := by
  rw [EccPoint.isZero, vliIsZero_iff, value_append, ← h.x.val, ← h.y.val, ZMod.val_zero,
    Nat.mul_zero]

theorem eccPointComputePublicKey_spec (hc : IsSecp256k1 c) (hk : k.length = c.numWords)
    (hpos : 0 < value k) (hlt : value k < groupOrder) :
    Ensures Exact (eccPointComputePublicKey c k) fun result =>
      (Computable (value k) ∧ ∃ R, result = some R ∧ Holds c R 1 (value k • basePoint)) ∨
        (¬Computable (value k) ∧ result = none) := by
  unfold eccPointComputePublicKey
  refine (mult_base_spec hc hk hpos hlt).bind fun R hR => ensures_pure ?_
  obtain ⟨hcomputable, hholds⟩ | ⟨hnot, horigin⟩ := hR
  · rw [hholds.not_isZero]
    exact .inl ⟨hcomputable, R, rfl, hholds⟩
  · rw [horigin.isZero]
    exact .inr ⟨hnot, rfl⟩

/-- The number of a private key, of which 32 bytes count. -/
def privateNumber (privateKey : List UInt8) : Nat := bigEndian (privateKey.take 32)

/-- The private keys that have a public key. -/
def Usable (d : Nat) : Prop := 0 < d ∧ d < groupOrder ∧ Computable d

instance (d : Nat) : Decidable (Usable d) := inferInstanceAs (Decidable (_ ∧ _))

theorem usable_iff (d : Nat) : Usable d ↔ 2 ≤ d ∧ d + 2 < groupOrder := by
  have horder : 3 < groupOrder := by decide +kernel
  unfold Usable Computable
  generalize groupOrder = n at *
  omega

theorem computePublicKey_spec (hc : IsSecp256k1 c) (privateKey : List UInt8) :
    Ensures Exact (computePublicKey c privateKey) fun result =>
      (Usable (privateNumber privateKey) ∧ ∃ publicKey, result = some publicKey ∧
        publicKey.length = 64 ∧ Encodes publicKey (privateNumber privateKey • basePoint)) ∨
      (¬Usable (privateNumber privateKey) ∧ result = none) := by
  obtain ⟨hk, hvalue⟩ := bytesToNative_number hc (List.length_take_le 32 privateKey)
  unfold computePublicKey
  simp only [hc.numNBits, show (256 + 7) / 8 = 32 from rfl]
  rw [privateNumber, ← hvalue]
  generalize bytesToNative (vliClear w c.numWords) (privateKey.take 32) = k at *
  by_cases hzero : vliIsZero k = true
  · rw [if_pos hzero]
    rw [vliIsZero_iff] at hzero
    exact ensures_pure (.inr ⟨fun h => absurd hzero (Nat.ne_of_gt h.1), rfl⟩)
  rw [if_neg hzero]
  rw [vliIsZero_iff] at hzero
  have hcmp : vliCmp c.n k = 1 ↔ value k < groupOrder := by
    rw [vliCmp_eq (hc.nLength.trans hk.symm), Int.sign_eq_one_iff_pos, hc.nValue]
    omega
  by_cases hge : (vliCmp c.n k != 1) = true
  · rw [if_pos hge]
    rw [bne_iff_ne, Ne, hcmp] at hge
    exact ensures_pure (.inr ⟨fun h => hge h.2.1, rfl⟩)
  rw [if_neg hge]
  rw [bne_iff_ne, not_not, hcmp] at hge
  have hpos := Nat.pos_of_ne_zero hzero
  refine (eccPointComputePublicKey_spec hc hk hpos hge).bind fun result hresult => ensures_pure ?_
  obtain ⟨hcomputable, R, rfl, hR⟩ | ⟨hnot, rfl⟩ := hresult
  · exact .inl ⟨⟨hpos, hge, hcomputable⟩, pointToBytes c R, rfl, pointToBytes_length hc R,
      hR.encodes hc⟩
  · exact .inr ⟨fun h => hnot h.2.2, rfl⟩

end PublicKey

end PrplHypervisor.UEcc
