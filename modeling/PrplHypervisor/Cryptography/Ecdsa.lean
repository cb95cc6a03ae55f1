import PrplHypervisor.Cryptography.Shamir
import PrplHypervisor.Cryptography.VliInverse

/-!
# Verification of signatures (cryptography/uECC.c)

- `Accepts`: the equation of ECDSA, over the points of the curve and integers modulo its order.
- `verify_spec`: the code accepts what the equation accepts, unless an addition of points does
  not apply; then it rejects.
-/

namespace PrplHypervisor.UEcc

open Limbs Ledger BinaryInverse

variable {w : Nat}

/-- The loop of `bits2int`, from the highest word on. -/
def bitsShift (shift : Nat) : List (BitVec w) → BitVec w → List (BitVec w)
  | temp :: rest, carry =>
    ((temp >>> shift) ||| carry) :: bitsShift shift rest (temp <<< (w - shift))
  | [], _ => []

/-- `bits2int`. -/
def bits2int (c : Curve w) (bits : List UInt8) : Vli w :=
  let bits := bits.take ((c.numNBits + 7) / 8)
  let native := bytesToNative (vliClear w c.numWords) bits
  if bits.length * 8 ≤ c.numNBits then native
  else
    let native := (bitsShift (bits.length * 8 - c.numNBits) native.reverse 0).reverse
    if vliCmpUnsafe c.n native != 1 then (vliSub native c.n).1 else native

/-- `uECC_verify`. -/
def verify (c : Curve w) (publicKey messageHash signature : List UInt8) : Run Int := do
  let pub := bytesToPoint c publicKey
  let r := bytesToNative (vliClear w c.numWords) (signature.take c.numBytes)
  let s := bytesToNative (vliClear w c.numWords) ((signature.drop c.numBytes).take c.numBytes)
  if vliIsZero r || vliIsZero s then return 0
  if vliCmpUnsafe c.n r != 1 || vliCmpUnsafe c.n s != 1 then return 0
  let z := vliModInv s c.n
  let u1 := vliModMult (bits2int c messageHash) z c.n
  let u2 := vliModMult r z c.n
  let sum ← sumWithBase c pub
  let R ← shamir c (shamirPoints c pub sum) u1 u2
  let rx := if vliCmpUnsafe c.n R.x != 1 then (vliSub R.x c.n).1 else R.x
  return if vliEqual rx r then 1 else 0

/-! ## The equation -/

/-- `e / s` and `r / s` modulo the order. -/
def quotient (a s : Nat) : Nat := ((a : ZMod groupOrder) / (s : ZMod groupOrder)).val

/-- The numbers of a signature are reduced and not zero. -/
def InRange (r s : Nat) : Prop := (0 < r ∧ r < groupOrder) ∧ 0 < s ∧ s < groupOrder

/-- `A` is a point whose first coordinate is `r` modulo the order. -/
def HasX (A : Secp) (r : Nat) : Prop := ∃ X Y h, A = .some X Y h ∧ X.val % groupOrder = r

/-- `(r, s)` is a signature of `e` for the key `Q`. -/
def Accepts (Q : Secp) (e r s : Nat) : Prop :=
  InRange r s ∧ HasX (quotient e s • basePoint + quotient r s • Q) r

/-- The numbers in a signature. -/
def signatureR (signature : List UInt8) : Nat := bigEndian (signature.take 32)

def signatureS (signature : List UInt8) : Nat := bigEndian ((signature.drop 32).take 32)

/-- The number of a hash, of which no more than 32 bytes count. -/
def hashNumber (messageHash : List UInt8) : Nat := bigEndian (messageHash.take 32)

/-- The additions of the loop apply. -/
def RegularRun (Q : Secp) (e r s : Nat) : Prop := RegularFrom Q (quotient e s) (quotient r s) 0

/-! ## Numbers modulo the order -/

section Order

variable {c : Curve w} {xs ys s : Vli w}

theorem groupOrder_odd : groupOrder % 2 = 1 := by decide +kernel

theorem IsSecp256k1.nTop (hc : IsSecp256k1 c) : w * (c.n.length - 1) < (value c.n).size := by
  have hsize : groupOrder.size = 256 := by
    refine Nat.le_antisymm (Nat.size_le.mpr (by decide +kernel)) (Nat.lt_size.mpr ?_)
    decide +kernel
  have hwords := two_pow_words hc.pos.1 hc.pos.2
  rw [hc.nLength, hc.nValue, hsize, ← hc.words]
  exact Nat.mul_lt_mul_of_pos_left (Nat.sub_lt hc.pos.2 Nat.one_pos) hc.pos.1

/-- The product modulo the order, of any operands. -/
theorem modMult_order (hc : IsSecp256k1 c) (hx : xs.length = c.numWords)
    (hy : ys.length = c.numWords) :
    (vliModMult xs ys c.n).length = c.numWords ∧
      value (vliModMult xs ys c.n) = value xs * value ys % groupOrder := by
  have hroom : c.n.length ≤ 2 ^ w := hc.nLength ▸ hc.room
  have hx' := hx.trans hc.nLength.symm
  have hy' := hy.trans hc.nLength.symm
  refine ⟨(vliModMult_length hc.pos.1 hroom hx' hy' hc.nTop).trans hc.nLength, ?_⟩
  rw [vliModMult_value hc.pos.1 hroom hx' hy' hc.nTop, hc.nValue]

/-- The inverse modulo the order. -/
theorem modInv_order (hc : IsSecp256k1 c) (hs : s.length = c.numWords) (hpos : 0 < value s)
    (hlt : value s < groupOrder) :
    (vliModInv s c.n).length = c.numWords ∧
      (value (vliModInv s c.n) : ZMod groupOrder) = (value s : ZMod groupOrder)⁻¹ := by
  have hodd : value c.n % 2 = 1 := by
    rw [hc.nValue]
    exact groupOrder_odd
  have hone : 1 < value c.n := by
    rw [hc.nValue]
    exact groupOrder_prime.one_lt
  obtain ⟨hlength, -, hcongr⟩ := vliModInv_quotient (hs.trans hc.nLength.symm) hodd hone
    (Nat.ne_of_gt hpos)
  have hcoprime : (value s).gcd groupOrder = 1 :=
    Nat.Coprime.symm ((Nat.Prime.coprime_iff_not_dvd groupOrder_prime).mpr
      (Nat.not_dvd_of_pos_of_lt hpos hlt))
  rw [hc.nValue, hcoprime, ← ZMod.natCast_eq_natCast_iff, Nat.cast_mul, Nat.cast_one] at hcongr
  exact ⟨hlength.trans hc.nLength, eq_inv_of_mul_eq_one_left hcongr⟩

/-- The code's quotient. -/
theorem modMult_modInv (hc : IsSecp256k1 c) (hx : xs.length = c.numWords)
    (hs : s.length = c.numWords) (hpos : 0 < value s) (hlt : value s < groupOrder) :
    (vliModMult xs (vliModInv s c.n) c.n).length = c.numWords ∧
      value (vliModMult xs (vliModInv s c.n) c.n) = quotient (value xs) (value s) := by
  obtain ⟨hlength, hinv⟩ := modInv_order hc hs hpos hlt
  obtain ⟨hlength', hvalue⟩ := modMult_order hc hx hlength
  refine ⟨hlength', ?_⟩
  rw [hvalue, quotient, div_eq_mul_inv, ← hinv, ← Nat.cast_mul, ZMod.val_natCast]

theorem quotient_pos {r s : Nat} (h : InRange r s) : 0 < quotient r s := by
  have hne : ∀ {a : Nat}, 0 < a → a < groupOrder → (a : ZMod groupOrder) ≠ 0 := by
    intro a hpos hlt hzero
    rw [ZMod.natCast_eq_zero_iff] at hzero
    exact Nat.not_dvd_of_pos_of_lt hpos hlt hzero
  obtain ⟨⟨hr, hrlt⟩, hs, hslt⟩ := h
  rw [quotient, Nat.pos_iff_ne_zero, Ne, ZMod.val_eq_zero, div_eq_zero_iff, not_or]
  exact ⟨hne hr hrlt, hne hs hslt⟩

end Order

/-! ## The verification -/

section Verify

variable {c : Curve w} {publicKey messageHash signature : List UInt8} {Q : Secp}

theorem bits2int_spec (hc : IsSecp256k1 c) (bits : List UInt8) :
    (bits2int c bits).length = c.numWords ∧ value (bits2int c bits) = hashNumber bits := by
  have hle := List.length_take_le 32 bits
  have hfits : (bits.take 32).length * 8 ≤ 256 := by omega
  simp only [bits2int, hc.numNBits, show (256 + 7) / 8 = 32 from rfl, if_pos hfits]
  exact bytesToNative_number hc hle

/-- What is left of the first coordinate modulo the order. -/
theorem reduceX (hc : IsSecp256k1 c) {xs : Vli w} (hlen : xs.length = c.numWords)
    (hlt : value xs < fieldPrime) :
    (if vliCmpUnsafe c.n xs != 1 then (vliSub xs c.n).1 else xs).length = c.numWords ∧
      value (if vliCmpUnsafe c.n xs != 1 then (vliSub xs c.n).1 else xs) =
        value xs % groupOrder := by
  have hcmp := vliCmpUnsafe_eq_one_iff (hc.nLength.trans hlen.symm)
  have hdouble : fieldPrime < 2 * groupOrder := by decide +kernel
  rw [hc.nValue] at hcmp
  split
  · rename_i hne
    have hge : groupOrder ≤ value xs := by
      rw [bne_iff_ne, Ne, hcmp] at hne
      omega
    rw [vliSub_length (hlen.trans hc.nLength.symm),
      vliSub_value_of_le (hlen.trans hc.nLength.symm) (by rw [hc.nValue]; exact hge), hc.nValue,
      Nat.mod_eq_sub_mod hge, Nat.mod_eq_of_lt (by omega)]
    exact ⟨hlen, rfl⟩
  · rename_i heq
    rw [bne_iff_ne, not_not, hcmp] at heq
    exact ⟨hlen, (Nat.mod_eq_of_lt heq).symm⟩

theorem inRange_iff (hc : IsSecp256k1 c) {r s : Vli w} (hr : r.length = c.numWords)
    (hs : s.length = c.numWords) :
    InRange (value r) (value s) ↔ ¬(vliIsZero r || vliIsZero s) = true ∧
      ¬(vliCmpUnsafe c.n r != 1 || vliCmpUnsafe c.n s != 1) = true := by
  rw [Bool.or_eq_true, Bool.or_eq_true, bne_iff_ne, bne_iff_ne, vliIsZero_iff, vliIsZero_iff, Ne,
    vliCmpUnsafe_eq_one_iff (hc.nLength.trans hr.symm), Ne,
    vliCmpUnsafe_eq_one_iff (hc.nLength.trans hs.symm), hc.nValue, InRange]
  omega

/-- The code and the equation agree on every run whose additions apply; it rejects the others. -/
theorem verify_spec (hc : IsSecp256k1 c) (hQ : Encodes publicKey Q)
    (hne : Q ≠ basePoint) (hneg : Q ≠ -basePoint) :
    Ensures Exact (verify c publicKey messageHash signature) fun v =>
      v = 1 ↔ Accepts Q (hashNumber messageHash) (signatureR signature) (signatureS signature) ∧
        RegularRun Q (hashNumber messageHash) (signatureR signature) (signatureS signature) := by
  rw [encodes_iff hc] at hQ
  obtain ⟨hr, hrvalue⟩ := bytesToNative_number hc (List.length_take_le 32 signature)
  obtain ⟨hs, hsvalue⟩ := bytesToNative_number hc (List.length_take_le 32 (signature.drop 32))
  obtain ⟨he, hevalue⟩ := bits2int_spec hc messageHash
  have hrange := inRange_iff hc hr hs
  unfold verify
  simp only [hc.numBytes]
  generalize bytesToNative (vliClear w c.numWords) (signature.take 32) = r at *
  generalize bytesToNative (vliClear w c.numWords) ((signature.drop 32).take 32) = s at *
  generalize bits2int c messageHash = e at *
  rw [signatureR, signatureS, ← hrvalue, ← hsvalue, ← hevalue]
  -- both checks of the numbers
  by_cases hzero : (vliIsZero r || vliIsZero s) = true
  · rw [if_pos hzero]
    exact ensures_pure ⟨fun h => absurd h (by decide), fun h => absurd hzero (hrange.mp h.1.1).1⟩
  rw [if_neg hzero]
  by_cases hlt : (vliCmpUnsafe c.n r != 1 || vliCmpUnsafe c.n s != 1) = true
  · rw [if_pos hlt]
    exact ensures_pure ⟨fun h => absurd h (by decide), fun h => absurd hlt (hrange.mp h.1.1).2⟩
  rw [if_neg hlt]
  have hin := hrange.mpr ⟨hzero, hlt⟩
  obtain ⟨hu1, hu1value⟩ := modMult_modInv hc he hs hin.2.1 hin.2.2
  obtain ⟨hu2, hu2value⟩ := modMult_modInv hc hr hs hin.2.1 hin.2.2
  generalize vliModMult e (vliModInv s c.n) c.n = u1 at *
  generalize vliModMult r (vliModInv s c.n) c.n = u2 at *
  have hpos : 0 < max (value u1).size (value u2).size :=
    lt_max_of_lt_right (Nat.size_pos.mpr (hu2value ▸ quotient_pos hin))
  refine (sumWithBase_spec hc hQ hne hneg).bind fun sum hsum => ?_
  refine (shamir_spec hc ⟨hQ, hsum⟩ hpos).bind fun R hR => ensures_pure ?_
  rw [hu1value, hu2value] at hR
  obtain ⟨hreg, hpoint⟩ | ⟨hirreg, hx⟩ := hR
  · obtain ⟨X, Y, hXY, hrep, hsumPoint⟩ := hpoint.affine
    obtain ⟨hlen, hvalue⟩ := reduceX hc hrep.x.length hrep.x.lt
    rw [← hrep.x.val] at hvalue
    generalize (if vliCmpUnsafe c.n R.x != 1 then (vliSub R.x c.n).1 else R.x) = rx at *
    have haccept : Accepts Q (value e) (value r) (value s) ↔ X.val % groupOrder = value r := by
      constructor
      · rintro ⟨-, X', Y', hXY', hA, hmod⟩
        rw [hsumPoint, WeierstrassCurve.Affine.Point.some.injEq] at hA
        rw [hA.1]
        exact hmod
      · exact fun hmod => ⟨hin, X, Y, hXY, hsumPoint, hmod⟩
    have hequal := vliEqual_iff (hlen.trans hr.symm)
    split
    · rename_i heq
      refine ⟨fun _ => ⟨haccept.mpr ?_, hreg⟩, fun _ => rfl⟩
      rw [← hvalue, hequal.mp heq]
    · rename_i hdiff
      refine ⟨fun h => absurd h (by decide), fun h => absurd (hequal.mpr ?_) hdiff⟩
      exact value_inj (hlen.trans hr.symm) (hvalue.trans (haccept.mp h.1))
  · obtain ⟨hlen, hvalue⟩ := reduceX hc hx.length hx.lt
    have hrpos := hin.1.1
    rw [← hx.val, ZMod.val_zero, Nat.zero_mod] at hvalue
    generalize (if vliCmpUnsafe c.n R.x != 1 then (vliSub R.x c.n).1 else R.x) = rx at *
    rw [if_neg]
    · exact ⟨fun h => absurd h (by decide), fun h => absurd h.2 hirreg⟩
    · rw [vliEqual_iff (hlen.trans hr.symm)]
      intro heq
      rw [heq] at hvalue
      omega

end Verify

end PrplHypervisor.UEcc
