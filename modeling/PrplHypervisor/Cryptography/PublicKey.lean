import PrplHypervisor.Cryptography.EccPoint
import PrplHypervisor.Cryptography.NativeBytes

/-!
# Public keys (cryptography/uECC.c)

- `validPublicKey_spec`: the keys that are accepted are the points of the curve.
- `basePoint`: the point `curve->G`.
-/

namespace PrplHypervisor.UEcc

open Limbs Ledger JacobianPoint

variable {w : Nat}

/-- Both calls of `uECC_vli_bytesToNative` for a public key. -/
def bytesToPoint (c : Curve w) (publicKey : List UInt8) : EccPoint w :=
  { x := bytesToNative (vliClear w c.numWords) (publicKey.take c.numBytes)
    y := bytesToNative (vliClear w c.numWords) ((publicKey.drop c.numBytes).take c.numBytes) }

/-- Both calls of `uECC_vli_nativeToBytes` for a public key. -/
def pointToBytes (c : Curve w) (point : EccPoint w) : List UInt8 :=
  nativeToBytes c.numBytes point.x ++ nativeToBytes c.numBytes point.y

/-- `uECC_valid_point`. -/
def validPoint (c : Curve w) (point : EccPoint w) : Run Int := do
  if point.isZero then return 0
  if vliCmpUnsafe c.p point.x != 1 || vliCmpUnsafe c.p point.y != 1 then return 0
  let tmp1 ← modSquareFast c point.y
  let tmp2 ← xSide c point.x
  return if vliEqual tmp1 tmp2 then 1 else 0

/-- `uECC_valid_public_key`. -/
def validPublicKey (c : Curve w) (publicKey : List UInt8) : Run Int :=
  validPoint c (bytesToPoint c publicKey)

section Bytes

variable {c : Curve w} {bytes publicKey : List UInt8}

theorem IsSecp256k1.wordBytes (hc : IsSecp256k1 c) : w / 8 * c.numWords = 32 := by
  rw [Nat.div_mul_right_comm hc.word, hc.words]

/-- A full number in bytes. -/
theorem bytesToNative_number (hc : IsSecp256k1 c) (hbytes : bytes.length ≤ 32) :
    (bytesToNative (vliClear w c.numWords) bytes).length = c.numWords ∧
      value (bytesToNative (vliClear w c.numWords) bytes) = bigEndian bytes := by
  refine bytesToNative_clear hc.word hc.pos.1 ?_
  rw [hc.wordBytes]
  exact hbytes

theorem nativeToBytes_number (hc : IsSecp256k1 c) {native : Vli w}
    (hlen : native.length = c.numWords) :
    bigEndian (nativeToBytes c.numBytes native) = value native := by
  have hbound := value_lt native
  rw [hlen, hc.words] at hbound
  rw [bigEndian_nativeToBytes hc.word hc.pos.1 (by rw [hlen, hc.numBytes, hc.wordBytes]),
    hc.numBytes]
  exact Nat.mod_eq_of_lt (hbound.trans_eq (by decide))

theorem bytesToPoint_length (hc : IsSecp256k1 c) :
    (bytesToPoint c publicKey).x.length = c.numWords ∧
      (bytesToPoint c publicKey).y.length = c.numWords := by
  refine ⟨(bytesToNative_number hc ?_).1, (bytesToNative_number hc ?_).1⟩
  · rw [hc.numBytes]
    exact List.length_take_le 32 _
  · rw [hc.numBytes]
    exact List.length_take_le 32 _

/-- A number comes back from its bytes. -/
theorem bytesToNative_nativeToBytes (hc : IsSecp256k1 c) {native : Vli w}
    (hlen : native.length = c.numWords) :
    bytesToNative (vliClear w c.numWords) (nativeToBytes c.numBytes native) = native := by
  have hbytes := (nativeToBytes_length c.numBytes native).trans hc.numBytes
  obtain ⟨hlength, hvalue⟩ := bytesToNative_number hc (Nat.le_of_eq hbytes)
  exact value_inj (hlength.trans hlen.symm) (hvalue.trans (nativeToBytes_number hc hlen))

theorem bytesToPoint_pointToBytes (hc : IsSecp256k1 c) {point : EccPoint w}
    (hx : point.x.length = c.numWords) (hy : point.y.length = c.numWords) :
    bytesToPoint c (pointToBytes c point) = point := by
  have hlength := nativeToBytes_length c.numBytes point.x
  have hylength := nativeToBytes_length c.numBytes point.y
  rw [bytesToPoint, pointToBytes, List.take_left' hlength, List.drop_left' hlength,
    List.take_of_length_le (Nat.le_of_eq hylength), bytesToNative_nativeToBytes hc hx,
    bytesToNative_nativeToBytes hc hy]

end Bytes

/-! ## Affine coordinates -/

section Affine

variable {c : Curve w} {P : EccPoint w} {x y : ZMod fieldPrime} {A : Secp}

theorem RepPoint.holds (h : RepPoint c P x y) (hxy : y ^ 2 = x ^ 3 + 7) :
    Holds c P 1 (.some x y (nonsingular_curve hxy)) :=
  ⟨x, y, h, represents_some _⟩

theorem Holds.affine (h : Holds c P 1 A) :
    ∃ X Y hXY, RepPoint c P X Y ∧ A = .some X Y hXY := by
  obtain ⟨x, y, hxy, -, X, Y, hXY, rfl, rfl, rfl⟩ := h
  exact ⟨X, Y, hXY, hxy.congr (by ring) (by ring), rfl⟩

/-- The words determine the point. -/
theorem Holds.unique {B : Secp} (hA : Holds c P 1 A) (hB : Holds c P 1 B) : A = B := by
  obtain ⟨X, Y, hXY, hP, rfl⟩ := hA.affine
  obtain ⟨X', Y', hXY', hP', rfl⟩ := hB.affine
  have hX : X = X' := hP.x.cast.symm.trans hP'.x.cast
  have hY : Y = Y' := hP.y.cast.symm.trans hP'.y.cast
  subst hX hY
  rfl

/-- Accepted are the points of the curve, in reduced coordinates. -/
theorem validPoint_spec (hc : IsSecp256k1 c) (hx : P.x.length = c.numWords)
    (hy : P.y.length = c.numWords) :
    Ensures Exact (validPoint c P) fun v => v = 1 ↔ ∃ A, Holds c P 1 A := by
  unfold validPoint
  by_cases hzero : P.isZero = true
  · rw [if_pos hzero]
    refine ensures_pure ⟨fun h => absurd h (by decide), fun ⟨A, hA⟩ => ?_⟩
    obtain ⟨X, Y, hXY, hP, rfl⟩ := hA.affine
    have hvalue := (vliIsZero_iff _).mp hzero
    rw [value_append, Nat.add_eq_zero_iff, mul_eq_zero,
      or_iff_right (Nat.ne_of_gt (Nat.two_pow_pos _))] at hvalue
    have hY : Y = 0 := by rw [← hP.y.cast, hvalue.2, Nat.cast_zero]
    exact absurd hY (y_ne_zero hXY.1)
  rw [if_neg hzero]
  by_cases hlt : (vliCmpUnsafe c.p P.x != 1 || vliCmpUnsafe c.p P.y != 1) = true
  · rw [if_pos hlt]
    refine ensures_pure ⟨fun h => absurd h (by decide), fun ⟨A, hA⟩ => ?_⟩
    obtain ⟨X, Y, hXY, hP, rfl⟩ := hA.affine
    rw [Bool.or_eq_true, bne_iff_ne, bne_iff_ne, Ne,
      vliCmpUnsafe_eq_one_iff (hc.pLength.trans hx.symm), Ne,
      vliCmpUnsafe_eq_one_iff (hc.pLength.trans hy.symm), hc.pValue] at hlt
    exact absurd ⟨hP.x.lt, hP.y.lt⟩ (not_and_or.mpr hlt)
  rw [if_neg hlt]
  rw [Bool.or_eq_true, bne_iff_ne, bne_iff_ne, Ne,
    vliCmpUnsafe_eq_one_iff (hc.pLength.trans hx.symm), Ne,
    vliCmpUnsafe_eq_one_iff (hc.pLength.trans hy.symm), hc.pValue, not_or, not_not, not_not] at hlt
  have hP : RepPoint c P (value P.x) (value P.y) := ⟨⟨hx, hlt.1, rfl⟩, hy, hlt.2, rfl⟩
  refine (hP.y.square hc).bind fun tmp1 h1 => ?_
  refine (hP.x.xSide hc).bind fun tmp2 h2 => ensures_pure ?_
  have hequal := h1.equal h2
  rw [← pow_two] at hequal
  split
  · rename_i heq
    exact ⟨fun _ => ⟨_, hP.holds (hequal.mp heq)⟩, fun _ => rfl⟩
  · rename_i hne
    refine ⟨fun h => absurd h (by decide), fun ⟨A, hA⟩ => absurd (hequal.mpr ?_) hne⟩
    obtain ⟨X, Y, hXY, hP', rfl⟩ := hA.affine
    rw [← (equation_curve _ _ _), hP.x.cast.symm.trans hP'.x.cast,
      hP.y.cast.symm.trans hP'.y.cast]
    exact hXY.1

/-- A public key is a point of the curve in two reduced coordinates. -/
def Encodes (publicKey : List UInt8) (A : Secp) : Prop :=
  ∃ X Y h, A = .some X Y h ∧ bigEndian (publicKey.take 32) = X.val ∧
    bigEndian ((publicKey.drop 32).take 32) = Y.val

theorem Encodes.unique {publicKey : List UInt8} {B : Secp} (h : Encodes publicKey A)
    (h' : Encodes publicKey B) : A = B := by
  obtain ⟨X, Y, hXY, rfl, hX, hY⟩ := h
  obtain ⟨X', Y', hXY', rfl, hX', hY'⟩ := h'
  obtain rfl := ZMod.val_injective _ (hX.symm.trans hX')
  obtain rfl := ZMod.val_injective _ (hY.symm.trans hY')
  rfl

theorem encodes_iff (hc : IsSecp256k1 c) (publicKey : List UInt8) :
    Encodes publicKey A ↔ Holds c (bytesToPoint c publicKey) 1 A := by
  obtain ⟨hx, hxvalue⟩ := bytesToNative_number hc (List.length_take_le 32 publicKey)
  obtain ⟨hy, hyvalue⟩ := bytesToNative_number hc (List.length_take_le 32 (publicKey.drop 32))
  rw [bytesToPoint, hc.numBytes, Encodes, ← hxvalue, ← hyvalue]
  constructor
  · rintro ⟨X, Y, hXY, rfl, hX, hY⟩
    refine ⟨X, Y, ⟨⟨hx, ?_, ?_⟩, hy, ?_, ?_⟩, represents_some hXY⟩
    · exact hX.trans_lt (ZMod.val_lt X)
    · exact (congrArg Nat.cast hX).trans (ZMod.natCast_zmod_val X)
    · exact hY.trans_lt (ZMod.val_lt Y)
    · exact (congrArg Nat.cast hY).trans (ZMod.natCast_zmod_val Y)
  · intro h
    obtain ⟨X, Y, hXY, hP, hA⟩ := h.affine
    exact ⟨X, Y, hXY, hA, hP.x.val.symm, hP.y.val.symm⟩

theorem pointToBytes_length (hc : IsSecp256k1 c) (point : EccPoint w) :
    (pointToBytes c point).length = 64 := by
  rw [pointToBytes, List.length_append, nativeToBytes_length, nativeToBytes_length, hc.numBytes]

/-- The bytes of a point encode it. -/
theorem Holds.encodes (hc : IsSecp256k1 c) (h : Holds c P 1 A) : Encodes (pointToBytes c P) A := by
  obtain ⟨X, Y, hXY, hP, -⟩ := h.affine
  rw [encodes_iff hc, bytesToPoint_pointToBytes hc hP.x.length hP.y.length]
  exact h

theorem validPublicKey_spec (hc : IsSecp256k1 c) (publicKey : List UInt8) :
    Ensures Exact (validPublicKey c publicKey) fun v => v = 1 ↔ ∃ A, Encodes publicKey A := by
  refine (validPoint_spec hc (bytesToPoint_length hc).1 (bytesToPoint_length hc).2).mono ?_
  intro v hv
  simp only [hv, encodes_iff hc]

/-! ## The base point -/

theorem base_equation : ((baseY : ZMod fieldPrime)) ^ 2 = (baseX : ZMod fieldPrime) ^ 3 + 7 := by
  have hmod : baseY ^ 2 ≡ baseX ^ 3 + 7 [MOD fieldPrime] := by
    rw [Nat.ModEq]
    decide +kernel
  rw [← ZMod.natCast_eq_natCast_iff] at hmod
  push_cast at hmod
  exact hmod

theorem base_nonsingular :
    (curve (7 : ZMod fieldPrime)).Nonsingular (baseX : ZMod fieldPrime) baseY :=
  nonsingular_curve base_equation

def basePoint : Secp := .some baseX baseY base_nonsingular

theorem base_holds (hc : IsSecp256k1 c) : Holds c c.base 1 basePoint := by
  have hgLength := hc.gLength
  refine RepPoint.holds ⟨⟨?_, ?_, ?_⟩, ?_, ?_, ?_⟩ base_equation
  · exact List.length_take_of_le (by omega)
  · exact hc.gxValue.trans_lt (by decide +kernel)
  · exact congrArg Nat.cast hc.gxValue
  · exact (List.length_drop ..).trans (by omega)
  · exact hc.gyValue.trans_lt (by decide +kernel)
  · exact congrArg Nat.cast hc.gyValue

end Affine

end PrplHypervisor.UEcc
