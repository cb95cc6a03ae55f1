import PrplHypervisor.Cryptography.Signing

/-!
# Words of two sizes (cryptography/uECC.c)

The tools on the host compute with words of 64 bits, the hypervisor with words of 32 bits. Every
step reduces the same product and leaves the same number, also where the number is not the
remainder of the product.

- `Same`: the words of one field element in both sizes.
- `verify_agree`, `computePublicKey_agree`: both builds give the same answer.
-/

namespace PrplHypervisor.UEcc

open Limbs Ledger

variable {w w' : Nat}

/-- The curve in words of both sizes. -/
structure BothSecp256k1 (c : Curve w) (c' : Curve w') : Prop where
  left : IsSecp256k1 c
  right : IsSecp256k1 c'

/-! ## Numbers -/

/-- The words of one number. -/
structure SameNumber (c : Curve w) (c' : Curve w') (xs : Vli w) (xs' : Vli w') : Prop where
  left : xs.length = c.numWords
  right : xs'.length = c'.numWords
  value : value xs = value xs'

/-- The words of one field element. -/
def Same (c : Curve w) (c' : Curve w') (xs : Vli w) (xs' : Vli w') : Prop :=
  ∃ x, Rep c xs x ∧ Rep c' xs' x

section Numbers

variable {c : Curve w} {c' : Curve w'} {xs ys : Vli w} {xs' ys' : Vli w'}

theorem SameNumber.isZero (h : SameNumber c c' xs xs') : vliIsZero xs = vliIsZero xs' := by
  rw [Bool.eq_iff_iff, vliIsZero_iff, vliIsZero_iff, h.value]

theorem SameNumber.testBit (hc : BothSecp256k1 c c') (h : SameNumber c c' xs xs') (i : Nat) :
    vliTestBit xs i = vliTestBit xs' i := by
  rw [vliTestBit_eq hc.left.pos.1, vliTestBit_eq hc.right.pos.1, h.value]

theorem SameNumber.numBits (h : SameNumber c c' xs xs') : vliNumBits xs = vliNumBits xs' := by
  rw [vliNumBits_eq, vliNumBits_eq, h.value]

theorem SameNumber.cmpUnsafe (hx : SameNumber c c' xs xs') (hy : SameNumber c c' ys ys') :
    vliCmpUnsafe xs ys = vliCmpUnsafe xs' ys' := by
  rw [vliCmpUnsafe_eq (hx.left.trans hy.left.symm), vliCmpUnsafe_eq (hx.right.trans hy.right.symm),
    hx.value, hy.value]

theorem SameNumber.cmp (hx : SameNumber c c' xs xs') (hy : SameNumber c c' ys ys') :
    vliCmp xs ys = vliCmp xs' ys' := by
  rw [vliCmp_eq (hx.left.trans hy.left.symm), vliCmp_eq (hx.right.trans hy.right.symm),
    hx.value, hy.value]

theorem SameNumber.equal (hx : SameNumber c c' xs xs') (hy : SameNumber c c' ys ys') :
    vliEqual xs ys = vliEqual xs' ys' := by
  have hlen := hx.left.trans hy.left.symm
  have hlen' := hx.right.trans hy.right.symm
  have hinj : xs = ys ↔ Limbs.value xs = Limbs.value ys := ⟨congrArg _, value_inj hlen⟩
  have hinj' : xs' = ys' ↔ Limbs.value xs' = Limbs.value ys' := ⟨congrArg _, value_inj hlen'⟩
  rw [Bool.eq_iff_iff, vliEqual_iff hlen, vliEqual_iff hlen', hinj, hinj', hx.value, hy.value]

theorem Same.number (h : Same c c' xs xs') : SameNumber c c' xs xs' := by
  obtain ⟨x, hx, hx'⟩ := h
  exact ⟨hx.length, hx'.length, hx.val.symm.trans hx'.val⟩

theorem SameNumber.reduced (h : SameNumber c c' xs xs') (hlt : Limbs.value xs < fieldPrime) :
    Same c c' xs xs' :=
  ⟨Limbs.value xs, ⟨h.left, hlt, rfl⟩, h.right, h.value ▸ hlt, by rw [h.value]⟩

theorem BothSecp256k1.p (hc : BothSecp256k1 c c') : SameNumber c c' c.p c'.p :=
  ⟨hc.left.pLength, hc.right.pLength, hc.left.pValue.trans hc.right.pValue.symm⟩

theorem BothSecp256k1.n (hc : BothSecp256k1 c c') : SameNumber c c' c.n c'.n :=
  ⟨hc.left.nLength, hc.right.nLength, hc.left.nValue.trans hc.right.nValue.symm⟩

theorem bytesToNative_same (hc : BothSecp256k1 c c') {bytes : List UInt8}
    (hbytes : bytes.length ≤ 32) :
    SameNumber c c' (bytesToNative (vliClear w c.numWords) bytes)
      (bytesToNative (vliClear w' c'.numWords) bytes) := by
  obtain ⟨hlen, hvalue⟩ := bytesToNative_number hc.left hbytes
  obtain ⟨hlen', hvalue'⟩ := bytesToNative_number hc.right hbytes
  exact ⟨hlen, hlen', hvalue.trans hvalue'.symm⟩

theorem nativeToBytes_same (hc : BothSecp256k1 c c') (h : SameNumber c c' xs xs') :
    nativeToBytes c.numBytes xs = nativeToBytes c'.numBytes xs' := by
  refine bigEndian_inj ?_ ?_
  · rw [nativeToBytes_length, nativeToBytes_length, hc.left.numBytes, hc.right.numBytes]
  · rw [nativeToBytes_number hc.left h.left, nativeToBytes_number hc.right h.right, h.value]

end Numbers

/-! ## Field elements -/

section Field

variable {c : Curve w} {c' : Curve w'} {xs ys : Vli w} {xs' ys' : Vli w'}

theorem Same.add (hc : BothSecp256k1 c c') (hx : Same c c' xs xs') (hy : Same c c' ys ys') :
    Same c c' (vliModAdd xs ys c.p) (vliModAdd xs' ys' c'.p) := by
  obtain ⟨x, hx, hx'⟩ := hx
  obtain ⟨y, hy, hy'⟩ := hy
  exact ⟨x + y, hx.add hc.left hy, hx'.add hc.right hy'⟩

theorem Same.sub (hc : BothSecp256k1 c c') (hx : Same c c' xs xs') (hy : Same c c' ys ys') :
    Same c c' (vliModSub xs ys c.p) (vliModSub xs' ys' c'.p) := by
  obtain ⟨x, hx, hx'⟩ := hx
  obtain ⟨y, hy, hy'⟩ := hy
  exact ⟨x - y, hx.sub hc.left hy, hx'.sub hc.right hy'⟩

theorem Same.inv (hc : BothSecp256k1 c c') (hx : Same c c' xs xs') :
    Same c c' (vliModInv xs c.p) (vliModInv xs' c'.p) := by
  obtain ⟨x, hx, hx'⟩ := hx
  exact ⟨x⁻¹, hx.inv hc.left, hx'.inv hc.right⟩

theorem Same.half (hc : BothSecp256k1 c c') (hx : Same c c' xs xs') :
    Same c c' (halfMod c xs) (halfMod c' xs') := by
  obtain ⟨x, hx, hx'⟩ := hx
  exact ⟨x / 2, hx.half hc.left, hx'.half hc.right⟩

theorem same_one (hc : BothSecp256k1 c c') :
    Same c c' ((vliClear w c.numWords).set 0 1) ((vliClear w' c'.numWords).set 0 1) :=
  ⟨1, rep_one hc.left, rep_one hc.right⟩

/-- The product and the number that is left of it, also where it is missed. -/
theorem Rep.mul_words (hc : IsSecp256k1 c) {x y : ZMod fieldPrime} (hx : Rep c xs x)
    (hy : Rep c ys y) :
    value (vliMult xs ys) = x.val * y.val ∧
      Rep c (c.mmodFast (vliMult xs ys)) ((reduced (folded (x.val * y.val)) : Nat)) := by
  have hlen := hx.length.trans hy.length.symm
  have hpos : 0 < xs.length := hx.length ▸ hc.pos.2
  have hroom : xs.length ≤ 2 ^ w := hx.length ▸ hc.room
  have hproduct := vliMult_value hlen hpos hroom
  have hsize : (vliMult xs ys).length = 2 * c.numWords := by
    rw [vliMult_length hlen hpos hroom, hx.length]
  obtain ⟨hlength, hvalue⟩ := hc.mmodFast _ hsize
  obtain ⟨hne, hne'⟩ := folded_mul_ne hx.lt hy.lt
  have hfolded := folded_lt (product_lt hc.words hsize)
  rw [hproduct] at hvalue hfolded ⊢
  rw [hx.val, hy.val]
  exact ⟨rfl, hlength, hvalue ▸ reduced_lt hfolded hne hne', congrArg Nat.cast hvalue⟩

theorem Same.mul (hc : BothSecp256k1 c c') (hx : Same c c' xs xs') (hy : Same c c' ys ys') :
    Agree (Same c c') (modMultFast c xs ys) (modMultFast c' xs' ys') := by
  obtain ⟨x, hx, hx'⟩ := hx
  obtain ⟨y, hy, hy'⟩ := hy
  obtain ⟨hproduct, hresult⟩ := hx.mul_words hc.left hy
  obtain ⟨hproduct', hresult'⟩ := hx'.mul_words hc.right hy'
  exact agree_note (hproduct.trans hproduct'.symm) (agree_pure ⟨_, hresult, hresult'⟩)

theorem Same.square (hc : BothSecp256k1 c c') (hx : Same c c' xs xs') :
    Agree (Same c c') (modSquareFast c xs) (modSquareFast c' xs') := hx.mul hc hx

end Field

/-! ## Points -/

/-- The words of one pair of field elements. -/
structure SamePoint (c : Curve w) (c' : Curve w') (P : EccPoint w) (P' : EccPoint w') : Prop where
  x : Same c c' P.x P'.x
  y : Same c c' P.y P'.y

/-- Two points in both sizes. -/
structure SamePoints (c : Curve w) (c' : Curve w') (R : EccPoint w × EccPoint w)
    (R' : EccPoint w' × EccPoint w') : Prop where
  fst : SamePoint c c' R.1 R'.1
  snd : SamePoint c c' R.2 R'.2

/-- A point and its denominator in both sizes. -/
structure SameState (c : Curve w) (c' : Curve w') (s : EccPoint w × Vli w)
    (s' : EccPoint w' × Vli w') : Prop where
  point : SamePoint c c' s.1 s'.1
  z : Same c c' s.2 s'.2

section Points

variable {c : Curve w} {c' : Curve w'} {P Q : EccPoint w} {P' Q' : EccPoint w'}
variable {Z xs : Vli w} {Z' xs' : Vli w'}

theorem EccPoint.isZero_same (hx : SameNumber c c' P.x P'.x) (hy : SameNumber c c' P.y P'.y) :
    P.isZero = P'.isZero := by
  have happend : ∀ {w : Nat} (P : EccPoint w),
      P.isZero = true ↔ value P.x = 0 ∧ value P.y = 0 := by
    intro w P
    rw [EccPoint.isZero, vliIsZero_iff, value_append, Nat.add_eq_zero_iff, mul_eq_zero,
      or_iff_right (Nat.ne_of_gt (Nat.two_pow_pos _))]
  rw [Bool.eq_iff_iff, happend, happend, hx.value, hy.value]

theorem base_same (hc : BothSecp256k1 c c') : SamePoint c c' c.base c'.base := by
  obtain ⟨x, y, h, hXY⟩ := base_holds hc.left
  obtain ⟨x', y', h', hXY'⟩ := base_holds hc.right
  obtain ⟨rfl, rfl⟩ := hXY.unique hXY'
  exact ⟨⟨x, h.x, h'.x⟩, y, h.y, h'.y⟩

theorem applyZ_same (hc : BothSecp256k1 c c') (hP : SamePoint c c' P P') (hZ : Same c c' Z Z') :
    Agree (SamePoint c c') (applyZ c P Z) (applyZ c' P' Z') := by
  unfold applyZ
  refine (hZ.square hc).bind fun t1 t1' ht1 => ?_
  refine (hP.x.mul hc ht1).bind fun X1 X1' hX1 => ?_
  refine (ht1.mul hc hZ).bind fun t1 t1' ht1 => ?_
  refine (hP.y.mul hc ht1).bind fun Y1 Y1' hY1 => ?_
  exact agree_pure ⟨hX1, hY1⟩

theorem doubleJacobian_same (hc : BothSecp256k1 c c') (hP : SamePoint c c' P P')
    (hZ : Same c c' Z Z') :
    Agree (SameState c c') (doubleJacobian c P Z) (doubleJacobian c' P' Z') := by
  unfold doubleJacobian
  rw [hZ.number.isZero]
  by_cases hzero : vliIsZero Z' = true
  · rw [if_pos hzero, if_pos hzero]
    exact agree_pure ⟨hP, hZ⟩
  rw [if_neg hzero, if_neg hzero]
  refine (hP.y.square hc).bind fun t5 t5' ht5 => ?_
  refine (hP.x.mul hc ht5).bind fun t4 t4' ht4 => ?_
  refine (hP.x.square hc).bind fun X1 X1' hX1 => ?_
  refine (ht5.square hc).bind fun t5 t5' ht5 => ?_
  refine (hP.y.mul hc hZ).bind fun Z1 Z1' hZ1 => ?_
  have hB := ((hX1.add hc hX1).add hc hX1).half hc
  refine (hB.square hc).bind fun X1 X1' hX1 => ?_
  have hX3 := (hX1.sub hc ht4).sub hc ht4
  refine (hB.mul hc (ht4.sub hc hX3)).bind fun Y1 Y1' hY1 => ?_
  exact agree_pure ⟨⟨hX3, hY1.sub hc ht5⟩, hZ1⟩

theorem xSide_same (hc : BothSecp256k1 c c') (hx : Same c c' xs xs') :
    Agree (Same c c') (xSide c xs) (xSide c' xs') := by
  have hb : SameNumber c c' c.b c'.b :=
    ⟨hc.left.bLength, hc.right.bLength, hc.left.bValue.trans hc.right.bValue.symm⟩
  have hlt : value c.b < fieldPrime := by
    rw [hc.left.bValue]
    decide +kernel
  unfold xSide
  refine (hx.square hc).bind fun r r' hr => ?_
  refine (hr.mul hc hx).bind fun r r' hr => ?_
  exact agree_pure (hr.add hc (hb.reduced hlt))

theorem xyczAdd_same (hc : BothSecp256k1 c c') (hP : SamePoint c c' P P')
    (hQ : SamePoint c c' Q Q') :
    Agree (SamePoints c c') (xyczAdd c P Q) (xyczAdd c' P' Q') := by
  unfold xyczAdd
  refine ((hQ.x.sub hc hP.x).square hc).bind fun t5 t5' hA => ?_
  refine (hP.x.mul hc hA).bind fun X1 X1' hX1 => ?_
  refine (hQ.x.mul hc hA).bind fun X2 X2' hX2 => ?_
  have hdy := hQ.y.sub hc hP.y
  refine (hdy.square hc).bind fun t5 t5' hD => ?_
  have hX3 := (hD.sub hc hX1).sub hc hX2
  refine (hP.y.mul hc (hX2.sub hc hX1)).bind fun Y1 Y1' hY1 => ?_
  refine (hdy.mul hc (hX1.sub hc hX3)).bind fun Y2 Y2' hY2 => ?_
  exact agree_pure ⟨⟨hX1, hY1⟩, hX3, hY2.sub hc hY1⟩

theorem xyczAddC_same (hc : BothSecp256k1 c c') (hP : SamePoint c c' P P')
    (hQ : SamePoint c c' Q Q') :
    Agree (SamePoints c c') (xyczAddC c P Q) (xyczAddC c' P' Q') := by
  unfold xyczAddC
  refine ((hQ.x.sub hc hP.x).square hc).bind fun t5 t5' hA => ?_
  refine (hP.x.mul hc hA).bind fun X1 X1' hX1 => ?_
  refine (hQ.x.mul hc hA).bind fun X2 X2' hX2 => ?_
  have hsy := hQ.y.add hc hP.y
  have hdy := hQ.y.sub hc hP.y
  refine (hP.y.mul hc (hX2.sub hc hX1)).bind fun Y1 Y1' hE => ?_
  have hsum := hX1.add hc hX2
  refine (hdy.square hc).bind fun X2 X2' hD => ?_
  have hX3 := hD.sub hc hsum
  refine (hdy.mul hc (hX1.sub hc hX3)).bind fun Y2 Y2' hY2 => ?_
  refine (hsy.square hc).bind fun t7 t7' hF => ?_
  have hX3' := hF.sub hc hsum
  refine ((hX3'.sub hc hX1).mul hc hsy).bind fun t6 t6' ht6 => ?_
  exact agree_pure ⟨⟨hX3', ht6.sub hc hE⟩, hX3, hY2.sub hc hE⟩

end Points

/-! ## Verification -/

section Verify

variable {c : Curve w} {c' : Curve w'} {P : EccPoint w} {P' : EccPoint w'}
variable {u1 u2 : Vli w} {u1' u2' : Vli w'}

/-- Both coordinates of a key are reduced. -/
def ReducedKey (publicKey : List UInt8) : Prop :=
  bigEndian (publicKey.take 32) < fieldPrime ∧
    bigEndian ((publicKey.drop 32).take 32) < fieldPrime

instance (publicKey : List UInt8) : Decidable (ReducedKey publicKey) :=
  inferInstanceAs (Decidable (_ ∧ _))

theorem bytesToPoint_same (hc : BothSecp256k1 c c') (publicKey : List UInt8) :
    SameNumber c c' (bytesToPoint c publicKey).x (bytesToPoint c' publicKey).x ∧
      SameNumber c c' (bytesToPoint c publicKey).y (bytesToPoint c' publicKey).y := by
  simp only [bytesToPoint, hc.left.numBytes, hc.right.numBytes]
  exact ⟨bytesToNative_same hc (List.length_take_le 32 publicKey),
    bytesToNative_same hc (List.length_take_le 32 (publicKey.drop 32))⟩

theorem ReducedKey.same (hc : BothSecp256k1 c c') {publicKey : List UInt8}
    (h : ReducedKey publicKey) :
    SamePoint c c' (bytesToPoint c publicKey) (bytesToPoint c' publicKey) := by
  obtain ⟨hx, hy⟩ := bytesToPoint_same hc publicKey
  have hxvalue := (bytesToNative_number hc.left (List.length_take_le 32 publicKey)).2
  have hyvalue := (bytesToNative_number hc.left (List.length_take_le 32 (publicKey.drop 32))).2
  refine ⟨hx.reduced ?_, hy.reduced ?_⟩
  · simp only [bytesToPoint, hc.left.numBytes, hxvalue]
    exact h.1
  · simp only [bytesToPoint, hc.left.numBytes, hyvalue]
    exact h.2

/-- Numbers that are not reduced are rejected before they are used. -/
theorem validPublicKey_agree (hc : BothSecp256k1 c c') (publicKey : List UInt8) :
    validPublicKey c publicKey = validPublicKey c' publicKey := by
  obtain ⟨hx, hy⟩ := bytesToPoint_same hc publicKey
  unfold validPublicKey
  generalize bytesToPoint c publicKey = P at *
  generalize bytesToPoint c' publicKey = P' at *
  refine Agree.eq ?_
  have hzero : P.isZero = P'.isZero := EccPoint.isZero_same hx hy
  unfold validPoint
  rw [hzero, hc.p.cmpUnsafe hx, hc.p.cmpUnsafe hy]
  split
  · exact agree_pure rfl
  split
  · exact agree_pure rfl
  rename_i hlt
  rw [Bool.or_eq_true, bne_iff_ne, bne_iff_ne, Ne,
    vliCmpUnsafe_eq_one_iff (hc.p.right.trans hx.right.symm), Ne,
    vliCmpUnsafe_eq_one_iff (hc.p.right.trans hy.right.symm), hc.right.pValue, not_or, not_not,
    not_not, ← hx.value, ← hy.value] at hlt
  refine ((hy.reduced hlt.2).square hc).bind fun tmp1 tmp1' h1 => ?_
  refine (xSide_same hc (hx.reduced hlt.1)).bind fun tmp2 tmp2' h2 => agree_pure ?_
  rw [h1.number.equal h2.number]

theorem sumWithBase_same (hc : BothSecp256k1 c c') (hpub : SamePoint c c' P P') :
    Agree (SamePoint c c') (sumWithBase c P) (sumWithBase c' P') := by
  unfold sumWithBase
  have hbase := base_same hc
  refine (xyczAdd_same hc hbase hpub).bind fun R R' hR => ?_
  exact applyZ_same hc hR.snd ((hpub.x.sub hc hbase.x).inv hc)

/-- The same point, or none on both sides. -/
def SameEntry (c : Curve w) (c' : Curve w') : Option (EccPoint w) → Option (EccPoint w') → Prop
  | none, none => True
  | some P, some P' => SamePoint c c' P P'
  | _, _ => False

theorem shamirPoints_same (hc : BothSecp256k1 c c') {sum : EccPoint w} {sum' : EccPoint w'}
    (hpub : SamePoint c c' P P') (hsum : SamePoint c c' sum sum') (index : Nat) :
    SameEntry c c' ((shamirPoints c P sum).getD index none)
      ((shamirPoints c' P' sum').getD index none) := by
  match index with
  | 0 => trivial
  | 1 => exact base_same hc
  | 2 => exact hpub
  | 3 => exact hsum
  | _ + 4 => trivial

theorem shamirIndex_same (hc : BothSecp256k1 c c') (h1 : SameNumber c c' u1 u1')
    (h2 : SameNumber c c' u2 u2') (i : Nat) : shamirIndex u1 u2 i = shamirIndex u1' u2' i := by
  rw [shamirIndex, shamirIndex, h1.testBit hc, h2.testBit hc]

theorem shamirRound_same (hc : BothSecp256k1 c c') {points : List (Option (EccPoint w))}
    {points' : List (Option (EccPoint w'))} {i : Nat} {s : EccPoint w × Vli w}
    {s' : EccPoint w' × Vli w'}
    (hpoints : SameEntry c c' (points.getD (shamirIndex u1 u2 i) none)
      (points'.getD (shamirIndex u1' u2' i) none)) (hs : SameState c c' s s') :
    Agree (SameState c c') (shamirRound c points u1 u2 s i)
      (shamirRound c' points' u1' u2' s' i) := by
  unfold shamirRound
  refine (doubleJacobian_same hc hs.point hs.z).bind fun t t' ht => ?_
  cases hentry : points.getD (shamirIndex u1 u2 i) none with
  | none =>
    cases hentry' : points'.getD (shamirIndex u1' u2' i) none with
    | none => exact agree_pure ht
    | some T' =>
      rw [hentry, hentry'] at hpoints
      exact hpoints.elim
  | some T =>
    cases hentry' : points'.getD (shamirIndex u1' u2' i) none with
    | none =>
      rw [hentry, hentry'] at hpoints
      exact hpoints.elim
    | some T' =>
      rw [hentry, hentry'] at hpoints
      refine (applyZ_same hc hpoints ht.z).bind fun T T' hT => ?_
      refine (xyczAdd_same hc hT ht.point).bind fun R R' hR => ?_
      refine (ht.z.mul hc (ht.point.x.sub hc hT.x)).bind fun z z' hz => ?_
      exact agree_pure ⟨hR.snd, hz⟩

theorem shamir_same (hc : BothSecp256k1 c c') {sum : EccPoint w} {sum' : EccPoint w'}
    (hpub : SamePoint c c' P P') (hsum : SamePoint c c' sum sum') (h1 : SameNumber c c' u1 u1')
    (h2 : SameNumber c c' u2 u2') :
    Agree (SamePoint c c') (shamir c (shamirPoints c P sum) u1 u2)
      (shamir c' (shamirPoints c' P' sum') u1' u2') := by
  have hpoints := fun i => shamirPoints_same hc hpub hsum (shamirIndex u1' u2' i)
  have hindex := shamirIndex_same hc h1 h2
  unfold shamir
  simp only [h1.numBits, h2.numBits, hindex]
  generalize max (vliNumBits u1') (vliNumBits u2') - 1 = top
  have hfirst : SamePoint c c'
      (((shamirPoints c P sum).getD (shamirIndex u1' u2' top) none).getD c.base)
      (((shamirPoints c' P' sum').getD (shamirIndex u1' u2' top) none).getD c'.base) := by
    have hentry := hpoints top
    revert hentry
    cases (shamirPoints c P sum).getD (shamirIndex u1' u2' top) none <;>
      cases (shamirPoints c' P' sum').getD (shamirIndex u1' u2' top) none
    · exact fun _ => base_same hc
    · exact False.elim
    · exact False.elim
    · exact id
  have hround : ∀ i s s', SameState c c' s s' →
      Agree (SameState c c') (shamirRound c (shamirPoints c P sum) u1 u2 s i)
        (shamirRound c' (shamirPoints c' P' sum') u1' u2' s' i) := by
    intro i s s' hs
    refine shamirRound_same hc ?_ hs
    rw [hindex]
    exact hpoints i
  refine (agree_countdown hround ⟨hfirst, same_one hc⟩).bind fun s s' hs => ?_
  exact applyZ_same hc hs.point (hs.z.inv hc)

theorem quotient_same (hc : BothSecp256k1 c c') (h1 : SameNumber c c' u1 u1')
    (h2 : SameNumber c c' u2 u2') (hpos : 0 < value u2) (hlt : value u2 < groupOrder) :
    SameNumber c c' (vliModMult u1 (vliModInv u2 c.n) c.n)
      (vliModMult u1' (vliModInv u2' c'.n) c'.n) := by
  obtain ⟨hlen, hvalue⟩ := modMult_modInv hc.left h1.left h2.left hpos hlt
  obtain ⟨hlen', hvalue'⟩ := modMult_modInv hc.right h1.right h2.right (h2.value ▸ hpos)
    (h2.value ▸ hlt)
  exact ⟨hlen, hlen', by rw [hvalue, hvalue', h1.value, h2.value]⟩

/-- A key that was accepted is verified alike in both sizes, whatever the signature. -/
theorem verify_agree (hc : BothSecp256k1 c c') {publicKey : List UInt8}
    (hkey : ReducedKey publicKey) (messageHash signature : List UInt8) :
    verify c publicKey messageHash signature = verify c' publicKey messageHash signature := by
  have hpub := hkey.same hc
  have hr := bytesToNative_same hc (List.length_take_le 32 signature)
  have hs := bytesToNative_same hc (List.length_take_le 32 (signature.drop 32))
  have he : SameNumber c c' (bits2int c messageHash) (bits2int c' messageHash) := by
    obtain ⟨hlen, hvalue⟩ := bits2int_spec hc.left messageHash
    obtain ⟨hlen', hvalue'⟩ := bits2int_spec hc.right messageHash
    exact ⟨hlen, hlen', hvalue.trans hvalue'.symm⟩
  refine Agree.eq ?_
  unfold verify
  simp only [hc.left.numBytes, hc.right.numBytes]
  generalize bytesToNative (vliClear w c.numWords) (signature.take 32) = r at *
  generalize bytesToNative (vliClear w' c'.numWords) (signature.take 32) = r' at *
  generalize bytesToNative (vliClear w c.numWords) ((signature.drop 32).take 32) = s at *
  generalize bytesToNative (vliClear w' c'.numWords) ((signature.drop 32).take 32) = s' at *
  rw [hr.isZero, hs.isZero, hc.n.cmpUnsafe hr, hc.n.cmpUnsafe hs]
  by_cases hzero : (vliIsZero r' || vliIsZero s') = true
  · rw [if_pos hzero, if_pos hzero]
    exact agree_pure rfl
  rw [if_neg hzero, if_neg hzero]
  by_cases hlt : (vliCmpUnsafe c'.n r' != 1 || vliCmpUnsafe c'.n s' != 1) = true
  · rw [if_pos hlt, if_pos hlt]
    exact agree_pure rfl
  rw [if_neg hlt, if_neg hlt]
  obtain ⟨-, hpos, hbound⟩ := (inRange_iff hc.right hr.right hs.right).mpr ⟨hzero, hlt⟩
  rw [← hs.value] at hpos hbound
  have hu1 := quotient_same hc he hs hpos hbound
  have hu2 := quotient_same hc hr hs hpos hbound
  refine (sumWithBase_same hc hpub).bind fun sum sum' hsum => ?_
  refine (shamir_same hc hpub hsum hu1 hu2).bind fun R R' hR => agree_pure ?_
  obtain ⟨x, hx, hx'⟩ := hR.x
  obtain ⟨hlen, hvalue⟩ := reduceX hc.left hx.length hx.lt
  obtain ⟨hlen', hvalue'⟩ := reduceX hc.right hx'.length hx'.lt
  rw [← hx.val] at hvalue
  rw [← hx'.val] at hvalue'
  rw [SameNumber.equal ⟨hlen, hlen', hvalue.trans hvalue'.symm⟩ hr]

end Verify

/-! ## Public keys -/

section Keys

variable {c : Curve w} {c' : Curve w'} {P Q point : EccPoint w} {P' Q' point' : EccPoint w'}
variable {R : EccPoint w × EccPoint w} {R' : EccPoint w' × EccPoint w'}
variable {scalar k : Vli w} {scalar' k' : Vli w'}

theorem SamePoints.pick (h : SamePoints c c' R R') (index : Bool) :
    SamePoint c c' (pick index R) (pick index R') := by
  cases index
  · exact h.fst
  · exact h.snd

theorem SamePoint.place (hP : SamePoint c c' P P') (hQ : SamePoint c c' Q Q') (nb : Bool) :
    SamePoints c c' (place nb P Q) (place nb P' Q') := by
  cases nb
  · exact ⟨hP, hQ⟩
  · exact ⟨hQ, hP⟩

theorem ladderRound_same (hc : BothSecp256k1 c c') (hscalar : SameNumber c c' scalar scalar')
    (hR : SamePoints c c' R R') (i : Nat) :
    Agree (SamePoints c c') (ladderRound c scalar R i) (ladderRound c' scalar' R' i) := by
  unfold ladderRound
  rw [hscalar.testBit hc]
  refine (xyczAddC_same hc (hR.pick _) (hR.pick _)).bind fun S S' hS => ?_
  refine (xyczAdd_same hc hS.snd hS.fst).bind fun T T' hT => ?_
  exact agree_pure (hT.fst.place hT.snd _)

theorem finalZ_same (hc : BothSecp256k1 c c') (hpoint : SamePoint c c' point point')
    (hR : SamePoints c c' R R') (nb : Bool) :
    Agree (Same c c') (finalZ c point R nb) (finalZ c' point' R' nb) := by
  unfold finalZ
  refine ((hR.snd.x.sub hc hR.fst.x).mul hc (hR.pick _).y).bind fun z z' hz => ?_
  refine (hz.mul hc hpoint.x).bind fun z z' hz => ?_
  refine ((hz.inv hc).mul hc hpoint.y).bind fun z z' hz => ?_
  exact hz.mul hc (hR.pick _).x

theorem xyczInitialDouble_same (hc : BothSecp256k1 c c') (hpoint : SamePoint c c' point point') :
    Agree (SamePoints c c') (xyczInitialDouble c point none)
      (xyczInitialDouble c' point' none) := by
  unfold xyczInitialDouble
  have hone := same_one hc
  refine (applyZ_same hc hpoint hone).bind fun first first' hfirst => ?_
  refine (doubleJacobian_same hc hfirst hone).bind fun s s' hs => ?_
  refine (applyZ_same hc hpoint hs.z).bind fun second second' hsecond => ?_
  exact agree_pure ⟨hs.point, hsecond⟩

theorem eccPointMult_same (hc : BothSecp256k1 c c') (hpoint : SamePoint c c' point point')
    (hscalar : SameNumber c c' scalar scalar') (numBits : Nat) :
    Agree (SamePoint c c') (eccPointMult c point scalar none numBits)
      (eccPointMult c' point' scalar' none numBits) := by
  have hround : ∀ i R R', SamePoints c c' R R' →
      Agree (SamePoints c c') (ladderRound c scalar R (i + 1))
        (ladderRound c' scalar' R' (i + 1)) :=
    fun i R R' hR => ladderRound_same hc hscalar hR (i + 1)
  unfold eccPointMult
  rw [hscalar.testBit hc]
  refine (xyczInitialDouble_same hc hpoint).bind fun double double' hdouble => ?_
  refine (agree_countdown hround ⟨hdouble.snd, hdouble.fst⟩).bind fun R R' hR => ?_
  refine (xyczAddC_same hc (hR.pick _) (hR.pick _)).bind fun S S' hS => ?_
  refine (finalZ_same hc hpoint (hS.snd.place hS.fst _) _).bind fun z z' hz => ?_
  refine (xyczAdd_same hc hS.snd hS.fst).bind fun T T' hT => ?_
  exact applyZ_same hc (hT.fst.place hT.snd _).fst hz

theorem regularScalar_length (hc : IsSecp256k1 c) (hk : k.length = c.numWords) :
    (regularScalar c k).length = c.numWords := by
  have hlen := hk.trans hc.nLength.symm
  have hadd := vliAdd_length hlen
  unfold regularScalar
  dsimp only
  split
  · exact hadd.trans hk
  · exact (vliAdd_length (hadd.trans hlen)).trans (hadd.trans hk)

theorem regularScalar_same (hc : BothSecp256k1 c c') (hk : SameNumber c c' k k')
    (hlt : value k < groupOrder) :
    SameNumber c c' (regularScalar c k) (regularScalar c' k') := by
  have hvalue := regularScalar_value hc.left hk.left hlt
  have hvalue' := regularScalar_value hc.right hk.right (hk.value ▸ hlt)
  rw [← hk.value, ← hvalue] at hvalue'
  exact ⟨regularScalar_length hc.left hk.left, regularScalar_length hc.right hk.right,
    (Nat.add_left_cancel hvalue').symm⟩

theorem eccPointComputePublicKey_same (hc : BothSecp256k1 c c') (hk : SameNumber c c' k k')
    (hlt : value k < groupOrder) :
    Agree (SameEntry c c') (eccPointComputePublicKey c k) (eccPointComputePublicKey c' k') := by
  unfold eccPointComputePublicKey
  rw [hc.left.numNBits, hc.right.numNBits]
  refine (eccPointMult_same hc (base_same hc) (regularScalar_same hc hk hlt) _).bind
    fun R R' hR => ?_
  rw [EccPoint.isZero_same hR.x.number hR.y.number]
  split
  · exact agree_pure trivial
  · exact agree_pure hR

theorem pointToBytes_same (hc : BothSecp256k1 c c') (hP : SamePoint c c' P P') :
    pointToBytes c P = pointToBytes c' P' := by
  rw [pointToBytes, pointToBytes, nativeToBytes_same hc hP.x.number,
    nativeToBytes_same hc hP.y.number]

/-- Both builds compute the same public key for any bytes of a private key. -/
theorem computePublicKey_agree (hc : BothSecp256k1 c c') (privateKey : List UInt8) :
    computePublicKey c privateKey = computePublicKey c' privateKey := by
  have hpriv := bytesToNative_same hc (List.length_take_le 32 privateKey)
  refine Agree.eq ?_
  unfold computePublicKey
  simp only [hc.left.numNBits, hc.right.numNBits, show (256 + 7) / 8 = 32 from rfl]
  generalize bytesToNative (vliClear w c.numWords) (privateKey.take 32) = priv at *
  generalize bytesToNative (vliClear w' c'.numWords) (privateKey.take 32) = priv' at *
  rw [hpriv.isZero, hc.n.cmp hpriv]
  split
  · exact agree_pure rfl
  split
  · exact agree_pure rfl
  rename_i hlt
  rw [bne_iff_ne, not_not, vliCmp_eq (hc.right.nLength.trans hpriv.right.symm),
    Int.sign_eq_one_iff_pos, hc.right.nValue, ← hpriv.value] at hlt
  refine (eccPointComputePublicKey_same hc hpriv (by omega)).bind fun pub pub' hpub => ?_
  cases pub <;> cases pub'
  · exact agree_pure rfl
  · exact hpub.elim
  · exact hpub.elim
  · exact agree_pure (congrArg some (pointToBytes_same hc hpub))

end Keys

/-! ## Signing -/

/-- The same number is drawn, or both draws fail. -/
def SameAnswer (c : Curve w) (c' : Curve w') : Option (Draw c) → Option (Draw c') → Prop :=
  Option.Rel fun draw draw' => SameNumber c c' draw.val draw'.val

/-- The generators answer with the same numbers. -/
def SameRng (c : Curve w) (c' : Curve w') : Rng c → Rng c' → Prop
  | none, none => True
  | some draws, some draws' => List.Forall₂ (SameAnswer c c') draws draws'
  | _, _ => False

/-- The same number, or none on both sides. -/
def SameDraw (c : Curve w) (c' : Curve w') (result : Option (Vli w) × Rng c)
    (result' : Option (Vli w') × Rng c') : Prop :=
  Option.Rel (SameNumber c c') result.1 result'.1 ∧ SameRng c c' result.2 result'.2

section Sign

variable {c : Curve w} {c' : Curve w'} {rng : Rng c} {rng' : Rng c'}
variable {k tmp x : Vli w} {k' tmp' x' : Vli w'} {privateKey messageHash : List UInt8}

/-- The order has all of its bits, so nothing is cleared. -/
theorem maskTop_order (hc : IsSecp256k1 c) {random : Vli w} (hlen : random.length = c.numWords) :
    maskTop (vliNumBits c.n) random = random := by
  have hsize : groupOrder.size = 256 := by
    refine Nat.le_antisymm (Nat.size_le.mpr (by decide +kernel)) (Nat.lt_size.mpr ?_)
    decide +kernel
  have hlast : random.length - 1 < random.length := by
    rw [hlen]
    exact Nat.sub_lt hc.pos.2 Nat.one_pos
  rw [maskTop, vliNumBits_eq, hc.nValue, hsize, hlen, Nat.mul_comm, hc.words, Nat.sub_self,
    BitVec.ushiftRight_zero, BitVec.and_allOnes, ← hlen, List.getD_eq_getElem _ _ hlast,
    List.set_getElem_self]

theorem randomLoop_same (hc : BothSecp256k1 c c') (tries : Nat) {draws : List (Option (Draw c))}
    {draws' : List (Option (Draw c'))} (h : List.Forall₂ (SameAnswer c c') draws draws') :
    Option.Rel (SameNumber c c') (randomLoop c c.n tries draws).1
        (randomLoop c' c'.n tries draws').1 ∧
      List.Forall₂ (SameAnswer c c') (randomLoop c c.n tries draws).2
        (randomLoop c' c'.n tries draws').2 := by
  induction tries generalizing draws draws' with
  | zero => exact ⟨.none, h⟩
  | succ tries ih =>
    obtain _ | ⟨hanswer, hrest⟩ := h
    · exact ⟨.none, .nil⟩
    obtain hdraw | - := hanswer
    · rename_i draw draw'
      rw [randomLoop, randomLoop, maskTop_order hc.left draw.property,
        maskTop_order hc.right draw'.property, hdraw.isZero, hc.n.cmp hdraw]
      split
      · exact ⟨.some hdraw, hrest⟩
      · exact ih hrest
    · exact ⟨.none, hrest⟩

theorem generateRandomInt_same (hc : BothSecp256k1 c c') (h : SameRng c c' rng rng') :
    SameDraw c c' (generateRandomInt c c.n rng) (generateRandomInt c' c'.n rng') := by
  cases rng <;> cases rng'
  · exact ⟨.none, trivial⟩
  · exact h.elim
  · exact h.elim
  · exact randomLoop_same hc rngMaxTries h

theorem blinding_same (hc : BothSecp256k1 c c') (h : SameRng c c' rng rng') :
    SameDraw c c' (blinding c rng) (blinding c' rng') := by
  cases rng <;> cases rng'
  · exact ⟨.some (same_one hc).number, trivial⟩
  · exact h.elim
  · exact h.elim
  · exact generateRandomInt_same hc h

/-- The bytes are those of the two numbers. -/
theorem signatureWith_same (hc : BothSecp256k1 c c') (hk : SameNumber c c' k k')
    (hkpos : 0 < value k) (hklt : value k < groupOrder) (htmp : SameNumber c c' tmp tmp')
    (htpos : 0 < value tmp) (htlt : value tmp < groupOrder) (hx : SameNumber c c' x x') :
    signatureWith c privateKey messageHash k tmp x =
      signatureWith c' privateKey messageHash k' tmp' x' := by
  obtain ⟨signature, hsome, hlen, hr, hs⟩ := signatureWith_spec privateKey messageHash hc.left
    hk.left hkpos hklt htmp.left htpos htlt hx.left
  obtain ⟨signature', hsome', hlen', hr', hs'⟩ := signatureWith_spec privateKey messageHash
    hc.right hk.right (hk.value ▸ hkpos) (hk.value ▸ hklt) htmp.right (htmp.value ▸ htpos)
    (htmp.value ▸ htlt) hx.right
  rw [← hx.value] at hr' hs'
  rw [← hk.value] at hs'
  rw [hsome, hsome', Option.some_inj, ← List.take_append_drop 32 signature,
    ← List.take_append_drop 32 signature']
  refine congrArg₂ _ (bigEndian_inj (by simp [hlen, hlen']) (hr.trans hr'.symm)) ?_
  have hs := hs.trans hs'.symm
  rw [signatureS, signatureS, List.take_of_length_le (by simp [hlen]),
    List.take_of_length_le (by simp [hlen'])] at hs
  exact bigEndian_inj (by simp [hlen, hlen']) hs

theorem signWithK_same (hc : BothSecp256k1 c c') (hk : SameNumber c c' k k')
    (hrng : SameRng c c' rng rng') :
    Agree (fun result result' => result.1 = result'.1 ∧ SameRng c c' result.2 result'.2)
      (signWithK c privateKey messageHash k rng) (signWithK c' privateKey messageHash k' rng') := by
  unfold signWithK
  rw [hk.isZero, hc.n.cmp hk, hc.left.numNBits, hc.right.numNBits]
  split
  · exact agree_pure ⟨rfl, hrng⟩
  rename_i hrange
  rw [Bool.or_eq_true, bne_iff_ne, not_or, not_not, vliIsZero_iff,
    vliCmp_eq (hc.right.nLength.trans hk.right.symm), Int.sign_eq_one_iff_pos, hc.right.nValue,
    ← hk.value] at hrange
  have hkpos : 0 < value k := Nat.pos_of_ne_zero hrange.1
  have hklt : value k < groupOrder := by omega
  refine (eccPointMult_same hc (base_same hc) (regularScalar_same hc hk hklt) _).bind
    fun p p' hp => ?_
  rw [hp.x.number.isZero]
  split
  · exact agree_pure ⟨rfl, hrng⟩
  obtain ⟨hdraw, hrest⟩ := blinding_same hc hrng
  refine agree_pure ⟨?_, hrest⟩
  generalize hblinding : blinding c rng = drawn at *
  generalize hblinding' : blinding c' rng' = drawn' at *
  obtain ⟨number, rest⟩ := drawn
  obtain ⟨number', rest'⟩ := drawn'
  cases hdraw with
  | none => rfl
  | @some tmp tmp' htmp =>
    obtain ⟨-, htpos, htlt⟩ := blinding_spec hc.left (congrArg Prod.fst hblinding)
    exact signatureWith_same hc hk hkpos hklt htmp htpos htlt hp.x.number

/-- The same random numbers give the same signature. -/
theorem sign_agree (hc : BothSecp256k1 c c') (hrng : SameRng c c' rng rng')
    (privateKey messageHash : List UInt8) :
    sign c privateKey messageHash rng = sign c' privateKey messageHash rng' := by
  unfold sign
  generalize rngMaxTries = tries
  refine Agree.eq ?_
  induction tries generalizing rng rng' with
  | zero => exact agree_pure rfl
  | succ tries ih =>
    obtain ⟨hdraw, hrest⟩ := generateRandomInt_same hc hrng
    unfold signLoop
    dsimp only
    generalize (generateRandomInt c c.n rng).1 = number at *
    generalize (generateRandomInt c' c'.n rng').1 = number' at *
    cases hdraw with
    | none => exact agree_pure rfl
    | @some k k' hk =>
      refine (signWithK_same hc hk hrest).bind fun result result' hresult => ?_
      obtain ⟨result, rest⟩ := result
      obtain ⟨result', rest'⟩ := result'
      obtain ⟨rfl, hrest'⟩ := hresult
      cases result with
      | none => exact ih hrest'
      | some signature => exact agree_pure rfl

/-- The same random numbers give the same keys. -/
theorem makeKey_agree (hc : BothSecp256k1 c c') (hrng : SameRng c c' rng rng') :
    makeKey c rng = makeKey c' rng' := by
  unfold makeKey
  generalize rngMaxTries = tries
  refine Agree.eq ?_
  induction tries generalizing rng rng' with
  | zero => exact agree_pure rfl
  | succ tries ih =>
    obtain ⟨hdraw, hrest⟩ := generateRandomInt_same hc hrng
    unfold makeKeyLoop
    dsimp only
    generalize hnumber : (generateRandomInt c c.n rng).1 = number at *
    generalize (generateRandomInt c' c'.n rng').1 = number' at *
    cases hdraw with
    | none => exact agree_pure rfl
    | @some k k' hk =>
      obtain ⟨-, -, hklt⟩ := generateRandomInt_spec hc.left.nLength hnumber
      rw [hc.left.nValue] at hklt
      refine (eccPointComputePublicKey_same hc hk hklt).bind fun pub pub' hpub => ?_
      cases pub <;> cases pub'
      · exact ih hrest
      · exact hpub.elim
      · exact hpub.elim
      · refine agree_pure (congrArg some (Prod.ext ?_ (nativeToBytes_same hc hk)))
        exact pointToBytes_same hc hpub

end Sign

end PrplHypervisor.UEcc
