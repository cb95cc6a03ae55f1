import PrplHypervisor.Cryptography.PublicKey
import PrplHypervisor.Lib.DoubleScalar

/-!
# u1 * G + u2 * Q (cryptography/uECC.c)

The loop of `uECC_verify`. It adds without comparing the points first. Where they are equal or
opposite the denominator becomes zero, and it stays zero: the loop ends without a point, and the
caller finds the coordinate zero.

- `Tracks`: the invariant of the loop, with both ways it can go.
- `shamir_spec`: the result, and when there is one.
-/

namespace PrplHypervisor.UEcc

open Limbs Ledger JacobianPoint DoubleScalar

variable {w : Nat}

/-- `sum`: `G + Q`. -/
def sumWithBase (c : Curve w) (pub : EccPoint w) : Run (EccPoint w) := do
  let z := vliModSub pub.x c.base.x c.p
  let add ← xyczAdd c c.base pub
  applyZ c add.2 (vliModInv z c.p)

/-- `points`. -/
def shamirPoints (c : Curve w) (pub sum : EccPoint w) : List (Option (EccPoint w)) :=
  [none, some c.base, some pub, some sum]

/-- The two bits that select a point. -/
def shamirIndex (u1 u2 : Vli w) (i : Nat) : Nat :=
  (vliTestBit u1 i).toNat ||| (vliTestBit u2 i).toNat <<< 1

/-- One round of the loop; the state is `rx`, `ry` and `z`. -/
def shamirRound (c : Curve w) (points : List (Option (EccPoint w))) (u1 u2 : Vli w)
    (s : EccPoint w × Vli w) (i : Nat) : Run (EccPoint w × Vli w) := do
  let s ← doubleJacobian c s.1 s.2
  match points.getD (shamirIndex u1 u2 i) none with
  | none => return s
  | some point =>
    let t ← applyZ c point s.2
    let tz := vliModSub s.1.x t.x c.p
    let add ← xyczAdd c t s.1
    let z ← modMultFast c s.2 tz
    return (add.2, z)

/-- The loop and the division by `z`. The first point is not the null pointer: one of the two
numbers has the highest bit. -/
def shamir (c : Curve w) (points : List (Option (EccPoint w))) (u1 u2 : Vli w) :
    Run (EccPoint w) := do
  let numBits := max (vliNumBits u1) (vliNumBits u2)
  let point := (points.getD (shamirIndex u1 u2 (numBits - 1)) none).getD c.base
  let z := (vliClear w c.numWords).set 0 1
  let s ← (List.range (numBits - 1)).reverse.foldlM (shamirRound c points u1 u2) (point, z)
  applyZ c s.1 (vliModInv s.2 c.p)

section Table

variable {c : Curve w} {pub sum : EccPoint w} {Q : Secp}

theorem sumWithBase_spec (hc : IsSecp256k1 c) (hpub : Holds c pub 1 Q) (hne : Q ≠ basePoint)
    (hneg : Q ≠ -basePoint) :
    Ensures Exact (sumWithBase c pub) fun sum => Holds c sum 1 (basePoint + Q) := by
  obtain ⟨d, hd, hz, hadd⟩ :=
    (base_holds hc).add hc hpub hne.symm fun h => hneg (by rw [h, neg_neg])
  refine hadd.bind fun R hR => ?_
  exact hR.2.normalize hc (hz.congr (one_mul d).symm)

/-- The points of the table. -/
structure TableHolds (c : Curve w) (pub sum : EccPoint w) (Q : Secp) : Prop where
  pub : Holds c pub 1 Q
  sum : Holds c sum 1 (basePoint + Q)

/-- The table has what the bits add. -/
theorem shamirPoints_getD (hc : IsSecp256k1 c) (h : TableHolds c pub sum Q) (u1 u2 : Vli w)
    (i : Nat) :
    ((value u1).testBit i ∨ (value u2).testBit i → ∃ T,
      (shamirPoints c pub sum).getD (shamirIndex u1 u2 i) none = some T ∧
        Holds c T 1 (term basePoint Q (value u1) (value u2) i)) ∧
    (¬((value u1).testBit i ∨ (value u2).testBit i) →
      (shamirPoints c pub sum).getD (shamirIndex u1 u2 i) none = none) := by
  have hw := hc.pos.1
  unfold shamirIndex term
  rw [vliTestBit_eq hw, vliTestBit_eq hw]
  cases (value u1).testBit i with
  | false =>
    cases (value u2).testBit i with
    | false => exact ⟨fun hbits => absurd hbits (by decide), fun _ => rfl⟩
    | true =>
      refine ⟨fun _ => ⟨pub, rfl, h.pub.congr rfl ?_⟩, fun hbits => absurd hbits (by decide)⟩
      rw [Bool.toNat_false, Bool.toNat_true, zero_nsmul, one_nsmul, zero_add]
  | true =>
    cases (value u2).testBit i with
    | false =>
      refine ⟨fun _ => ⟨c.base, rfl, (base_holds hc).congr rfl ?_⟩,
        fun hbits => absurd hbits (by decide)⟩
      rw [Bool.toNat_false, Bool.toNat_true, zero_nsmul, one_nsmul, add_zero]
    | true =>
      refine ⟨fun _ => ⟨sum, rfl, h.sum.congr rfl ?_⟩, fun hbits => absurd hbits (by decide)⟩
      rw [Bool.toNat_true, one_nsmul, one_nsmul]

end Table

/-! ## The loop -/

/-- The additions of all rounds from `i` on apply. -/
def RegularFrom (Q : Secp) (u v i : Nat) : Prop :=
  ∀ j, i ≤ j → j + 1 < max u.size v.size → Regular basePoint Q u v j

/-- Before round `i - 1` the state is the sum of the bits that were read, or the denominator was
lost in a round where the addition did not apply. -/
def Tracks (c : Curve w) (Q : Secp) (u v i : Nat) (s : EccPoint w × Vli w) : Prop :=
  (RegularFrom Q u v i ∧ ∃ z, Rep c s.2 z ∧ Holds c s.1 z (partialSum basePoint Q u v i)) ∨
    (¬RegularFrom Q u v i ∧ Rep c s.2 0 ∧ ∃ x y, RepPoint c s.1 x y)

section Loop

variable {c : Curve w} {pub sum : EccPoint w} {u1 u2 : Vli w} {Q : Secp} {u v i : Nat}
variable {s : EccPoint w × Vli w}

theorem RegularFrom.step (hi : i + 1 < max u.size v.size) :
    RegularFrom Q u v i ↔ RegularFrom Q u v (i + 1) ∧ Regular basePoint Q u v i := by
  constructor
  · intro h
    exact ⟨fun j hj => h j (Nat.le_of_succ_le hj), h i (Nat.le_refl i) hi⟩
  · rintro ⟨h, hreg⟩ j hj hlt
    obtain rfl | hne := Nat.eq_or_lt_of_le hj
    · exact hreg
    · exact h j hne hlt

/-- A lost denominator stays lost. -/
theorem shamirRound_lost (hc : IsSecp256k1 c) (h : TableHolds c pub sum Q) (hz : Rep c s.2 0)
    {x y : ZMod fieldPrime} (hs : RepPoint c s.1 x y) (i : Nat) :
    Ensures Exact (shamirRound c (shamirPoints c pub sum) u1 u2 s i) fun s' =>
      Rep c s'.2 0 ∧ ∃ x y, RepPoint c s'.1 x y := by
  unfold shamirRound
  rw [doubleJacobian_zero (hz.isZero.mpr rfl)]
  have hsame : Ensures Exact (pure (s.1, s.2)) (· = s) := ensures_pure rfl
  refine hsame.bind fun t ht => ?_
  subst ht
  obtain ⟨hsome, hnone⟩ := shamirPoints_getD hc h u1 u2 i
  by_cases hbits : (value u1).testBit i ∨ (value u2).testBit i
  · obtain ⟨T, hT, hholds⟩ := hsome hbits
    obtain ⟨X, Y, hXY, hpoint, -⟩ := hholds.affine
    rw [hT]
    refine (hpoint.applyZ hc hz).bind fun T' hT' => ?_
    refine (hT'.add hc hs).bind fun R hR => ?_
    obtain ⟨-, x₃, y₃, hR, -⟩ := hR
    refine (hz.mul hc (hs.x.sub hc hT'.x)).bind fun z hz' => ?_
    exact ensures_pure ⟨hz'.congr (zero_mul _), x₃, y₃, hR⟩
  · rw [hnone hbits]
    exact ensures_pure ⟨hz, x, y, hs⟩

theorem shamirRound_tracks (hc : IsSecp256k1 c) (h : TableHolds c pub sum Q)
    (hi : i + 1 < max (value u1).size (value u2).size)
    (hs : Tracks c Q (value u1) (value u2) (i + 1) s) :
    Ensures Exact (shamirRound c (shamirPoints c pub sum) u1 u2 s i)
      (Tracks c Q (value u1) (value u2) i) := by
  obtain ⟨hreg, z, hz, hpoint⟩ | ⟨hirreg, hz, x, y, hpoint⟩ := hs
  · unfold shamirRound
    refine (hpoint.double hc hz).bind fun t ht => ?_
    obtain ⟨z', hz', hdouble⟩ := ht
    obtain ⟨hsome, hnone⟩ := shamirPoints_getD hc h u1 u2 i
    by_cases hbits : (value u1).testBit i ∨ (value u2).testBit i
    · obtain ⟨T, hT, hholds⟩ := hsome hbits
      rw [hT]
      refine (hholds.applyZ hc hz' hdouble.z_ne_zero).bind fun T' hT' => ?_
      have hT' := hT'.congr (one_mul z') rfl
      by_cases hregular : Regular basePoint Q (value u1) (value u2) i
      · obtain ⟨hne, hneg⟩ := hregular hbits
        obtain ⟨d, hd, hdiff, hadd⟩ := hT'.add hc hdouble hne hneg
        refine hadd.bind fun R hR => ?_
        refine (hz'.mul hc hdiff).bind fun z'' hz'' => ensures_pure (.inl ⟨?_, _, hz'', ?_⟩)
        · exact (RegularFrom.step hi).mpr ⟨hreg, hregular⟩
        · exact hR.2.congr rfl (by rw [partialSum_succ (i := i), add_comm])
      · -- equal or opposite points: `tz` is zero
        have hequal : term basePoint Q (value u1) (value u2) i =
              partialSum basePoint Q (value u1) (value u2) (i + 1) +
                partialSum basePoint Q (value u1) (value u2) (i + 1) ∨
            term basePoint Q (value u1) (value u2) i =
              -(partialSum basePoint Q (value u1) (value u2) (i + 1) +
                partialSum basePoint Q (value u1) (value u2) (i + 1)) := by
          by_contra hneither
          rw [not_or] at hneither
          exact hregular fun _ => hneither
        have hdiff := hT'.sub_x_eq_zero hc hdouble hequal
        obtain ⟨x₁, y₁, h₁, -⟩ := hT'
        obtain ⟨x₂, y₂, h₂, -⟩ := hdouble
        refine (h₁.add hc h₂).bind fun R hR => ?_
        obtain ⟨-, x₃, y₃, hR, -⟩ := hR
        refine (hz'.mul hc hdiff).bind fun z'' hz'' => ensures_pure (.inr ⟨?_, ?_, x₃, y₃, hR⟩)
        · exact fun hall => hregular ((RegularFrom.step hi).mp hall).2
        · exact hz''.congr (mul_zero z')
    · rw [hnone hbits]
      refine ensures_pure (.inl ⟨?_, z', hz', hdouble.congr rfl ?_⟩)
      · exact (RegularFrom.step hi).mpr ⟨hreg, fun hbits' => absurd hbits' hbits⟩
      · rw [partialSum_succ (i := i), term_of_not hbits, add_zero]
  · refine (shamirRound_lost hc h hz hpoint i).mono fun s' hs' => .inr ⟨?_, hs'⟩
    exact fun hall => hirreg ((RegularFrom.step hi).mp hall).1

/-- The sum in affine coordinates if every addition applied, else the coordinate zero. -/
theorem shamir_spec (hc : IsSecp256k1 c) (h : TableHolds c pub sum Q)
    (hpos : 0 < max (value u1).size (value u2).size) :
    Ensures Exact (shamir c (shamirPoints c pub sum) u1 u2) fun R =>
      (RegularFrom Q (value u1) (value u2) 0 ∧
        Holds c R 1 (value u1 • basePoint + value u2 • Q)) ∨
      (¬RegularFrom Q (value u1) (value u2) 0 ∧ Rep c R.x 0) := by
  unfold shamir
  rw [vliNumBits_eq, vliNumBits_eq]
  generalize hn : max (value u1).size (value u2).size = n at hpos
  obtain ⟨T, hT, hholds⟩ := (shamirPoints_getD hc h u1 u2 (n - 1)).1
    (hn ▸ testBit_top (by rw [hn]; exact hpos))
  simp only [hT, Option.getD_some]
  have hinit : Tracks c Q (value u1) (value u2) (n - 1) (T, (vliClear w c.numWords).set 0 1) := by
    refine .inl ⟨fun j hj hlt => absurd hlt (by omega), 1, rep_one hc, hholds.congr rfl ?_⟩
    exact (partialSum_top (by omega) (by omega)).symm
  have hloop : Ensures Exact ((List.range (n - 1)).reverse.foldlM
      (shamirRound c (shamirPoints c pub sum) u1 u2) (T, (vliClear w c.numWords).set 0 1))
      (Tracks c Q (value u1) (value u2) 0) := by
    refine ensures_countdown (Tracks c Q (value u1) (value u2)) (fun i hi s hs => ?_) hinit
    exact shamirRound_tracks hc h (by omega) hs
  refine hloop.bind fun s hs => ?_
  obtain ⟨hreg, z, hz, hpoint⟩ | ⟨hirreg, hz, x, y, hpoint⟩ := hs
  · refine (hpoint.normalize hc hz).mono fun R hR => .inl ⟨hreg, hR.congr rfl partialSum_zero⟩
  · refine (hpoint.applyZ hc (hz.inv hc)).mono fun R hR => .inr ⟨hirreg, hR.x.congr ?_⟩
    rw [inv_zero, zero_pow two_ne_zero, mul_zero]

end Loop

end PrplHypervisor.UEcc
