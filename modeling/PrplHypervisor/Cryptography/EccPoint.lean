import Mathlib.FieldTheory.Finite.Basic
import PrplHypervisor.Cryptography.FieldWords
import PrplHypervisor.Lib.JacobianPoint

/-!
# Points in words (cryptography/uECC.c)

Every function here is followed by the point it computes. Points that share a denominator are
added without it (`XYcZ`), and the caller keeps track of the denominator.

- `Holds`: the words of the coordinates of a point, for a denominator.
- `Holds.double`, `Holds.add`, `Holds.addC`, `Holds.applyZ`: the operations on points; a double
  is never the point at infinity.
-/

namespace PrplHypervisor.UEcc

open Limbs Ledger JacobianPoint

variable {w : Nat}

/-- The coordinates of a point. -/
structure EccPoint (w : Nat) where
  x : Vli w
  y : Vli w
deriving DecidableEq

/-- `EccPoint_isZero`. -/
def EccPoint.isZero (point : EccPoint w) : Bool := vliIsZero (point.x ++ point.y)

/-- A point in one array. -/
def pointOf (c : Curve w) (point : Vli w) : EccPoint w :=
  { x := point.take c.numWords
    y := point.drop c.numWords }

/-- `curve->G`. -/
def Curve.base (c : Curve w) : EccPoint w := pointOf c c.G

/-- `apply_z`. -/
def applyZ (c : Curve w) (point : EccPoint w) (Z : Vli w) : Run (EccPoint w) := do
  let t1 ← modSquareFast c Z
  let X1 ← modMultFast c point.x t1
  let t1 ← modMultFast c t1 Z
  let Y1 ← modMultFast c point.y t1
  return { x := X1, y := Y1 }

/-- `double_jacobian_secp256k1`: the point and `Z1`. -/
def doubleJacobian (c : Curve w) (point : EccPoint w) (Z1 : Vli w) :
    Run (EccPoint w × Vli w) := do
  if vliIsZero Z1 then return (point, Z1)
  let t5 ← modSquareFast c point.y
  let t4 ← modMultFast c point.x t5
  let X1 ← modSquareFast c point.x
  let t5 ← modSquareFast c t5
  let Z1 ← modMultFast c point.y Z1
  let Y1 := vliModAdd X1 X1 c.p
  let Y1 := vliModAdd Y1 X1 c.p
  let Y1 := halfMod c Y1
  let X1 ← modSquareFast c Y1
  let X1 := vliModSub X1 t4 c.p
  let X1 := vliModSub X1 t4 c.p
  let t4 := vliModSub t4 X1 c.p
  let Y1 ← modMultFast c Y1 t4
  let Y1 := vliModSub Y1 t5 c.p
  return ({ x := X1, y := Y1 }, Z1)

/-- `x_side_secp256k1`. -/
def xSide (c : Curve w) (x : Vli w) : Run (Vli w) := do
  let result ← modSquareFast c x
  let result ← modMultFast c result x
  return vliModAdd result c.b c.p

/-- `XYcZ_initial_double`: the double and the point itself. -/
def xyczInitialDouble (c : Curve w) (point : EccPoint w) (initialZ : Option (Vli w)) :
    Run (EccPoint w × EccPoint w) := do
  let z := initialZ.getD ((vliClear w c.numWords).set 0 1)
  let first ← applyZ c point z
  let (first, z) ← doubleJacobian c first z
  let second ← applyZ c point z
  return (first, second)

/-- `XYcZ_add`: `(x1, y1)` with the new denominator, and the sum. -/
def xyczAdd (c : Curve w) (P Q : EccPoint w) : Run (EccPoint w × EccPoint w) := do
  let t5 := vliModSub Q.x P.x c.p
  let t5 ← modSquareFast c t5
  let X1 ← modMultFast c P.x t5
  let X2 ← modMultFast c Q.x t5
  let Y2 := vliModSub Q.y P.y c.p
  let t5 ← modSquareFast c Y2
  let t5 := vliModSub t5 X1 c.p
  let t5 := vliModSub t5 X2 c.p
  let X2 := vliModSub X2 X1 c.p
  let Y1 ← modMultFast c P.y X2
  let X2 := vliModSub X1 t5 c.p
  let Y2 ← modMultFast c Y2 X2
  let Y2 := vliModSub Y2 Y1 c.p
  return ({ x := X1, y := Y1 }, { x := t5, y := Y2 })

/-- `XYcZ_addC`: the difference and the sum. -/
def xyczAddC (c : Curve w) (P Q : EccPoint w) : Run (EccPoint w × EccPoint w) := do
  let t5 := vliModSub Q.x P.x c.p
  let t5 ← modSquareFast c t5
  let X1 ← modMultFast c P.x t5
  let X2 ← modMultFast c Q.x t5
  let t5 := vliModAdd Q.y P.y c.p
  let Y2 := vliModSub Q.y P.y c.p
  let t6 := vliModSub X2 X1 c.p
  let Y1 ← modMultFast c P.y t6
  let t6 := vliModAdd X1 X2 c.p
  let X2 ← modSquareFast c Y2
  let X2 := vliModSub X2 t6 c.p
  let t7 := vliModSub X1 X2 c.p
  let Y2 ← modMultFast c Y2 t7
  let Y2 := vliModSub Y2 Y1 c.p
  let t7 ← modSquareFast c t5
  let t7 := vliModSub t7 t6 c.p
  let t6 := vliModSub t7 X1 c.p
  let t6 ← modMultFast c t6 t5
  let Y1 := vliModSub t6 Y1 c.p
  return ({ x := t7, y := Y1 }, { x := X2, y := Y2 })

/-! ## Coordinates -/

/-- The words of two field elements. -/
structure RepPoint (c : Curve w) (point : EccPoint w) (x y : ZMod fieldPrime) : Prop where
  x : Rep c point.x x
  y : Rep c point.y y

section Formulas

variable {c : Curve w} {P Q : EccPoint w} {Z : Vli w} {x y x₁ y₁ x₂ y₂ z : ZMod fieldPrime}

theorem Rep.congr {xs : Vli w} (h : Rep c xs x) (heq : x = y) : Rep c xs y := heq ▸ h

theorem RepPoint.congr (h : RepPoint c P x y) (hx : x = x₁) (hy : y = y₁) : RepPoint c P x₁ y₁ :=
  ⟨h.x.congr hx, h.y.congr hy⟩

theorem RepPoint.applyZ (hc : IsSecp256k1 c) (hP : RepPoint c P x y) (hZ : Rep c Z z) :
    Ensures Exact (applyZ c P Z) fun R => RepPoint c R (x * z ^ 2) (y * z ^ 3) := by
  unfold UEcc.applyZ
  refine (hZ.square hc).bind fun t1 ht1 => ?_
  refine (hP.x.mul hc ht1).bind fun X1 hX1 => ?_
  refine (ht1.mul hc hZ).bind fun t1 ht1 => ?_
  refine (hP.y.mul hc ht1).bind fun Y1 hY1 => ?_
  exact ensures_pure ⟨hX1.congr (by ring), hY1.congr (by ring)⟩

/-- Nothing is doubled at infinity. -/
theorem doubleJacobian_zero (hZ : vliIsZero Z = true) : doubleJacobian c P Z = pure (P, Z) := by
  unfold doubleJacobian
  rw [if_pos hZ]

theorem RepPoint.double (hc : IsSecp256k1 c) (hP : RepPoint c P x y) (hZ : Rep c Z z)
    (hz : z ≠ 0) :
    Ensures Exact (doubleJacobian c P Z) fun R =>
      Rep c R.2 (y * z) ∧ ∃ x₃ y₃, RepPoint c R.1 x₃ y₃ ∧
        x₃ = (3 * x ^ 2 / 2) ^ 2 - 2 * (x * y ^ 2) ∧
        y₃ = 3 * x ^ 2 / 2 * (x * y ^ 2 - x₃) - y ^ 4 := by
  unfold doubleJacobian
  rw [if_neg (hZ.isZero.not.mpr hz)]
  refine (hP.y.square hc).bind fun t5 ht5 => ?_
  refine (hP.x.mul hc ht5).bind fun t4 ht4 => ?_
  refine (hP.x.square hc).bind fun X1 hX1 => ?_
  refine (ht5.square hc).bind fun t5 ht5 => ?_
  refine (hP.y.mul hc hZ).bind fun Z1 hZ1 => ?_
  have hB := (((hX1.add hc hX1).add hc hX1).half hc).congr (y := 3 * x ^ 2 / 2) (by ring)
  refine (hB.square hc).bind fun X1 hX1 => ?_
  have hX3 := (hX1.sub hc ht4).sub hc ht4
  refine (hB.mul hc (ht4.sub hc hX3)).bind fun Y1 hY1 => ?_
  refine ensures_pure ⟨hZ1, _, _, ⟨hX3, hY1.sub hc ht5⟩, ?_, ?_⟩
  · ring
  · ring

theorem Rep.xSide (hc : IsSecp256k1 c) {xs : Vli w} (hx : Rep c xs x) :
    Ensures Exact (xSide c xs) fun R => Rep c R (x ^ 3 + 7) := by
  have hb : Rep c c.b 7 := by
    refine ⟨hc.bLength, ?_, ?_⟩
    · rw [hc.bValue]
      decide +kernel
    · rw [hc.bValue]
      rfl
  unfold UEcc.xSide
  refine (hx.square hc).bind fun r hr => ?_
  refine (hr.mul hc hx).bind fun r hr => ?_
  exact ensures_pure ((hr.add hc hb).congr (by ring))

theorem RepPoint.add (hc : IsSecp256k1 c) (hP : RepPoint c P x₁ y₁) (hQ : RepPoint c Q x₂ y₂) :
    Ensures Exact (xyczAdd c P Q) fun R =>
      RepPoint c R.1 (x₁ * (x₂ - x₁) ^ 2) (y₁ * (x₂ - x₁) ^ 3) ∧
      ∃ x₃ y₃, RepPoint c R.2 x₃ y₃ ∧
        x₃ = (y₂ - y₁) ^ 2 - x₁ * (x₂ - x₁) ^ 2 - x₂ * (x₂ - x₁) ^ 2 ∧
        y₃ = (y₂ - y₁) * (x₁ * (x₂ - x₁) ^ 2 - x₃) - y₁ * (x₂ - x₁) ^ 3 := by
  unfold xyczAdd
  refine ((hQ.x.sub hc hP.x).square hc).bind fun t5 hA => ?_
  refine (hP.x.mul hc hA).bind fun X1 hX1 => ?_
  refine (hQ.x.mul hc hA).bind fun X2 hX2 => ?_
  have hdy := hQ.y.sub hc hP.y
  refine (hdy.square hc).bind fun t5 hD => ?_
  have hX3 := (hD.sub hc hX1).sub hc hX2
  refine (hP.y.mul hc (hX2.sub hc hX1)).bind fun Y1 hY1 => ?_
  refine (hdy.mul hc (hX1.sub hc hX3)).bind fun Y2 hY2 => ?_
  refine ensures_pure ⟨⟨hX1.congr ?_, hY1.congr ?_⟩, _, _, ⟨hX3, hY2.sub hc hY1⟩, ?_, ?_⟩ <;> ring

theorem RepPoint.addC (hc : IsSecp256k1 c) (hP : RepPoint c P x₁ y₁) (hQ : RepPoint c Q x₂ y₂) :
    Ensures Exact (xyczAddC c P Q) fun R =>
      (∃ x₃ y₃, RepPoint c R.1 x₃ y₃ ∧
        x₃ = (-y₂ - y₁) ^ 2 - x₁ * (x₂ - x₁) ^ 2 - x₂ * (x₂ - x₁) ^ 2 ∧
        y₃ = (-y₂ - y₁) * (x₁ * (x₂ - x₁) ^ 2 - x₃) - y₁ * (x₂ - x₁) ^ 3) ∧
      ∃ x₃ y₃, RepPoint c R.2 x₃ y₃ ∧
        x₃ = (y₂ - y₁) ^ 2 - x₁ * (x₂ - x₁) ^ 2 - x₂ * (x₂ - x₁) ^ 2 ∧
        y₃ = (y₂ - y₁) * (x₁ * (x₂ - x₁) ^ 2 - x₃) - y₁ * (x₂ - x₁) ^ 3 := by
  unfold xyczAddC
  refine ((hQ.x.sub hc hP.x).square hc).bind fun t5 hA => ?_
  refine (hP.x.mul hc hA).bind fun X1 hX1 => ?_
  refine (hQ.x.mul hc hA).bind fun X2 hX2 => ?_
  have hsy := hQ.y.add hc hP.y
  have hdy := hQ.y.sub hc hP.y
  refine (hP.y.mul hc (hX2.sub hc hX1)).bind fun Y1 hE => ?_
  have hsum := hX1.add hc hX2
  refine (hdy.square hc).bind fun X2 hD => ?_
  have hX3 := hD.sub hc hsum
  refine (hdy.mul hc (hX1.sub hc hX3)).bind fun Y2 hY2 => ?_
  refine (hsy.square hc).bind fun t7 hF => ?_
  have hX3' := hF.sub hc hsum
  refine ((hX3'.sub hc hX1).mul hc hsy).bind fun t6 ht6 => ?_
  refine ensures_pure ⟨⟨_, _, ⟨hX3', ht6.sub hc hE⟩, ?_, ?_⟩,
    _, _, ⟨hX3, hY2.sub hc hE⟩, ?_, ?_⟩ <;> ring

end Formulas

/-! ## Points -/

/-- The points of `y ^ 2 = x ^ 3 + 7`. -/
abbrev Secp : Type := (curve (7 : ZMod fieldPrime)).Point

/-- `-7` is not a cube: it is no cubic residue. -/
theorem cube_add_seven_ne (x : ZMod fieldPrime) : x ^ 3 + 7 ≠ 0 := by
  intro h
  have hcube : x ^ 3 = ((fieldPrime - 7 : Nat) : ZMod fieldPrime) := by
    rw [Nat.cast_sub (by decide +kernel), ZMod.natCast_self]
    linear_combination h
  have hx : x ≠ 0 := by
    rintro rfl
    rw [zero_pow three_ne_zero, zero_add] at h
    have hdvd : fieldPrime ∣ 7 := (ZMod.natCast_eq_zero_iff 7 fieldPrime).mp (by exact_mod_cast h)
    exact absurd (Nat.le_of_dvd (by decide) hdvd) (by decide +kernel)
  have hexponent : (fieldPrime - 1) / 3 < 2 ^ 256 := by decide +kernel
  have hfermat := ZMod.pow_card_sub_one_eq_one hx
  rw [show fieldPrime - 1 = 3 * ((fieldPrime - 1) / 3) by decide +kernel, pow_mul, hcube,
    Primality.zmod_pow_eq_one_iff fieldPrime_prime.one_lt, ← Primality.powMod_eq hexponent]
    at hfermat
  exact absurd hfermat (by decide +kernel)

theorem y_ne_zero {x y : ZMod fieldPrime} (h : (curve (7 : ZMod fieldPrime)).Equation x y) :
    y ≠ 0 := by
  rintro rfl
  rw [equation_curve, zero_pow two_ne_zero] at h
  exact cube_add_seven_ne x h.symm

/-- No point is its own inverse. -/
theorem Secp.double_ne_zero {A : Secp} (hA : A ≠ 0) : A + A ≠ 0 := by
  cases A with
  | zero => exact absurd rfl hA
  | some X Y h =>
    rw [Ne, ← (represents_some h).y_eq_zero_iff two_ne_zero_field]
    exact y_ne_zero h.1

/-- Any solution of the equation is a point. -/
theorem nonsingular_curve {x y : ZMod fieldPrime} (h : y ^ 2 = x ^ 3 + 7) :
    (curve (7 : ZMod fieldPrime)).Nonsingular x y := by
  have hequation := (equation_curve 7 x y).mpr h
  refine (WeierstrassCurve.Affine.nonsingular_iff x y).mpr ⟨hequation, .inr ?_⟩
  intro hneg
  have hzero : 2 * y = 0 := by
    simp only [curve] at hneg
    linear_combination hneg
  exact y_ne_zero hequation ((mul_eq_zero.mp hzero).resolve_left two_ne_zero_field)

/-- The words are the coordinates of `A` for the denominator `z`. -/
def Holds (c : Curve w) (point : EccPoint w) (z : ZMod fieldPrime) (A : Secp) : Prop :=
  ∃ x y, RepPoint c point x y ∧ Represents 7 z x y A

section Points

variable {c : Curve w} {P Q : EccPoint w} {Z : Vli w} {z t : ZMod fieldPrime} {A B : Secp}

theorem Holds.congr (h : Holds c P z A) (hz : z = t) (hA : A = B) : Holds c P t B := hz ▸ hA ▸ h

theorem Holds.z_ne_zero (h : Holds c P z A) : z ≠ 0 := by
  obtain ⟨x, y, -, hA⟩ := h
  exact hA.1

theorem Holds.ne_zero (h : Holds c P z A) : A ≠ 0 := by
  obtain ⟨x, y, -, -, X, Y, hXY, rfl, -⟩ := h
  exact WeierstrassCurve.Affine.Point.some_ne_zero hXY

theorem Holds.applyZ (hc : IsSecp256k1 c) (hP : Holds c P z A) (hZ : Rep c Z t) (ht : t ≠ 0) :
    Ensures Exact (applyZ c P Z) fun R => Holds c R (z * t) A := by
  obtain ⟨x, y, hxy, hA⟩ := hP
  exact (hxy.applyZ hc hZ).mono fun R hR => ⟨_, _, hR, hA.scale ht⟩

theorem Holds.double (hc : IsSecp256k1 c) (hP : Holds c P z A) (hZ : Rep c Z z) :
    Ensures Exact (doubleJacobian c P Z) fun R =>
      ∃ z', Rep c R.2 z' ∧ Holds c R.1 z' (A + A) := by
  obtain ⟨x, y, hxy, hA⟩ := hP
  have hy : y ≠ 0 := by
    intro hzero
    obtain ⟨hz, X, Y, h, rfl, -, hyY⟩ := hA
    rw [hzero, eq_comm, mul_eq_zero, or_iff_left (pow_ne_zero 3 hz)] at hyY
    exact y_ne_zero h.1 hyY
  refine (hxy.double hc hZ hA.1).mono fun R hR => ?_
  obtain ⟨hz, x₃, y₃, hR, hx₃, hy₃⟩ := hR
  exact ⟨_, hz, x₃, y₃, hR, hA.double two_ne_zero_field hy hx₃ hy₃⟩

/-- The denominator grows by the difference of the first coordinates. -/
theorem Holds.add (hc : IsSecp256k1 c) (hP : Holds c P z A) (hQ : Holds c Q z B)
    (hne : A ≠ B) (hneg : A ≠ -B) :
    ∃ d, d ≠ 0 ∧ Rep c (vliModSub Q.x P.x c.p) d ∧
      Ensures Exact (xyczAdd c P Q) fun R =>
        Holds c R.1 (z * d) A ∧ Holds c R.2 (z * d) (A + B) := by
  obtain ⟨x₁, y₁, h₁, hA⟩ := hP
  obtain ⟨x₂, y₂, h₂, hB⟩ := hQ
  have hd : x₂ - x₁ ≠ 0 := by
    rw [Ne, sub_eq_zero, eq_comm, hA.x_eq_iff hB]
    exact not_or.mpr ⟨hne, hneg⟩
  refine ⟨x₂ - x₁, hd, h₂.x.sub hc h₁.x, (h₁.add hc h₂).mono fun R hR => ?_⟩
  obtain ⟨hR₁, x₃, y₃, hR₂, hx₃, hy₃⟩ := hR
  exact ⟨⟨_, _, hR₁, hA.scale hd⟩, x₃, y₃, hR₂, hA.add hB hd hx₃ hy₃⟩

/-- Equal and opposite points have one first coordinate. -/
theorem Holds.sub_x_eq_zero (hc : IsSecp256k1 c) (hP : Holds c P z A) (hQ : Holds c Q z B)
    (h : A = B ∨ A = -B) : Rep c (vliModSub Q.x P.x c.p) 0 := by
  obtain ⟨x₁, y₁, h₁, hA⟩ := hP
  obtain ⟨x₂, y₂, h₂, hB⟩ := hQ
  refine (h₂.x.sub hc h₁.x).congr ?_
  rw [(hA.x_eq_iff hB).mpr h, sub_self]

theorem Holds.addC (hc : IsSecp256k1 c) (hP : Holds c P z A) (hQ : Holds c Q z B)
    (hne : A ≠ B) (hneg : A ≠ -B) :
    Ensures Exact (xyczAddC c P Q) fun R =>
      ∃ z', Holds c R.1 z' (A - B) ∧ Holds c R.2 z' (A + B) := by
  obtain ⟨x₁, y₁, h₁, hA⟩ := hP
  obtain ⟨x₂, y₂, h₂, hB⟩ := hQ
  have hd : x₂ - x₁ ≠ 0 := by
    rw [Ne, sub_eq_zero, eq_comm, hA.x_eq_iff hB]
    exact not_or.mpr ⟨hne, hneg⟩
  refine (h₁.addC hc h₂).mono fun R hR => ?_
  obtain ⟨⟨x₃, y₃, hR₁, hx₃, hy₃⟩, x₄, y₄, hR₂, hx₄, hy₄⟩ := hR
  refine ⟨z * (x₂ - x₁), ⟨x₃, y₃, hR₁, ?_⟩, x₄, y₄, hR₂, hA.add hB hd hx₄ hy₄⟩
  rw [sub_eq_add_neg A B]
  exact hA.add hB.neg hd hx₃ hy₃

/-- With the denominator divided out the words are the affine coordinates. -/
theorem Holds.normalize (hc : IsSecp256k1 c) (hP : Holds c P z A) (hZ : Rep c Z z) :
    Ensures Exact (UEcc.applyZ c P (vliModInv Z c.p)) fun R => Holds c R 1 A :=
  (hP.applyZ hc (hZ.inv hc) (inv_ne_zero hP.z_ne_zero)).mono fun _ hR =>
    hR.congr (mul_inv_cancel₀ hP.z_ne_zero) rfl

end Points

end PrplHypervisor.UEcc
