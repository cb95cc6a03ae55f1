import Mathlib.AlgebraicGeometry.EllipticCurve.Affine.Point

/-!
# Points with a common denominator on y² = x³ + b

`Represents b z x y P` says that `(x / z ^ 2, y / z ^ 3)` are the coordinates of `P`, which is
not the point at infinity. The formulas stay clear of divisions:

- `Represents.add`: the sum of two points with one denominator; `Represents.scale` is the first
  of them with the denominator of the sum.
- `Represents.double`: the double of a point.
- `Represents.x_eq_iff`, `Represents.y_eq_zero_iff`: when the formulas do not apply.
-/

namespace PrplHypervisor.JacobianPoint

open WeierstrassCurve.Affine

variable {F : Type} [Field F]

/-- `y ^ 2 = x ^ 3 + b`. -/
def curve (b : F) : WeierstrassCurve.Affine F := { a₁ := 0, a₂ := 0, a₃ := 0, a₄ := 0, a₆ := b }

def Represents (b z x y : F) (P : (curve b).Point) : Prop :=
  z ≠ 0 ∧ ∃ (X Y : F) (h : (curve b).Nonsingular X Y),
    P = .some X Y h ∧ x = X * z ^ 2 ∧ y = Y * z ^ 3

theorem negY_curve (b X Y : F) : (curve b).negY X Y = -Y := by
  simp [curve, negY]

theorem equation_curve (b X Y : F) : (curve b).Equation X Y ↔ Y ^ 2 = X ^ 3 + b := by
  simp [equation_iff, curve]

section Rules

variable {b z x y x₁ y₁ x₂ y₂ t : F} {P Q : (curve b).Point}

theorem represents_some {X Y : F} (h : (curve b).Nonsingular X Y) :
    Represents b 1 X Y (.some X Y h) :=
  ⟨one_ne_zero, X, Y, h, rfl, by ring, by ring⟩

theorem Represents.scale (h : Represents b z x y P) (ht : t ≠ 0) :
    Represents b (z * t) (x * t ^ 2) (y * t ^ 3) P := by
  obtain ⟨hz, X, Y, hXY, rfl, rfl, rfl⟩ := h
  exact ⟨mul_ne_zero hz ht, X, Y, hXY, rfl, by ring, by ring⟩

theorem Represents.neg (h : Represents b z x y P) : Represents b z x (-y) (-P) := by
  obtain ⟨hz, X, Y, hXY, rfl, rfl, rfl⟩ := h
  refine ⟨hz, X, _, _, Point.neg_some hXY, rfl, ?_⟩
  rw [negY_curve]
  ring

theorem Represents.unique (h : Represents b z x₁ y₁ P) (h' : Represents b z x₂ y₂ P) :
    x₁ = x₂ ∧ y₁ = y₂ := by
  obtain ⟨-, X, Y, hXY, rfl, rfl, rfl⟩ := h
  obtain ⟨-, X', Y', hXY', heq, rfl, rfl⟩ := h'
  rw [Point.some.injEq] at heq
  rw [heq.1, heq.2]
  exact ⟨rfl, rfl⟩

theorem Represents.x_eq_iff (hP : Represents b z x₁ y₁ P) (hQ : Represents b z x₂ y₂ Q) :
    x₁ = x₂ ↔ P = Q ∨ P = -Q := by
  obtain ⟨hz, X₁, Y₁, h₁, rfl, rfl, rfl⟩ := hP
  obtain ⟨-, X₂, Y₂, h₂, rfl, rfl, rfl⟩ := hQ
  rw [← Point.X_eq_iff]
  exact ⟨fun h => mul_right_cancel₀ (pow_ne_zero 2 hz) h, fun h => by rw [h]⟩

variable [DecidableEq F]

theorem Represents.y_eq_zero_iff (h2 : (2 : F) ≠ 0) (hP : Represents b z x y P) :
    y = 0 ↔ P + P = 0 := by
  obtain ⟨hz, X, Y, h, rfl, rfl, rfl⟩ := hP
  have hpow : z ^ 3 ≠ 0 := pow_ne_zero 3 hz
  constructor
  · intro hy
    have hY : Y = 0 := (mul_eq_zero.mp hy).resolve_right hpow
    exact Point.add_self_of_Y_eq (by rw [negY_curve, hY, neg_zero])
  · intro hzero
    by_contra hy
    have hY : Y ≠ 0 := fun h0 => hy (by rw [h0, zero_mul])
    rw [Point.add_self_of_Y_ne] at hzero
    · exact Point.some_ne_zero _ hzero
    · rw [negY_curve]
      intro hneg
      have : 2 * Y = 0 := by linear_combination hneg
      exact hY ((mul_eq_zero.mp this).resolve_left h2)

/-- The sum of two points with one denominator. -/
theorem Represents.add (hP : Represents b z x₁ y₁ P) (hQ : Represents b z x₂ y₂ Q)
    (hne : x₂ - x₁ ≠ 0) {x₃ y₃ : F}
    (hx : x₃ = (y₂ - y₁) ^ 2 - x₁ * (x₂ - x₁) ^ 2 - x₂ * (x₂ - x₁) ^ 2)
    (hy : y₃ = (y₂ - y₁) * (x₁ * (x₂ - x₁) ^ 2 - x₃) - y₁ * (x₂ - x₁) ^ 3) :
    Represents b (z * (x₂ - x₁)) x₃ y₃ (P + Q) := by
  obtain ⟨hz, X₁, Y₁, h₁, rfl, rfl, rfl⟩ := hP
  obtain ⟨-, X₂, Y₂, h₂, rfl, rfl, rfl⟩ := hQ
  have hX : X₁ ≠ X₂ := by
    rintro rfl
    exact hne (sub_self _)
  have hsub : X₁ - X₂ ≠ 0 := sub_ne_zero.mpr hX
  refine ⟨mul_ne_zero hz hne, _, _, _, Point.add_of_X_ne hX, ?_, ?_⟩
  · rw [slope_of_X_ne hX, hx]
    simp only [addX, curve]
    field_simp
    ring
  · rw [slope_of_X_ne hX, hy, hx]
    simp only [addY, negY, negAddY, addX, curve]
    field_simp
    ring

/-- The double of a point, with half of the usual denominator. -/
theorem Represents.double (h2 : (2 : F) ≠ 0) (hP : Represents b z x y P) (hne : y ≠ 0)
    {x₃ y₃ : F} (hx : x₃ = (3 * x ^ 2 / 2) ^ 2 - 2 * (x * y ^ 2))
    (hy : y₃ = 3 * x ^ 2 / 2 * (x * y ^ 2 - x₃) - y ^ 4) :
    Represents b (y * z) x₃ y₃ (P + P) := by
  obtain ⟨hz, X, Y, h, rfl, rfl, rfl⟩ := hP
  have hY : Y ≠ 0 := fun h0 => hne (by rw [h0, zero_mul])
  have hYne : Y ≠ (curve b).negY X Y := by
    rw [negY_curve]
    intro hneg
    have : 2 * Y = 0 := by linear_combination hneg
    exact hY ((mul_eq_zero.mp this).resolve_left h2)
  have hslope : (curve b).slope X X Y Y = 3 * X ^ 2 / (2 * Y) := by
    rw [slope_of_Y_ne rfl hYne, negY_curve]
    simp only [curve]
    congr 1 <;> ring
  refine ⟨mul_ne_zero hne hz, _, _, _, Point.add_self_of_Y_ne hYne, ?_, ?_⟩
  · rw [hslope, hx]
    simp only [addX, curve]
    field_simp
    ring
  · rw [hslope, hy, hx]
    simp only [addY, negY, negAddY, addX, curve]
    field_simp
    ring

end Rules

end PrplHypervisor.JacobianPoint
