import Mathlib.GroupTheory.OrderOfElement
import PrplHypervisor.Cryptography.PublicKey
import PrplHypervisor.Lib.DoubleScalar

/-!
# The order of the base point

The multiple of the base point by one less than `groupOrder` is computed with integers modulo
`fieldPrime`; it is the opposite of the base point. The order is prime, so a multiple vanishes
exactly if `groupOrder` divides its factor.
-/

namespace PrplHypervisor.UEcc

open JacobianPoint

/-- A point with a denominator, in integers. -/
structure Jacobian where
  x : Int
  y : Int
  z : Int
deriving DecidableEq

namespace Jacobian

def double (P : Jacobian) : Jacobian :=
  let a : Int := 4 * P.x * P.y ^ 2
  let m : Int := 3 * P.x ^ 2
  let x : Int := (m ^ 2 - 2 * a) % fieldPrime
  { x := x
    y := (m * (a - x) - 8 * P.y ^ 4) % fieldPrime
    z := 2 * P.y * P.z % fieldPrime }

/-- The sum with the base point, unless both have one first coordinate. -/
def addBase (P : Jacobian) : Option Jacobian :=
  let x₁ : Int := baseX * P.z ^ 2 % fieldPrime
  let y₁ : Int := baseY * P.z ^ 3 % fieldPrime
  let d : Int := (P.x - x₁) % fieldPrime
  let e : Int := (P.y - y₁) % fieldPrime
  if d = 0 then none
  else
    let x : Int := (e ^ 2 - x₁ * d ^ 2 - P.x * d ^ 2) % fieldPrime
    some { x := x
           y := (e * (x₁ * d ^ 2 - x) - y₁ * d ^ 3) % fieldPrime
           z := P.z * d % fieldPrime }

def step (m : Nat) (P : Jacobian) (i : Nat) : Option Jacobian :=
  if m.testBit i then P.double.addBase else some P.double

/-- The multiple by an `m` with its highest bit at `bits`. -/
def multiple (m bits : Nat) : Option Jacobian :=
  (List.range bits).reverse.foldlM (step m) { x := baseX, y := baseY, z := 1 }

/-- The integers are coordinates of `A`. -/
def Is (P : Jacobian) (A : Secp) : Prop := Represents 7 (P.z : ZMod fieldPrime) P.x P.y A

theorem is_base : Is { x := baseX, y := baseY, z := 1 } basePoint := by
  unfold Is
  simp only [Int.cast_one, Int.cast_natCast]
  exact represents_some base_nonsingular

variable {P Q : Jacobian} {A : Secp}

theorem Is.double (h : P.Is A) : P.double.Is (A + A) := by
  have hy : (P.y : ZMod fieldPrime) ≠ 0 := by
    intro hzero
    obtain ⟨hz, X, Y, hXY, rfl, -, hyY⟩ := h
    rw [hzero, eq_comm, mul_eq_zero, or_iff_left (pow_ne_zero 3 hz)] at hyY
    exact y_ne_zero hXY.1 hyY
  have h2 := two_ne_zero_field
  have hscaled := (Represents.double h2 h hy rfl rfl).scale h2
  unfold Is Jacobian.double
  push_cast [ZMod.intCast_mod]
  convert hscaled using 1
  · ring
  · field_simp
    ring
  · field_simp
    ring

theorem Is.addBase (h : P.Is A) (hadd : P.addBase = some Q) : Q.Is (A + basePoint) := by
  unfold Jacobian.addBase at hadd
  dsimp only at hadd
  split at hadd
  · cases hadd
  rename_i hd
  cases hadd
  -- the base point with the denominator of `P`
  have hbase := (represents_some base_nonsingular).scale h.1
  rw [one_mul] at hbase
  have hne : (P.x : ZMod fieldPrime) - baseX * (P.z : ZMod fieldPrime) ^ 2 ≠ 0 := by
    intro hzero
    have hcast : (((P.x - baseX * P.z ^ 2 % fieldPrime) % fieldPrime : Int) : ZMod fieldPrime) =
        0 := by
      push_cast [ZMod.intCast_mod]
      exact hzero
    rw [ZMod.intCast_zmod_eq_zero_iff_dvd, Int.dvd_iff_emod_eq_zero, Int.emod_emod] at hcast
    exact hd hcast
  have hsum := hbase.add h hne rfl rfl
  rw [add_comm]
  unfold Is
  push_cast [ZMod.intCast_mod]
  exact hsum

theorem Is.step {m i : Nat} (h : P.Is ((m / 2 ^ (i + 1)) • basePoint))
    (hstep : Jacobian.step m P i = some Q) : Q.Is ((m / 2 ^ i) • basePoint) := by
  have hdiv := DoubleScalar.div_two_pow m i
  have hdouble := h.double
  rw [← add_nsmul, ← Nat.two_mul] at hdouble
  unfold Jacobian.step at hstep
  split at hstep
  · rename_i hbit
    rw [hdiv, hbit, Bool.toNat_true, add_nsmul, one_nsmul]
    exact hdouble.addBase hstep
  · rename_i hbit
    cases hstep
    rw [hdiv, Bool.eq_false_iff.mpr hbit, Bool.toNat_false, Nat.add_zero]
    exact hdouble

theorem is_multiple {m bits : Nat} (htop : m / 2 ^ bits = 1) (h : multiple m bits = some Q) :
    Q.Is (m • basePoint) := by
  have hrun : ∀ n P, P.Is ((m / 2 ^ n) • basePoint) →
      (List.range n).reverse.foldlM (Jacobian.step m) P = some Q → Q.Is (m • basePoint) := by
    intro n
    induction n with
    | zero =>
      intro P hP hfold
      cases hfold
      rw [Nat.pow_zero, Nat.div_one] at hP
      exact hP
    | succ n ih =>
      intro P hP hfold
      rw [List.range_succ, List.reverse_append, List.reverse_singleton, List.singleton_append,
        List.foldlM_cons] at hfold
      obtain ⟨R, hR, hrest⟩ := Option.bind_eq_some_iff.mp hfold
      exact ih R (hP.step hR) hrest
  refine hrun bits _ ?_ h
  rw [htop, one_nsmul]
  exact is_base

end Jacobian

/-! ## The order -/

/-- The coordinates of the opposite of the base point, for the denominator of `P`. -/
def Jacobian.OppositeBase (P : Jacobian) : Prop :=
  (P.x - (baseX : Int) * P.z ^ 2) % fieldPrime = 0 ∧
    (P.y + (baseY : Int) * P.z ^ 3) % fieldPrime = 0

instance (P : Jacobian) : Decidable P.OppositeBase := inferInstanceAs (Decidable (_ ∧ _))

theorem multiple_order :
    (Jacobian.multiple (groupOrder - 1) 255).any (fun P => decide P.OppositeBase) = true := by
  decide +kernel

theorem Jacobian.OppositeBase.eq {P : Jacobian} {A : Secp} (h : P.OppositeBase) (hA : P.Is A) :
    A = -basePoint := by
  obtain ⟨hx, hy⟩ := h
  rw [← Int.dvd_iff_emod_eq_zero, ← ZMod.intCast_zmod_eq_zero_iff_dvd] at hx hy
  push_cast at hx hy
  have hbase := (represents_some base_nonsingular).scale hA.1
  rw [one_mul] at hbase
  obtain ⟨hz, X, Y, hXY, rfl, hX, hY⟩ := hA
  have hz2 := pow_ne_zero 2 hz
  have hz3 := pow_ne_zero 3 hz
  have hxeq : X = baseX := mul_right_cancel₀ hz2 (hX.symm.trans (sub_eq_zero.mp hx))
  have hyeq : Y = -(baseY : ZMod fieldPrime) := by
    refine mul_right_cancel₀ hz3 (hY.symm.trans ?_)
    linear_combination hy
  subst hxeq hyeq
  rw [basePoint, WeierstrassCurve.Affine.Point.neg_some,
    WeierstrassCurve.Affine.Point.some.injEq, negY_curve]
  exact ⟨rfl, rfl⟩

theorem order_nsmul_base : groupOrder • basePoint = 0 := by
  obtain ⟨P, hP, hopposite⟩ := (Option.any_eq_true _ _).mp multiple_order
  have htop : (groupOrder - 1) / 2 ^ 255 = 1 := by decide +kernel
  have hmultiple := (of_decide_eq_true hopposite).eq (Jacobian.is_multiple htop hP)
  have hsucc : groupOrder = groupOrder - 1 + 1 := by decide +kernel
  rw [hsucc, add_nsmul, one_nsmul, hmultiple, neg_add_cancel]

theorem base_ne_zero : basePoint ≠ 0 := WeierstrassCurve.Affine.Point.some_ne_zero _

theorem addOrderOf_base : addOrderOf basePoint = groupOrder :=
  addOrderOf_eq_prime order_nsmul_base base_ne_zero

theorem nsmul_base_eq_zero_iff (k : Nat) : k • basePoint = 0 ↔ groupOrder ∣ k := by
  rw [← addOrderOf_base, addOrderOf_dvd_iff_nsmul_eq_zero]

/-- Factors count modulo the order. -/
theorem nsmul_base_eq_iff (k l : Nat) :
    k • basePoint = l • basePoint ↔ k ≡ l [MOD groupOrder] := by
  rw [← addOrderOf_base, nsmul_eq_nsmul_iff_modEq]

end PrplHypervisor.UEcc
