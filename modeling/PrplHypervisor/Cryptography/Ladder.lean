import PrplHypervisor.Cryptography.PublicKey
import PrplHypervisor.Lib.MontgomeryLadder

/-!
# Multiples of a point (cryptography/uECC.c)

`EccPoint_mult` never compares points either. Where both points of the ladder are opposite, the
next one is `(0, 0)`, which the formulas take for a point of `y ^ 2 = x ^ 3`; they stay on that
curve, and the result is `(0, 0)`.

- `Rungs`: the invariant of the loop, with both ways it can go.
- `eccPointMult_spec`: the multiple, or `(0, 0)`.
-/

namespace PrplHypervisor.UEcc

open Limbs Ledger JacobianPoint MontgomeryLadder

variable {w : Nat}

/-- `R[index]`. -/
def pick (index : Bool) (R : EccPoint w × EccPoint w) : EccPoint w := if index then R.2 else R.1

/-- `R[nb]` and `R[1 - nb]`. -/
def place (nb : Bool) (P Q : EccPoint w) : EccPoint w × EccPoint w := if nb then (Q, P) else (P, Q)

/-- One round of the loop. -/
def ladderRound (c : Curve w) (scalar : Vli w) (R : EccPoint w × EccPoint w) (i : Nat) :
    Run (EccPoint w × EccPoint w) := do
  let nb := !vliTestBit scalar i
  let addC ← xyczAddC c (pick (!nb) R) (pick nb R)
  let add ← xyczAdd c addC.2 addC.1
  return place nb add.1 add.2

/-- The inverse of the last denominator. -/
def finalZ (c : Curve w) (point : EccPoint w) (R : EccPoint w × EccPoint w) (nb : Bool) :
    Run (Vli w) := do
  let z := vliModSub R.2.x R.1.x c.p
  let z ← modMultFast c z (pick (!nb) R).y
  let z ← modMultFast c z point.x
  let z := vliModInv z c.p
  let z ← modMultFast c z point.y
  modMultFast c z (pick (!nb) R).x

/-- `EccPoint_mult`; the loop ends before bit 0. -/
def eccPointMult (c : Curve w) (point : EccPoint w) (scalar : Vli w) (initialZ : Option (Vli w))
    (numBits : Nat) : Run (EccPoint w) := do
  let double ← xyczInitialDouble c point initialZ
  let R ← (List.range (numBits - 2)).reverse.foldlM (fun R i => ladderRound c scalar R (i + 1))
    (double.2, double.1)
  let nb := !vliTestBit scalar 0
  let addC ← xyczAddC c (pick (!nb) R) (pick nb R)
  let z ← finalZ c point (place nb addC.2 addC.1) nb
  let add ← xyczAdd c addC.2 addC.1
  applyZ c (place nb add.1 add.2).1 z

@[simp]
theorem pick_place (nb : Bool) (P Q : EccPoint w) : pick nb (place nb P Q) = P := by
  cases nb <;> rfl

@[simp]
theorem pick_place_not (nb : Bool) (P Q : EccPoint w) : pick (!nb) (place nb P Q) = Q := by
  cases nb <;> rfl

theorem pick_place_other (b : Bool) (P Q : EccPoint w) : pick b (place (!b) P Q) = Q := by
  cases b <;> rfl

/-! ## Off the curve -/

section Cusp

variable {c : Curve w} {P Q : EccPoint w} {x y : ZMod fieldPrime}

/-- Words of `(0, 0)`. -/
def Origin (c : Curve w) (P : EccPoint w) : Prop := RepPoint c P 0 0

/-- Words of a point of `y ^ 2 = x ^ 3`. -/
def Cusp (c : Curve w) (P : EccPoint w) : Prop := ∃ x y, RepPoint c P x y ∧ y ^ 2 = x ^ 3

theorem Origin.cusp (h : Origin c P) : Cusp c P := ⟨0, 0, h, by ring⟩

/-- Opposite points have no difference. -/
theorem addC_opposite (hc : IsSecp256k1 c) (hP : RepPoint c P x y) (hQ : RepPoint c Q x (-y)) :
    Ensures Exact (xyczAddC c P Q) fun R => Origin c R.1 ∧ Cusp c R.2 := by
  refine (hP.addC hc hQ).mono fun R hR => ?_
  obtain ⟨⟨x₃, y₃, hR₁, hx₃, hy₃⟩, x₄, y₄, hR₂, hx₄, hy₄⟩ := hR
  have hx : x₃ = 0 := by rw [hx₃]; ring
  have hx' : x₄ = 4 * y ^ 2 := by rw [hx₄]; ring
  refine ⟨hR₁.congr hx ?_, x₄, y₄, hR₂, ?_⟩
  · rw [hy₃, hx]
    ring
  · rw [hy₄, hx']
    ring

theorem addC_origin (hc : IsSecp256k1 c)
    (h : Origin c P ∧ Cusp c Q ∨ Cusp c P ∧ Origin c Q) :
    Ensures Exact (xyczAddC c P Q) fun R => Origin c R.1 ∧ Origin c R.2 := by
  obtain ⟨hP, u, v, hQ, huv⟩ | ⟨⟨u, v, hP, huv⟩, hQ⟩ := h
  · refine (RepPoint.addC hc hP hQ).mono fun R hR => ?_
    obtain ⟨⟨x₃, y₃, hR₁, hx₃, hy₃⟩, x₄, y₄, hR₂, hx₄, hy₄⟩ := hR
    have hx : x₃ = 0 := by rw [hx₃]; linear_combination huv
    have hx' : x₄ = 0 := by rw [hx₄]; linear_combination huv
    refine ⟨hR₁.congr hx ?_, hR₂.congr hx' ?_⟩
    · rw [hy₃, hx]
      ring
    · rw [hy₄, hx']
      ring
  · refine (RepPoint.addC hc hP hQ).mono fun R hR => ?_
    obtain ⟨⟨x₃, y₃, hR₁, hx₃, hy₃⟩, x₄, y₄, hR₂, hx₄, hy₄⟩ := hR
    have hx : x₃ = 0 := by rw [hx₃]; linear_combination huv
    have hx' : x₄ = 0 := by rw [hx₄]; linear_combination huv
    refine ⟨hR₁.congr hx ?_, hR₂.congr hx' ?_⟩
    · rw [hy₃, hx]
      ring
    · rw [hy₄, hx']
      ring

theorem add_origin (hc : IsSecp256k1 c) (hP : Cusp c P) (hQ : Origin c Q) :
    Ensures Exact (xyczAdd c P Q) fun R => Cusp c R.1 ∧ Origin c R.2 := by
  obtain ⟨u, v, hP, huv⟩ := hP
  refine (RepPoint.add hc hP hQ).mono fun R hR => ?_
  obtain ⟨hR₁, x₃, y₃, hR₂, hx₃, hy₃⟩ := hR
  have hx : x₃ = 0 := by rw [hx₃]; linear_combination huv
  refine ⟨⟨_, _, hR₁, ?_⟩, hR₂.congr hx ?_⟩
  · linear_combination u ^ 6 * huv
  · rw [hy₃, hx]
    ring

end Cusp

/-! ## The loop -/

section Rungs

variable {c : Curve w} {R : EccPoint w × EccPoint w} {scalar : Vli w} {A : Secp} {m i : Nat}

/-- Every rung from `i` on is a step up. -/
def ClimbsFrom (A : Secp) (m numBits i : Nat) : Prop :=
  ∀ j, i ≤ j → j + 1 < numBits → Climbs A m j

/-- Before round `i - 1` the state is two multiples, or it has left the curve. -/
def Rungs (c : Curve w) (A : Secp) (m numBits i : Nat) (R : EccPoint w × EccPoint w) : Prop :=
  (ClimbsFrom A m numBits i ∧ ∃ z, ∀ upper, Holds c (pick upper R) z (rung A m i upper)) ∨
    (¬ClimbsFrom A m numBits i ∧
      ∃ index, Origin c (pick index R) ∧ Cusp c (pick (!index) R))

theorem ClimbsFrom.step {numBits : Nat} (hi : i + 1 < numBits) :
    ClimbsFrom A m numBits i ↔ ClimbsFrom A m numBits (i + 1) ∧ Climbs A m i := by
  constructor
  · intro h
    exact ⟨fun j hj => h j (Nat.le_of_succ_le hj), h i (Nat.le_refl i) hi⟩
  · rintro ⟨h, hclimbs⟩ j hj hlt
    obtain rfl | hne := Nat.eq_or_lt_of_le hj
    · exact hclimbs
    · exact h j hne hlt

/-- Opposite points in words of one denominator. -/
theorem Holds.opposite {P Q : EccPoint w} {z : ZMod fieldPrime} (hP : Holds c P z A)
    (hQ : Holds c Q z (-A)) : ∃ x y, RepPoint c P x y ∧ RepPoint c Q x (-y) := by
  obtain ⟨x, y, hxy, hA⟩ := hP
  obtain ⟨x', y', hxy', hA'⟩ := hQ
  obtain ⟨rfl, rfl⟩ := hA.neg.unique hA'
  exact ⟨x, y, hxy, hxy'⟩

/-- The sum and the difference are different and not opposite: nothing is its own inverse. -/
theorem add_ne_sub {A B : Secp} (hA : A ≠ 0) (hB : B ≠ 0) :
    A + B ≠ A - B ∧ A + B ≠ -(A - B) := by
  constructor
  · intro h
    refine Secp.double_ne_zero hB ?_
    rw [sub_eq_add_neg, add_right_inj] at h
    exact add_eq_zero_iff_eq_neg.mpr h
  · intro h
    refine Secp.double_ne_zero hA ?_
    rw [neg_sub, sub_eq_neg_add, add_left_inj] at h
    exact add_eq_zero_iff_eq_neg.mpr h

/-- Where the round puts its two points. -/
theorem place_rungs {P Q : EccPoint w} {z : ZMod fieldPrime} {b : Bool} (hb : m.testBit i = b)
    (hP : Holds c P z (rung A m (i + 1) b + rung A m (i + 1) (!b)))
    (hQ : Holds c Q z (rung A m (i + 1) b + rung A m (i + 1) (!b) +
      (rung A m (i + 1) b - rung A m (i + 1) (!b)))) (upper : Bool) :
    Holds c (pick upper (place (!b) P Q)) z (rung A m i upper) := by
  obtain ⟨hdouble, hrung⟩ := rung_succ (P := A) hb
  obtain rfl | rfl : upper = b ∨ upper = !b := by cases upper <;> cases b <;> simp
  · rw [pick_place_other]
    exact hQ.congr rfl (by rw [hdouble]; abel)
  · rw [pick_place]
    exact hP.congr rfl hrung.symm

/-- Points that are opposite, or off the curve, leave it. -/
theorem addC_off (hc : IsSecp256k1 c) {z : ZMod fieldPrime} {b : Bool}
    (h : (Holds c (pick b R) z (rung A m (i + 1) b) ∧
        Holds c (pick (!b) R) z (rung A m (i + 1) (!b)) ∧ ¬Climbs A m i) ∨
      ∃ index, Origin c (pick index R) ∧ Cusp c (pick (!index) R)) :
    Ensures Exact (xyczAddC c (pick b R) (pick (!b) R)) fun S => Origin c S.1 ∧ Cusp c S.2 := by
  obtain ⟨hup, hother, hclimb⟩ | ⟨index, horigin, hcusp⟩ := h
  · have hneg : rung A m (i + 1) (!b) = -rung A m (i + 1) b := by
      rw [climbs_iff b, not_not] at hclimb
      rw [hclimb, neg_neg]
    obtain ⟨x, y, hx, hy⟩ := hup.opposite (hother.congr rfl hneg)
    exact addC_opposite hc hx hy
  · have heither : Origin c (pick b R) ∧ Cusp c (pick (!b) R) ∨
        Cusp c (pick b R) ∧ Origin c (pick (!b) R) := by
      obtain rfl | rfl : index = b ∨ index = !b := by cases index <;> cases b <;> simp
      · exact .inl ⟨horigin, hcusp⟩
      · rw [Bool.not_not] at hcusp
        exact .inr ⟨hcusp, horigin⟩
    exact (addC_origin hc heither).mono fun S hS => ⟨hS.1, hS.2.cusp⟩

theorem ladderRound_rungs (hc : IsSecp256k1 c) (hA : A ≠ 0) {numBits : Nat} (hi : i + 1 < numBits)
    (hbit : (value scalar).testBit i = m.testBit i) (hR : Rungs c A m numBits (i + 1) R) :
    Ensures Exact (ladderRound c scalar R i) (Rungs c A m numBits i) := by
  unfold ladderRound
  rw [vliTestBit_eq hc.pos.1, hbit]
  generalize hb : m.testBit i = b
  simp only [Bool.not_not]
  have hoff : ¬ClimbsFrom A m numBits i →
      Ensures Exact (xyczAddC c (pick b R) (pick (!b) R)) (fun S => Origin c S.1 ∧ Cusp c S.2) →
      Ensures Exact (do
        let addC ← xyczAddC c (pick b R) (pick (!b) R)
        let add ← xyczAdd c addC.2 addC.1
        return place (!b) add.1 add.2) (Rungs c A m numBits i) := by
    intro hnot haddC
    refine haddC.bind fun S hS => (add_origin hc hS.2 hS.1).bind fun T hT => ?_
    refine ensures_pure (.inr ⟨hnot, b, ?_⟩)
    rw [pick_place_other, pick_place]
    exact ⟨hT.2, hT.1⟩
  obtain ⟨hclimbs, z, hholds⟩ | ⟨hlost, hleft⟩ := hR
  · by_cases hclimb : Climbs A m i
    · have hup := hholds b
      have hother := hholds (!b)
      refine (hup.addC hc hother (rung_ne hA b) ((climbs_iff b).mp hclimb)).bind fun S hS => ?_
      obtain ⟨z', hdiff, hsum⟩ := hS
      obtain ⟨hne, hneg⟩ := add_ne_sub hup.ne_zero hother.ne_zero
      obtain ⟨d, -, -, hadd⟩ := hsum.add hc hdiff hne hneg
      refine hadd.bind fun T hT => ensures_pure (.inl ⟨?_, z' * d, place_rungs hb hT.1 hT.2⟩)
      exact (ClimbsFrom.step hi).mpr ⟨hclimbs, hclimb⟩
    · refine hoff ?_ (addC_off hc (.inl ⟨hholds b, hholds (!b), hclimb⟩))
      exact fun hall => hclimb ((ClimbsFrom.step hi).mp hall).2
  · refine hoff ?_ (addC_off (z := 0) (A := A) (m := m) (i := i) hc (.inr hleft))
    exact fun hall => hlost ((ClimbsFrom.step hi).mp hall).1

end Rungs

/-! ## The last bit -/

section Last

variable {c : Curve w} {point S D : EccPoint w} {A B : Secp} {z d X Y : ZMod fieldPrime}

theorem Rep.unique {xs : Vli w} {x y : ZMod fieldPrime} (h : Rep c xs x) (h' : Rep c xs y) :
    x = y := h.cast.symm.trans h'.cast

/-- From the difference of both points, which is the point or its opposite. -/
theorem finalZ_spec (hc : IsSecp256k1 c) (hpoint : RepPoint c point X Y) (hX : X ≠ 0)
    (hXY : (curve (7 : ZMod fieldPrime)).Nonsingular X Y) {b : Bool} (hz : z ≠ 0)
    (hD : Holds c D z (if b then .some X Y hXY else -.some X Y hXY)) (hS : Holds c S z B)
    (hd : d ≠ 0) (hdiff : Rep c (vliModSub D.x S.x c.p) d) :
    Ensures Exact (finalZ c point (place (!b) S D) (!b)) fun Z => Rep c Z (z * d)⁻¹ := by
  have hY : Y ≠ 0 := y_ne_zero hXY.1
  have hscale := (represents_some hXY).scale hz
  rw [one_mul] at hscale
  obtain ⟨x₁, y₁, h₁, hrep⟩ := hD
  obtain ⟨x₂, y₂, h₂, -⟩ := hS
  have hsub : x₁ - x₂ = d := (h₁.x.sub hc h₂.x).unique hdiff
  unfold finalZ
  rw [pick_place_not]
  cases b with
  | false =>
    obtain ⟨rfl, rfl⟩ := hscale.neg.unique hrep
    have hback : Rep c (vliModSub S.x D.x c.p) (-d) :=
      (h₂.x.sub hc h₁.x).congr (by rw [← hsub, neg_sub])
    refine (hback.mul hc h₁.y).bind fun v hv => ?_
    refine (hv.mul hc hpoint.x).bind fun v hv => ?_
    refine ((hv.inv hc).mul hc hpoint.y).bind fun v hv => ?_
    refine (hv.mul hc h₁.x).mono fun Z hZ => hZ.congr ?_
    field_simp
  | true =>
    obtain ⟨rfl, rfl⟩ := hscale.unique hrep
    refine (hdiff.mul hc h₁.y).bind fun v hv => ?_
    refine (hv.mul hc hpoint.x).bind fun v hv => ?_
    refine ((hv.inv hc).mul hc hpoint.y).bind fun v hv => ?_
    refine (hv.mul hc h₁.x).mono fun Z hZ => hZ.congr ?_
    field_simp

/-- Off the curve the last denominator comes out as zero. -/
theorem finalZ_origin (hc : IsSecp256k1 c) (hpoint : RepPoint c point X Y) (b : Bool)
    (hD : Origin c D) (hS : Cusp c S) :
    Ensures Exact (finalZ c point (place (!b) S D) (!b)) fun Z => Rep c Z 0 := by
  obtain ⟨x, y, hS, -⟩ := hS
  have hfirst : ∃ v, Rep c (vliModSub (place (!b) S D).2.x (place (!b) S D).1.x c.p) v := by
    cases b with
    | false => exact ⟨_, hS.x.sub hc hD.x⟩
    | true => exact ⟨_, hD.x.sub hc hS.x⟩
  obtain ⟨v, hv⟩ := hfirst
  unfold finalZ
  rw [pick_place_not]
  refine (hv.mul hc hD.y).bind fun v hv => ?_
  refine (hv.mul hc hpoint.x).bind fun v hv => ?_
  refine ((hv.inv hc).mul hc hpoint.y).bind fun v hv => ?_
  exact (hv.mul hc hD.x).mono fun Z hZ => hZ.congr (mul_zero _)

end Last

/-! ## The multiple -/

section Multiple

variable {c : Curve w} {point : EccPoint w} {A : Secp} {scalar : Vli w} {m numBits : Nat}

theorem xyczInitialDouble_spec (hc : IsSecp256k1 c) (hpoint : Holds c point 1 A)
    {initialZ : Option (Vli w)} (hinitial : ∀ Z ∈ initialZ, ∃ t, t ≠ 0 ∧ Rep c Z t) :
    Ensures Exact (xyczInitialDouble c point initialZ) fun R =>
      ∃ z, Holds c R.1 z (A + A) ∧ Holds c R.2 z A := by
  have hstart : ∃ t, t ≠ 0 ∧ Rep c (initialZ.getD ((vliClear w c.numWords).set 0 1)) t := by
    cases initialZ with
    | none => exact ⟨1, one_ne_zero, rep_one hc⟩
    | some Z => exact hinitial Z rfl
  obtain ⟨t, ht, hZ⟩ := hstart
  unfold xyczInitialDouble
  refine (hpoint.applyZ hc hZ ht).bind fun first hfirst => ?_
  refine ((hfirst.congr (one_mul t) rfl).double hc hZ).bind fun R hR => ?_
  obtain ⟨z, hz, hdouble⟩ := hR
  refine (hpoint.applyZ hc hz hdouble.z_ne_zero).bind fun second hsecond => ?_
  exact ensures_pure ⟨z, hdouble, hsecond.congr (one_mul z) rfl⟩

/-- The bits below the highest one are those of the scalar. -/
structure Regularized (scalar : Vli w) (m numBits : Nat) : Prop where
  bits : m.size = numBits
  enough : 2 ≤ numBits
  low : ∀ i, i + 1 < numBits → (value scalar).testBit i = m.testBit i

/-- The multiple in affine coordinates if every rung is a step up, else `(0, 0)`. -/
theorem eccPointMult_spec (hc : IsSecp256k1 c) (hpoint : Holds c point 1 A)
    (hx : value point.x ≠ 0) {initialZ : Option (Vli w)}
    (hinitial : ∀ Z ∈ initialZ, ∃ t, t ≠ 0 ∧ Rep c Z t) (hscalar : Regularized scalar m numBits) :
    Ensures Exact (eccPointMult c point scalar initialZ numBits) fun R =>
      (ClimbsFrom A m numBits 0 ∧ Holds c R 1 (m • A)) ∨
        (¬ClimbsFrom A m numBits 0 ∧ Origin c R) := by
  obtain ⟨hsize, henough, hlow⟩ := hscalar
  have hA := hpoint.ne_zero
  obtain ⟨X, Y, hXY, hrep, hAX⟩ := hpoint.affine
  have hX : X ≠ 0 := fun h => hx (by rw [← hrep.x.val, h, ZMod.val_zero])
  unfold eccPointMult
  refine (xyczInitialDouble_spec hc hpoint hinitial).bind fun first hfirst => ?_
  obtain ⟨z, hdouble, hsingle⟩ := hfirst
  -- the highest bit is set
  have htop : m / 2 ^ (numBits - 1) = 1 := by
    have hge := Nat.lt_size.mp (show numBits - 1 < m.size by omega)
    have hlt := Nat.size_le.mp (Nat.le_of_eq hsize)
    rw [show numBits = numBits - 1 + 1 by omega, Nat.pow_succ] at hlt
    exact Nat.div_eq_of_lt_le (by omega) (by omega)
  have hinit : Rungs c A m numBits (numBits - 2 + 1) (first.2, first.1) := by
    refine .inl ⟨fun j hj hlt => absurd hlt (by omega), z, fun upper => ?_⟩
    rw [rung, show numBits - 2 + 1 = numBits - 1 by omega, htop]
    cases upper with
    | false => exact hsingle.congr rfl (one_nsmul _).symm
    | true => exact hdouble.congr rfl (two_nsmul _).symm
  have hloop : Ensures Exact ((List.range (numBits - 2)).reverse.foldlM
      (fun R i => ladderRound c scalar R (i + 1)) (first.2, first.1))
      (Rungs c A m numBits 1) := by
    refine ensures_countdown (fun i => Rungs c A m numBits (i + 1))
      (fun i hi R hR => ?_) hinit
    exact ladderRound_rungs hc hA (by omega) (hlow (i + 1) (by omega)) hR
  refine hloop.bind fun R hR => ?_
  rw [vliTestBit_eq hc.pos.1, hlow 0 (by omega)]
  generalize hb : m.testBit 0 = b
  simp only [Bool.not_not]
  have hone : 0 + 1 < numBits := by omega
  have hoff : ¬ClimbsFrom A m numBits 0 →
      Ensures Exact (xyczAddC c (pick b R) (pick (!b) R)) (fun S => Origin c S.1 ∧ Cusp c S.2) →
      Ensures Exact (do
        let addC ← xyczAddC c (pick b R) (pick (!b) R)
        let z ← finalZ c point (place (!b) addC.2 addC.1) (!b)
        let add ← xyczAdd c addC.2 addC.1
        applyZ c (place (!b) add.1 add.2).1 z) fun R =>
          (ClimbsFrom A m numBits 0 ∧ Holds c R 1 (m • A)) ∨
            (¬ClimbsFrom A m numBits 0 ∧ Origin c R) := by
    intro hnot haddC
    refine haddC.bind fun S hS => (finalZ_origin hc hrep b hS.1 hS.2).bind fun Z hZ => ?_
    refine (add_origin hc hS.2 hS.1).bind fun T hT => ?_
    obtain ⟨⟨x₁, y₁, hT₁, -⟩, hT₂⟩ := hT
    have hfirst : ∃ x y, RepPoint c (place (!b) T.1 T.2).1 x y := by
      cases b with
      | false => exact ⟨0, 0, hT₂⟩
      | true => exact ⟨x₁, y₁, hT₁⟩
    obtain ⟨x, y, hxy⟩ := hfirst
    refine (hxy.applyZ hc hZ).mono fun R hR => .inr ⟨hnot, hR.congr ?_ ?_⟩
    · ring
    · ring
  obtain ⟨hclimbs, z, hholds⟩ | ⟨hlost, hleft⟩ := hR
  · by_cases hclimb : Climbs A m 0
    · have hup := hholds b
      have hother := hholds (!b)
      refine (hup.addC hc hother (rung_ne hA b) ((climbs_iff b).mp hclimb)).bind fun S hS => ?_
      obtain ⟨z', hdiff, hsum⟩ := hS
      obtain ⟨hne, hneg⟩ := add_ne_sub hup.ne_zero hother.ne_zero
      obtain ⟨d, hd, hd', hadd⟩ := hsum.add hc hdiff hne hneg
      have hstep := hdiff.congr rfl ((rung_sub b).trans (by rw [hAX]))
      refine (finalZ_spec hc hrep hX hXY hdiff.z_ne_zero hstep hsum hd hd').bind fun Z hZ => ?_
      refine hadd.bind fun T hT => ?_
      have hresult := place_rungs hb hT.1 hT.2 false
      have hne' := hresult.z_ne_zero
      refine (hresult.applyZ hc hZ (inv_ne_zero hne')).mono fun R hR => .inl ⟨?_, ?_⟩
      · exact (ClimbsFrom.step hone).mpr ⟨hclimbs, hclimb⟩
      · refine hR.congr (mul_inv_cancel₀ hne') ?_
        rw [rung, Nat.pow_zero, Nat.div_one, Bool.toNat_false, Nat.add_zero]
    · refine hoff ?_ (addC_off hc (.inl ⟨hholds b, hholds (!b), hclimb⟩))
      exact fun hall => hclimb ((ClimbsFrom.step hone).mp hall).2
  · refine hoff ?_ (addC_off (z := 0) (A := A) (m := m) (i := 0) hc (.inr hleft))
    exact fun hall => hlost ((ClimbsFrom.step hone).mp hall).1

end Multiple

end PrplHypervisor.UEcc
