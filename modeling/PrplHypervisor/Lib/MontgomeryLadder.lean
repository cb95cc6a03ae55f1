import PrplHypervisor.Lib.DoubleScalar

/-!
# Montgomery's ladder

Two multiples of `P` that differ by `P`: one becomes their sum and the other is doubled, as the
next bit of `m` says.

- `rung_succ`: the step, for a zero and for a one.
- `Climbs`: the two multiples are not opposite before bit `i` is read.
-/

namespace PrplHypervisor.MontgomeryLadder

variable {A : Type} [AddCommGroup A]

/-- The multiples for the bits from `i` on: the lower one, or the upper one. -/
def rung (P : A) (m i : Nat) (upper : Bool) : A := (m / 2 ^ i + upper.toNat) • P

def Climbs (P : A) (m i : Nat) : Prop := (2 * (m / 2 ^ (i + 1)) + 1) • P ≠ 0

variable {P : A} {m i : Nat}

theorem rung_add (b : Bool) :
    rung P m i b + rung P m i (!b) = (2 * (m / 2 ^ i) + 1) • P := by
  rw [rung, rung, ← add_nsmul]
  congr 1
  cases b
  · rw [Bool.not_false, Bool.toNat_false, Bool.toNat_true]
    omega
  · rw [Bool.not_true, Bool.toNat_false, Bool.toNat_true]
    omega

theorem climbs_iff (b : Bool) :
    Climbs P m i ↔ rung P m (i + 1) b ≠ -rung P m (i + 1) (!b) := by
  rw [Climbs, ← rung_add b, Ne, Ne, eq_neg_iff_add_eq_zero]

/-- The multiples differ by `P`. -/
theorem rung_sub (b : Bool) : rung P m i b - rung P m i (!b) = if b then P else -P := by
  cases b
  · simp [rung, add_nsmul]
  · simp [rung, add_nsmul]

theorem rung_ne (hP : P ≠ 0) (b : Bool) : rung P m i b ≠ rung P m i (!b) := by
  rw [Ne, ← sub_eq_zero, rung_sub]
  cases b
  · exact neg_ne_zero.mpr hP
  · exact hP

/-- The multiple the bit names is doubled, the other one is the sum. -/
theorem rung_succ {b : Bool} (hb : m.testBit i = b) :
    rung P m i b = rung P m (i + 1) b + rung P m (i + 1) b ∧
      rung P m i (!b) = rung P m (i + 1) b + rung P m (i + 1) (!b) := by
  have hdiv := DoubleScalar.div_two_pow m i
  rw [hb] at hdiv
  simp only [rung, ← add_nsmul]
  refine ⟨congrArg (· • P) ?_, congrArg (· • P) ?_⟩
  · omega
  · cases b
    · rw [Bool.not_false, Bool.toNat_false, Bool.toNat_true] at *
      omega
    · rw [Bool.not_true, Bool.toNat_false, Bool.toNat_true] at *
      omega

end PrplHypervisor.MontgomeryLadder
