import Mathlib.Algebra.Group.Nat.Even
import Mathlib.Algebra.Module.NatInt
import Mathlib.Data.Nat.Size
import Mathlib.Tactic.Abel

/-!
# Two multiples at once

`u • P + v • Q` from the highest bits of `u` and `v` on: the sum so far is doubled and `P`, `Q` or
`P + Q` is added, whichever the next bits ask for.

- `partialSum_succ`: the step.
- `Regular`: a formula for the sum of different points that are not opposite applies in the step.
-/

namespace PrplHypervisor.DoubleScalar

variable {A : Type} [AddCommGroup A]

/-- The sum for the bits from `i` on. -/
def partialSum (P Q : A) (u v i : Nat) : A := (u / 2 ^ i) • P + (v / 2 ^ i) • Q

/-- What bit `i` adds. -/
def term (P Q : A) (u v i : Nat) : A := (u.testBit i).toNat • P + (v.testBit i).toNat • Q

/-- A bit is set, and what it adds is neither the double nor its opposite. -/
def Regular (P Q : A) (u v i : Nat) : Prop :=
  u.testBit i ∨ v.testBit i →
    term P Q u v i ≠ partialSum P Q u v (i + 1) + partialSum P Q u v (i + 1) ∧
      term P Q u v i ≠ -(partialSum P Q u v (i + 1) + partialSum P Q u v (i + 1))

variable {P Q : A} {u v i : Nat}

theorem partialSum_zero : partialSum P Q u v 0 = u • P + v • Q := by
  rw [partialSum, Nat.pow_zero, Nat.div_one, Nat.div_one]

theorem div_two_pow (n i : Nat) : n / 2 ^ i = 2 * (n / 2 ^ (i + 1)) + (n.testBit i).toNat := by
  rw [Nat.pow_succ, ← Nat.div_div_eq_div_mul, Nat.toNat_testBit]
  exact (Nat.div_add_mod (n / 2 ^ i) 2).symm

theorem partialSum_succ : partialSum P Q u v i =
    partialSum P Q u v (i + 1) + partialSum P Q u v (i + 1) + term P Q u v i := by
  unfold partialSum term
  rw [div_two_pow u, div_two_pow v, add_nsmul, add_nsmul, mul_nsmul', mul_nsmul', two_nsmul,
    two_nsmul]
  abel

/-- Nothing is added for two zeros. -/
theorem term_of_not (h : ¬(u.testBit i ∨ v.testBit i)) : term P Q u v i = 0 := by
  rw [not_or, Bool.not_eq_true, Bool.not_eq_true] at h
  rw [term, h.1, h.2, Bool.toNat_false, zero_nsmul, zero_nsmul, add_zero]

/-- The sum starts with what the highest bit adds. -/
theorem partialSum_top {bits : Nat} (hu : u.size ≤ bits + 1) (hv : v.size ≤ bits + 1) :
    partialSum P Q u v bits = term P Q u v bits := by
  have hu' : u / 2 ^ (bits + 1) = 0 := Nat.div_eq_of_lt (Nat.size_le.mp hu)
  have hv' : v / 2 ^ (bits + 1) = 0 := Nat.div_eq_of_lt (Nat.size_le.mp hv)
  rw [partialSum, term, div_two_pow u, div_two_pow v, hu', hv', Nat.mul_zero, Nat.zero_add,
    Nat.zero_add]

/-- One of the two has the highest bit. -/
theorem testBit_top (h : 0 < max u.size v.size) :
    u.testBit (max u.size v.size - 1) ∨ v.testBit (max u.size v.size - 1) := by
  have hbit : ∀ n : Nat, 0 < n.size → n.testBit (n.size - 1) = true := by
    intro n hn
    have hge : 2 ^ (n.size - 1) ≤ n := Nat.lt_size.mp (Nat.sub_lt hn Nat.one_pos)
    have hlt := Nat.lt_size_self n
    obtain ⟨k, hk⟩ : ∃ k, n.size = k + 1 := ⟨n.size - 1, by omega⟩
    rw [hk, Nat.add_sub_cancel] at hge ⊢
    rw [hk, Nat.pow_succ] at hlt
    rw [Nat.testBit_eq_decide_div_mod_eq, decide_eq_true_iff]
    have hdiv : n / 2 ^ k = 1 := Nat.div_eq_of_lt_le (by omega) (by omega)
    rw [hdiv]
  obtain hle | hlt := Nat.le_total v.size u.size
  · rw [Nat.max_eq_left hle] at h ⊢
    exact .inl (hbit u h)
  · rw [Nat.max_eq_right hlt] at h ⊢
    exact .inr (hbit v h)

end PrplHypervisor.DoubleScalar
