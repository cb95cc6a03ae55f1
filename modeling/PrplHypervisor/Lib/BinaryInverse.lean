import Mathlib.Data.Nat.ModEq
import Mathlib.Data.Nat.Prime.Basic
import Mathlib.Data.Nat.Size

/-!
# The binary extended Euclidean algorithm

`step` halves or subtracts `a` and `b`; `u` and `v` keep the congruences `u * x ≡ a` and
`v * x ≡ b` modulo an odd `m`. Only halves are taken, so no number outgrows `m`.

- `Inv.step`: the invariant, and the bits of `a` and `b` become fewer.
- `Inv.result`: when `a` and `b` are equal they are the greatest common divisor.
-/

namespace PrplHypervisor.BinaryInverse

structure State where
  a : Nat
  b : Nat
  u : Nat
  v : Nat

/-- Half of `u` modulo an odd `m`. -/
def half (m u : Nat) : Nat := if u % 2 = 0 then u / 2 else (u + m) / 2

/-- The difference modulo `m` of two reduced numbers. -/
def sub (m u v : Nat) : Nat := if u < v then u + m - v else u - v

def step (m : Nat) (s : State) : State :=
  if s.a % 2 = 0 then { s with a := s.a / 2, u := half m s.u }
  else if s.b % 2 = 0 then { s with b := s.b / 2, v := half m s.v }
  else if s.b < s.a then { s with a := (s.a - s.b) / 2, u := half m (sub m s.u s.v) }
  else { s with b := (s.b - s.a) / 2, v := half m (sub m s.v s.u) }

/-- `u` stands for `a / x` modulo `m`. -/
def Quotient (m x a u : Nat) : Prop := u < m ∧ u * x ≡ a [MOD m]

structure Inv (m x : Nat) (s : State) : Prop where
  odd : m % 2 = 1
  aPos : 0 < s.a
  bPos : 0 < s.b
  gcd : s.a.gcd s.b = x.gcd m
  left : Quotient m x s.a s.u
  right : Quotient m x s.b s.v

/-- Every step takes a bit from one of the two. -/
def bits (s : State) : Nat := s.a.size + s.b.size

section Quotient

variable {m x a b u v : Nat}

theorem double_half (hodd : m % 2 = 1) (u : Nat) : 2 * half m u ≡ u [MOD m] := by
  unfold half
  split
  · rw [Nat.mul_div_cancel' (Nat.dvd_of_mod_eq_zero ‹_›)]
  · rw [Nat.mul_div_cancel' (Nat.dvd_of_mod_eq_zero (by omega))]
    exact Nat.add_modEq_right

theorem half_lt (h : u < m) : half m u < m := by
  unfold half
  split
  · omega
  · omega

theorem Quotient.half (hodd : m % 2 = 1) (h : Quotient m x a u) (ha : a % 2 = 0) :
    Quotient m x (a / 2) (half m u) := by
  obtain ⟨hlt, hcongr⟩ := h
  have hcoprime : m.gcd 2 = 1 := by
    rw [Nat.gcd_comm]
    exact Nat.coprime_two_left.mpr (Nat.odd_iff.mpr hodd)
  refine ⟨half_lt hlt, Nat.ModEq.cancel_left_of_coprime hcoprime ?_⟩
  rw [Nat.mul_div_cancel' (Nat.dvd_of_mod_eq_zero ha), ← Nat.mul_assoc]
  exact ((double_half hodd u).mul_right x).trans hcongr

theorem Quotient.sub (hu : Quotient m x a u) (hv : Quotient m x b v) (hle : b ≤ a) :
    Quotient m x (a - b) (sub m u v) := by
  obtain ⟨hult, hucongr⟩ := hu
  obtain ⟨hvlt, hvcongr⟩ := hv
  have hsum : BinaryInverse.sub m u v + v ≡ u [MOD m] := by
    unfold BinaryInverse.sub
    split
    · rw [Nat.sub_add_cancel (by omega)]
      exact Nat.add_modEq_right
    · rw [Nat.sub_add_cancel (by omega)]
  refine ⟨?_, ?_⟩
  · unfold BinaryInverse.sub
    split
    · omega
    · omega
  · refine Nat.ModEq.add_right_cancel hvcongr ?_
    rw [← Nat.add_mul, Nat.sub_add_cancel hle]
    exact (hsum.mul_right x).trans hucongr

end Quotient

theorem size_half_lt {a c : Nat} (ha : 0 < a) (hc : c ≤ a / 2) : c.size < a.size := by
  have hlt := Nat.lt_size_self a
  have hpos := Nat.size_pos.mpr ha
  obtain ⟨n, hn⟩ : ∃ n, a.size = n + 1 := ⟨a.size - 1, by omega⟩
  rw [hn, Nat.pow_succ] at hlt
  rw [hn]
  exact Nat.lt_succ_of_le (Nat.size_le.mpr (by omega))

/-- An odd number does not see a factor of two. -/
theorem gcd_half {a b : Nat} (ha : a % 2 = 0) (hb : b % 2 = 1) : (a / 2).gcd b = a.gcd b := by
  have hcoprime : Nat.Coprime 2 b := Nat.coprime_two_left.mpr (Nat.odd_iff.mpr hb)
  conv_rhs => rw [← Nat.mul_div_cancel' (Nat.dvd_of_mod_eq_zero ha)]
  rw [hcoprime.gcd_mul_left_cancel]

section Step

variable {m x : Nat} {s : State}

/-- The greatest common divisor is odd, so one of the two is. -/
theorem Inv.not_both_even (h : Inv m x s) (ha : s.a % 2 = 0) : s.b % 2 = 1 := by
  by_contra hb
  have hdvd : 2 ∣ s.a.gcd s.b :=
    Nat.dvd_gcd (Nat.dvd_of_mod_eq_zero ha) (Nat.dvd_of_mod_eq_zero (by omega))
  rw [h.gcd] at hdvd
  have := Nat.mod_eq_zero_of_dvd (hdvd.trans (Nat.gcd_dvd_right x m))
  have := h.odd
  omega

theorem Inv.step (h : Inv m x s) (hne : s.a ≠ s.b) :
    Inv m x (step m s) ∧ bits (step m s) < bits s := by
  obtain ⟨hodd, ha, hb, hgcd, hleft, hright⟩ := h
  unfold BinaryInverse.step
  split
  · have hbodd := Inv.not_both_even ⟨hodd, ha, hb, hgcd, hleft, hright⟩ ‹_›
    refine ⟨⟨hodd, ?_, hb, ?_, hleft.half hodd ‹_›, hright⟩, ?_⟩
    · exact Nat.div_pos (by omega) Nat.two_pos
    · exact (gcd_half ‹_› hbodd).trans hgcd
    · exact Nat.add_lt_add_right (size_half_lt ha (Nat.le_refl _)) _
  split
  · refine ⟨⟨hodd, ha, ?_, ?_, hleft, hright.half hodd ‹_›⟩, ?_⟩
    · exact Nat.div_pos (by omega) Nat.two_pos
    · rw [← hgcd, Nat.gcd_comm s.a, Nat.gcd_comm s.a]
      exact gcd_half ‹_› (by omega)
    · exact Nat.add_lt_add_left (size_half_lt hb (Nat.le_refl _)) _
  split
  · have heven : (s.a - s.b) % 2 = 0 := by omega
    refine ⟨⟨hodd, ?_, hb, ?_, (hleft.sub hright (by omega)).half hodd heven, hright⟩, ?_⟩
    · exact Nat.div_pos (by omega) Nat.two_pos
    · rw [← hgcd]
      exact (gcd_half heven (show s.b % 2 = 1 by omega)).trans
        (Nat.gcd_sub_self_left (show s.b ≤ s.a by omega))
    · exact Nat.add_lt_add_right (size_half_lt ha (Nat.div_le_div_right (Nat.sub_le _ _))) _
  · have heven : (s.b - s.a) % 2 = 0 := by omega
    refine ⟨⟨hodd, ha, ?_, ?_, hleft, (hright.sub hleft (by omega)).half hodd heven⟩, ?_⟩
    · exact Nat.div_pos (by omega) Nat.two_pos
    · rw [← hgcd, Nat.gcd_comm s.a, Nat.gcd_comm s.a]
      exact (gcd_half heven (show s.a % 2 = 1 by omega)).trans
        (Nat.gcd_sub_self_left (show s.a ≤ s.b by omega))
    · exact Nat.add_lt_add_left (size_half_lt hb (Nat.div_le_div_right (Nat.sub_le _ _))) _

/-- When the two are equal `u` is the quotient of the greatest common divisor. -/
theorem Inv.result (h : Inv m x s) (heq : s.a = s.b) : Quotient m x (x.gcd m) s.u := by
  have hgcd := h.gcd
  rw [← heq, Nat.gcd_self] at hgcd
  rw [← hgcd]
  exact h.left

theorem inv_init (hodd : m % 2 = 1) (hm : 1 < m) (hx : 0 < x) :
    Inv m x { a := x, b := m, u := 1, v := 0 } where
  odd := hodd
  aPos := hx
  bPos := Nat.lt_of_succ_lt hm
  gcd := rfl
  left := ⟨hm, by rw [Nat.one_mul]⟩
  right := ⟨Nat.lt_of_succ_lt hm, by
    rw [Nat.zero_mul]
    exact (Nat.modEq_zero_iff_dvd.mpr (Nat.dvd_refl m)).symm⟩

end Step

end PrplHypervisor.BinaryInverse
