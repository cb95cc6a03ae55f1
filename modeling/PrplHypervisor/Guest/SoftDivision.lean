import PrplHypervisor.Guest.SoftMultiply
import Mathlib.Data.Nat.Log

/-!
# Division on a 32-bit machine (bare-metal-apps/lib/libc.c)

The routines gcc calls for quotients and remainders. Both unsigned ones shift the
divisor up together with a bit of the quotient, and on the way back subtract it where
it fits. What the C code leaves undefined (a division by zero) is `none`.

- `Shifted`: after the first loop the divisor has been shifted as often as the bit.
- `Partial`: in the second loop the quotient so far times the divisor and what is left
  of the numerator make the numerator, and twice the shifted divisor is above the rest.
- `softDivision_spec`: the unsigned routines return the quotient and the remainder.
- `signedDivision_iff`: `__moddi3` gives its remainder the sign of the quotient; it
  fits `__divdi3` for positive divisors and where nothing remains.
-/

namespace PrplHypervisor.Libc

open While

/-- The variables of the unsigned routines: `bit` and `res` of `__udivmodsi4` are `qbit`
and `quot` of `__udivmoddi4`. -/
structure DivState (w : Nat) where
  num : BitVec w
  den : BitVec w
  bit : BitVec w
  res : BitVec w

namespace DivState

variable {w : Nat}

/-- A round of the first loop. -/
def normalise (s : DivState w) : DivState w := { s with den := s.den <<< 1, bit := s.bit <<< 1 }

/-- A round of the second loop of `__udivmodsi4`. -/
def subtractOr (s : DivState w) : DivState w :=
  let s := if s.num ≥ s.den then { s with num := s.num - s.den, res := s.res ||| s.bit } else s
  { s with bit := s.bit >>> 1, den := s.den >>> 1 }

/-- A round of the second loop of `__udivmoddi4`. -/
def subtractAdd (s : DivState w) : DivState w :=
  let s := if s.den ≤ s.num then { s with num := s.num - s.den, res := s.res + s.bit } else s
  { s with den := s.den >>> 1, bit := s.bit >>> 1 }

end DivState

/-- `__udivmodsi4`. -/
def udivmodsi4 (num den modwanted : BitVec 32) : Option (BitVec 32) := do
  let s ← whileLoop (fun s => s.den < s.num && s.bit != 0 && s.den &&& (1#32 <<< 31) == 0)
    DivState.normalise loopRounds (⟨num, den, 1, 0⟩ : DivState 32)
  let s ← whileLoop (fun s => s.bit != 0) DivState.subtractOr loopRounds s
  return if modwanted ≠ 0 then s.num else s.res

/-- `__udivmoddi4`; `rem_p` is `NULL` or what it points to. -/
def udivmoddi4 (num den : BitVec 64) (rem_p : Option (BitVec 64)) :
    Option (BitVec 64 × Option (BitVec 64)) :=
  if den = 0 then none
  else do
    let s ← whileLoop (fun s => BitVec.sle 0 s.den) DivState.normalise loopRounds
      (⟨num, den, 1, 0⟩ : DivState 64)
    let s ← whileLoop (fun s => s.bit != 0) DivState.subtractAdd loopRounds s
    return (s.res, rem_p.map fun _ => s.num)

/-- `__udivsi3`. -/
def udivsi3 (a b : BitVec 32) : Option (BitVec 32) := udivmodsi4 a b 0

/-- `__umodsi3`. -/
def umodsi3 (a b : BitVec 32) : Option (BitVec 32) := udivmodsi4 a b 1

/-- `__umoddi3`; `v` is what its variable holds at the start. -/
def umoddi3 (num den v : BitVec 64) : Option (BitVec 64) := do
  let (_, v') ← udivmoddi4 num den (some v)
  v'

/-- `__udivdi3`. -/
def udivdi3 (num den : BitVec 64) : Option (BitVec 64) := do
  let (quot, _) ← udivmoddi4 num den none
  return quot

/-! ## The two loops -/

section Loops

variable {w k n : Nat} {num den : BitVec w} {s : DivState w}

/-- Divisor and bit have been shifted `k` times. -/
structure Shifted (num den : BitVec w) (k : Nat) (s : DivState w) : Prop where
  num_eq : s.num = num
  res_eq : s.res = 0
  bit_eq : s.bit.toNat = 2 ^ k
  den_eq : s.den.toNat = den.toNat * 2 ^ k

/-- `k` rounds of the second loop are left. -/
structure Partial (num den : BitVec w) (k : Nat) (s : DivState w) : Prop where
  bit_eq : s.bit.toNat = 2 ^ k / 2
  den_eq : s.den.toNat = den.toNat * 2 ^ k / 2
  rest : s.num.toNat < den.toNat * 2 ^ k
  sum : s.res.toNat * den.toNat + s.num.toNat = num.toNat
  dvd : 2 ^ k ∣ s.res.toNat

theorem Shifted.start (num den : BitVec w) (hw : 0 < w) : Shifted num den 0 ⟨num, den, 1, 0⟩ :=
  ⟨rfl, rfl, by simp [hw], by simp⟩

/-- The divisor is no smaller than the bit. -/
theorem Shifted.lt (h : Shifted num den k s) (hden : den ≠ 0) : k < w := by
  have hpos : 0 < den.toNat := Nat.pos_of_ne_zero fun h0 => hden (BitVec.eq_of_toNat_eq h0)
  have hle : 2 ^ k ≤ s.den.toNat := by
    rw [h.den_eq]
    exact Nat.le_mul_of_pos_left _ hpos
  exact (Nat.pow_lt_pow_iff_right (by decide)).mp (hle.trans_lt s.den.isLt)

/-- A round of the first loop shifts nothing out of the words. -/
theorem Shifted.normalise (h : Shifted num den k s) (hden : den ≠ 0)
    (htop : 2 * s.den.toNat < 2 ^ w) : Shifted num den (k + 1) s.normalise := by
  have hpos : 0 < den.toNat := Nat.pos_of_ne_zero fun h0 => hden (BitVec.eq_of_toNat_eq h0)
  have hle : 2 ^ k ≤ s.den.toNat := by
    rw [h.den_eq]
    exact Nat.le_mul_of_pos_left _ hpos
  refine ⟨h.num_eq, h.res_eq, ?_, ?_⟩
  · rw [DivState.normalise, BitVec.toNat_shiftLeft, h.bit_eq, Nat.shiftLeft_eq, Nat.pow_succ,
      Nat.mod_eq_of_lt (by omega)]
    omega
  · rw [DivState.normalise, BitVec.toNat_shiftLeft, Nat.shiftLeft_eq, Nat.mod_eq_of_lt (by omega),
      h.den_eq, Nat.pow_succ]
    ring

/-- The first loop ends, whatever else its test looks at, if it does not shift a divisor
with the top bit set. -/
theorem Shifted.loop {cond : DivState w → Bool}
    (hcond : ∀ s, cond s = true → 2 * s.den.toNat < 2 ^ w) (hden : den ≠ 0)
    (h : Shifted num den k s) (hw : w ≤ loopRounds) :
    ∃ j t, whileLoop cond DivState.normalise loopRounds s = some t ∧
      Shifted num den j t ∧ cond t = false := by
  let inv : Nat → DivState w → Prop := fun n s => ∃ k, n + k = w ∧ Shifted num den k s
  have hstep : ∀ n s, inv n s → cond s = true → ∃ m < n, inv m s.normalise := by
    rintro n s ⟨k, hk, hs⟩ hc
    have hnext := hs.normalise hden (hcond s hc)
    have hlt := hnext.lt hden
    exact ⟨w - (k + 1), by omega, k + 1, by omega, hnext⟩
  have hk := h.lt hden
  obtain ⟨m, t, ht, ⟨j, -, hj⟩, hc⟩ := whileLoop_total inv hstep
    ⟨k, by omega, h⟩ (show w - k ≤ loopRounds by omega)
  exact ⟨j, t, ht, hj, hc⟩

/-- The second loop starts when twice the divisor is above the numerator. -/
theorem Shifted.toPartial (h : Shifted num den k s) (hnum : s.num.toNat < 2 * s.den.toNat) :
    Partial num den (k + 1) s := by
  have hden : den.toNat * 2 ^ (k + 1) = 2 * s.den.toNat := by
    rw [h.den_eq, Nat.pow_succ]
    ring
  refine ⟨by rw [h.bit_eq, Nat.pow_succ]; omega, by omega, by omega, ?_, ?_⟩
  · simp [h.res_eq, h.num_eq]
  · simp [h.res_eq]

theorem Partial.bit_succ (h : Partial num den (k + 1) s) : s.bit.toNat = 2 ^ k := by
  rw [h.bit_eq, Nat.pow_succ]
  omega

/-- The bit is not in the quotient so far. -/
theorem Partial.toNat_or (h : Partial num den (k + 1) s) :
    (s.res ||| s.bit).toNat = s.res.toNat + 2 ^ k := by
  obtain ⟨q, hq⟩ := h.dvd
  rw [BitVec.toNat_or, h.bit_succ, hq]
  exact (Nat.two_pow_add_eq_or_of_lt (Nat.pow_lt_pow_right (by decide) k.lt_succ_self) q).symm

/-- So it makes no difference how it comes into the quotient. -/
theorem Partial.or_eq_add (h : Partial num den (k + 1) s) : s.res ||| s.bit = s.res + s.bit := by
  have hlt := (s.res ||| s.bit).isLt
  have hor := h.toNat_or
  apply BitVec.eq_of_toNat_eq
  rw [BitVec.toNat_add, h.bit_succ, ← hor, Nat.mod_eq_of_lt hlt]

/-- A round of the second loop. -/
theorem Partial.subtractAdd (h : Partial num den (k + 1) s) :
    Partial num den k s.subtractAdd := by
  have hbit := h.bit_succ
  have hsden : s.den.toNat = den.toNat * 2 ^ k := by
    rw [h.den_eq, Nat.pow_succ, ← Nat.mul_assoc]
    omega
  have hrest : s.num.toNat < 2 * (den.toNat * 2 ^ k) := by
    have := h.rest
    rw [Nat.pow_succ, ← Nat.mul_assoc] at this
    omega
  have hdvd : 2 ^ k ∣ s.res.toNat := (pow_dvd_pow 2 k.le_succ).trans h.dvd
  by_cases hle : s.den ≤ s.num
  · have hnum : (s.num - s.den).toNat = s.num.toNat - den.toNat * 2 ^ k := by
      rw [BitVec.toNat_sub_of_le hle, hsden]
    have hle' : den.toNat * 2 ^ k ≤ s.num.toNat := by
      rw [← hsden]
      exact hle
    have hsum : (s.res.toNat + 2 ^ k) * den.toNat + (s.num.toNat - den.toNat * 2 ^ k) =
        num.toNat := by
      have := h.sum
      rw [Nat.add_mul, Nat.mul_comm (2 ^ k)]
      omega
    have hres : (s.res + s.bit).toNat = s.res.toNat + 2 ^ k := by
      rw [← h.or_eq_add, h.toNat_or]
    simp only [DivState.subtractAdd, if_pos hle]
    refine ⟨?_, ?_, ?_, ?_, ?_⟩
    · simp [hbit, Nat.shiftRight_eq_div_pow]
    · simp [hsden, Nat.shiftRight_eq_div_pow]
    · rw [hnum]
      omega
    · rw [hnum, hres, hsum]
    · rw [hres]
      exact Nat.dvd_add hdvd (Nat.dvd_refl _)
  · have hlt : s.num.toNat < den.toNat * 2 ^ k := by
      rw [← hsden]
      exact Nat.lt_of_not_le hle
    simp only [DivState.subtractAdd, if_neg hle]
    refine ⟨?_, ?_, hlt, h.sum, hdvd⟩
    · simp [hbit, Nat.shiftRight_eq_div_pow]
    · simp [hsden, Nat.shiftRight_eq_div_pow]

/-- The bit comes into the quotient the same way in both routines. -/
theorem Partial.subtractOr (h : Partial num den (k + 1) s) :
    Partial num den k s.subtractOr := by
  have : s.subtractOr = s.subtractAdd := by
    simp only [DivState.subtractOr, DivState.subtractAdd, ge_iff_le, h.or_eq_add]
  rw [this]
  exact h.subtractAdd

/-- The second loop has a round for every shift of the first, and one. -/
theorem Partial.loop {body : DivState w → DivState w}
    (hbody : ∀ k s, Partial num den (k + 1) s → Partial num den k (body s))
    (h : Partial num den k s) (hk : k ≤ loopRounds) :
    ∃ t, whileLoop (fun s => s.bit != 0) body loopRounds s = some t ∧ Partial num den 0 t := by
  have hstep : ∀ n s, Partial num den n s → (s.bit != 0) = true →
      ∃ m < n, Partial num den m (body s) := by
    rintro (_ | n) s hs hc
    · have : s.bit = 0 := BitVec.eq_of_toNat_eq hs.bit_eq
      simp [this] at hc
    · exact ⟨n, n.lt_succ_self, hbody n s hs⟩
  obtain ⟨m, t, ht, hm, hc⟩ := whileLoop_total _ hstep h hk
  have hbit : t.bit = 0 := by simpa using hc
  have hm0 : m = 0 := by
    have := hm.bit_eq
    cases m with
    | zero => rfl
    | succ m =>
      rw [hbit, Nat.pow_succ, Nat.mul_div_cancel _ (by decide)] at this
      exact absurd this.symm (Nat.two_pow_pos m).ne'
  exact ⟨t, ht, hm0 ▸ hm⟩

theorem Partial.quotient (h : Partial num den 0 s) : s.res.toNat = num.toNat / den.toNat := by
  have hlt : s.num.toNat < den.toNat := by simpa using h.rest
  rw [← h.sum, Nat.mul_comm, Nat.mul_add_div (by omega), Nat.div_eq_of_lt hlt, Nat.add_zero]

theorem Partial.remainder (h : Partial num den 0 s) : s.num.toNat = num.toNat % den.toNat := by
  have hlt : s.num.toNat < den.toNat := by simpa using h.rest
  rw [← h.sum, Nat.mul_comm, Nat.mul_add_mod, Nat.mod_eq_of_lt hlt]

/-- Both loops: the first may stop early, once twice the divisor is above the numerator. -/
theorem divide_loops {cond : DivState w → Bool} {body : DivState w → DivState w}
    (hcond : ∀ s, cond s = true → 2 * s.den.toNat < 2 ^ w)
    (hexit : ∀ s, cond s = false → s.bit ≠ 0 → s.den ≠ 0 → s.num.toNat < 2 * s.den.toNat)
    (hbody : ∀ k s, Partial num den (k + 1) s → Partial num den k (body s))
    (hden : den ≠ 0) (hw : w ≤ loopRounds) :
    ∃ s t, whileLoop cond DivState.normalise loopRounds ⟨num, den, 1, 0⟩ = some s ∧
      whileLoop (fun s => s.bit != 0) body loopRounds s = some t ∧
      t.res = num / den ∧ t.num = num % den := by
  have hpos : 0 < den.toNat := Nat.pos_of_ne_zero fun h0 => hden (BitVec.eq_of_toNat_eq h0)
  have hstart : Shifted num den 0 ⟨num, den, 1, 0⟩ := Shifted.start num den (by
    have := den.isLt
    by_contra hw0
    simp [Nat.eq_zero_of_not_pos hw0] at this
    omega)
  obtain ⟨k, s, hs, hshift, hc⟩ := Shifted.loop hcond hden hstart hw
  have hbit : s.bit ≠ 0 := by
    intro h0
    have := hshift.bit_eq
    rw [h0] at this
    exact absurd this.symm (Nat.two_pow_pos k).ne'
  have hsden : s.den ≠ 0 := by
    intro h0
    have := hshift.den_eq
    rw [h0] at this
    exact absurd this.symm (Nat.mul_pos hpos (Nat.two_pow_pos k)).ne'
  have hk := hshift.lt hden
  obtain ⟨t, ht, hpart⟩ := (hshift.toPartial (hexit s hc hbit hsden)).loop hbody (by omega)
  refine ⟨s, t, hs, ht, BitVec.eq_of_toNat_eq ?_, BitVec.eq_of_toNat_eq ?_⟩
  · rw [hpart.quotient, BitVec.toNat_udiv]
  · rw [hpart.remainder, BitVec.toNat_umod]

end Loops

/-! ## The unsigned routines -/

/-- The test of the top bit. -/
theorem and_top_eq_zero_iff (x : BitVec 32) : x &&& (1#32 <<< 31) = 0 ↔ 2 * x.toNat < 2 ^ 32 := by
  have hmsb : x.getLsbD 31 = decide (2 ^ 31 ≤ x.toNat) := by
    rw [← BitVec.msb_eq_getLsbD_last, BitVec.msb_eq_decide]
  have hand : x &&& (1#32 <<< 31) = if x.getLsbD 31 then BitVec.twoPow 32 31 else 0 :=
    BitVec.and_twoPow x 31
  rw [hand, hmsb]
  by_cases h : 2 ^ 31 ≤ x.toNat
  · rw [if_pos (decide_eq_true h)]
    exact iff_of_false (by decide) (by omega)
  · rw [if_neg (by simpa using h)]
    exact iff_of_true rfl (by omega)

/-- The sign test of the divisor. -/
theorem zero_sle_iff (x : BitVec 64) : BitVec.sle 0 x = true ↔ 2 * x.toNat < 2 ^ 64 := by
  have := x.isLt
  rw [BitVec.sle_eq_decide, decide_eq_true_iff, BitVec.toInt_eq_toNat_cond x]
  simp
  omega

theorem udivmodsi4_eq (num den modwanted : BitVec 32) (hden : den ≠ 0) :
    udivmodsi4 num den modwanted = some (if modwanted ≠ 0 then num % den else num / den) := by
  let cond : DivState 32 → Bool :=
    fun s => s.den < s.num && s.bit != 0 && s.den &&& (1#32 <<< 31) == 0
  have hcond : ∀ s, cond s = true → 2 * s.den.toNat < 2 ^ 32 := by
    intro s hs
    simp only [cond, Bool.and_eq_true, beq_iff_eq, and_top_eq_zero_iff] at hs
    exact hs.2
  have hexit : ∀ s, cond s = false → s.bit ≠ 0 → s.den ≠ 0 → s.num.toNat < 2 * s.den.toNat := by
    intro s hs hbit hsden
    have hlt := s.num.isLt
    by_cases htop : s.den &&& (1#32 <<< 31) = 0
    · have hle : ¬s.den < s.num := by
        intro hlt
        simp only [cond, decide_eq_true hlt, htop, bne_iff_ne.mpr hbit] at hs
        cases hs
      bv_omega
    · rw [and_top_eq_zero_iff] at htop
      omega
  obtain ⟨s, t, hs, ht, (hq : _ = num / den), hr⟩ :=
    divide_loops hcond hexit (fun k s h => h.subtractOr) hden (by decide)
  simp only [udivmodsi4]
  rw [hs]
  simp only [Option.bind_eq_bind, Option.bind_some, ht, hq, hr, Option.pure_def]

theorem udivmoddi4_eq (num den : BitVec 64) (rem_p : Option (BitVec 64)) (hden : den ≠ 0) :
    udivmoddi4 num den rem_p = some (num / den, rem_p.map fun _ => num % den) := by
  have hexit : ∀ s : DivState 64, BitVec.sle 0 s.den = false → s.bit ≠ 0 → s.den ≠ 0 →
      s.num.toNat < 2 * s.den.toNat := by
    intro s hs _ _
    have hlt := s.num.isLt
    have htop : ¬2 * s.den.toNat < 2 ^ 64 := by
      rw [← zero_sle_iff, hs]
      exact Bool.false_ne_true
    omega
  obtain ⟨s, t, hs, ht, (hq : _ = num / den), hr⟩ := divide_loops (fun s => (zero_sle_iff s.den).mp)
    hexit (fun k s h => h.subtractAdd) hden (by decide)
  simp only [udivmoddi4, if_neg hden]
  rw [hs]
  simp only [Option.bind_eq_bind, Option.bind_some, ht, hq, hr, Option.pure_def]

/-- The unsigned routines return, whatever the operands, and divide. -/
theorem softDivision_spec (num32 den32 modwanted : BitVec 32) (num den v : BitVec 64)
    (hden32 : den32 ≠ 0) (hden : den ≠ 0) :
    (udivmodsi4 num32 den32 modwanted).map BitVec.toNat =
        some (if modwanted = 0 then num32.toNat / den32.toNat else num32.toNat % den32.toNat) ∧
      (∃ quot rem, udivmoddi4 num den (some v) = some (quot, some rem) ∧
        quot.toNat = num.toNat / den.toNat ∧ rem.toNat = num.toNat % den.toNat) ∧
      (∃ quot, udivmoddi4 num den none = some (quot, none) ∧
        quot.toNat = num.toNat / den.toNat) ∧
      (umoddi3 num den v).map BitVec.toNat = some (num.toNat % den.toNat) ∧
      (udivdi3 num den).map BitVec.toNat = some (num.toNat / den.toNat) := by
  refine ⟨?_, ?_, ?_, ?_, ?_⟩
  · rw [udivmodsi4_eq num32 den32 modwanted hden32, Option.map_some]
    by_cases hm : modwanted = 0
    · rw [if_neg (not_not.mpr hm), if_pos hm, BitVec.toNat_udiv]
    · rw [if_pos hm, if_neg hm, BitVec.toNat_umod]
  · exact ⟨num / den, num % den, udivmoddi4_eq num den (some v) hden, BitVec.toNat_udiv,
      BitVec.toNat_umod⟩
  · exact ⟨num / den, udivmoddi4_eq num den none hden, BitVec.toNat_udiv⟩
  · simp only [umoddi3, udivmoddi4_eq num den (some v) hden, Option.bind_eq_bind, Option.bind_some,
      Option.map_some, BitVec.toNat_umod]
  · simp only [udivdi3, udivmoddi4_eq num den none hden, Option.bind_eq_bind, Option.bind_some,
      Option.pure_def, Option.map_some, BitVec.toNat_udiv]

/-- The largest numerators; the divisor goes up to the top bit. -/
theorem softDivision_spec_seven :
    (udivmodsi4 (-1) 7 0).map BitVec.toNat = some ((2 ^ 32 - 1) / 7) ∧
      (udivdi3 (-1) 7).map BitVec.toNat = some ((2 ^ 64 - 1) / 7) := by
  have h := softDivision_spec (-1) 7 0 (-1) 7 0 (by decide) (by decide)
  exact ⟨h.1, h.2.2.2.2⟩

/-! ## The signed routines -/

/-- `__divsi3`. -/
def divsi3 (a b : BitVec 32) : Option (BitVec 32) := do
  let neg := false
  let (a, neg) := if a.slt 0 then (-a, !neg) else (a, neg)
  let (b, neg) := if b.slt 0 then (-b, !neg) else (b, neg)
  let res ← udivmodsi4 a b 0
  return if neg then -res else res

/-- `__modsi3`. -/
def modsi3 (a b : BitVec 32) : Option (BitVec 32) := do
  let neg := false
  let (a, neg) := if a.slt 0 then (-a, true) else (a, neg)
  let b := if b.slt 0 then -b else b
  let res ← udivmodsi4 a b 1
  return if neg then -res else res

/-- `__moddi3`; `v` is what its variable holds at the start. -/
def moddi3 (num den v : BitVec 64) : Option (BitVec 64) := do
  let minus := false
  let (num, minus) := if num.slt 0 then (-num, true) else (num, minus)
  let (den, minus) := if den.slt 0 then (-den, minus ^^ true) else (den, minus)
  let (_, v') ← udivmoddi4 num den (some v)
  let v ← v'
  return if minus then -v else v

/-- `__divdi3`. -/
def divdi3 (num den : BitVec 64) : Option (BitVec 64) := do
  let minus := false
  let (num, minus) := if num.slt 0 then (-num, true) else (num, minus)
  let (den, minus) := if den.slt 0 then (-den, minus ^^ true) else (den, minus)
  let (v, _) ← udivmoddi4 num den none
  return if minus then -v else v

/-- What a quotient and a remainder have to be for each other. -/
structure DivisionLaw {w : Nat} (num den quot rem : BitVec w) : Prop where
  identity : num = quot * den + rem
  bound : rem.toInt.natAbs < den.toInt.natAbs
  sign : rem = 0 ∨ rem.toInt.sign = num.toInt.sign

section Signed

variable {w : Nat} {num den : BitVec w}

theorem slt_zero (x : BitVec w) : x.slt 0 = x.msb := BitVec.slt_zero_eq_msb

theorem udivmodsi4_zero {a b : BitVec 32} (hb : b ≠ 0) : udivmodsi4 a b 0#32 = some (a / b) :=
  udivmodsi4_eq a b 0 hb

theorem udivmodsi4_one {a b : BitVec 32} (hb : b ≠ 0) : udivmodsi4 a b 1#32 = some (a % b) :=
  udivmodsi4_eq a b 1 hb

theorem divsi3_eq (a b : BitVec 32) (hb : b ≠ 0) : divsi3 a b = some (a.sdiv b) := by
  have hnb : -b ≠ 0 := by simpa using hb
  simp only [divsi3, slt_zero, BitVec.sdiv_eq]
  cases a.msb <;> cases b.msb <;> simp [udivmodsi4_zero hb, udivmodsi4_zero hnb]

theorem modsi3_eq (a b : BitVec 32) (hb : b ≠ 0) : modsi3 a b = some (a.srem b) := by
  have hnb : -b ≠ 0 := by simpa using hb
  simp only [modsi3, slt_zero, BitVec.srem_eq]
  cases a.msb <;> cases b.msb <;> simp [udivmodsi4_one hb, udivmodsi4_one hnb]

theorem divdi3_eq (num den : BitVec 64) (hden : den ≠ 0) :
    divdi3 num den = some (num.sdiv den) := by
  have hnden : -den ≠ 0 := by simpa using hden
  simp only [divdi3, slt_zero, BitVec.sdiv_eq]
  cases num.msb <;> cases den.msb <;>
    simp [udivmoddi4_eq _ den none hden, udivmoddi4_eq _ (-den) none hnden]

/-- The remainder changes its sign with the sign of the divisor. -/
theorem moddi3_eq (num den v : BitVec 64) (hden : den ≠ 0) :
    moddi3 num den v = some (if den.msb then -(num.srem den) else num.srem den) := by
  have hnden : -den ≠ 0 := by simpa using hden
  simp only [moddi3, slt_zero, BitVec.srem_eq]
  cases num.msb <;> cases den.msb <;>
    simp [udivmoddi4_eq _ den (some v) hden, udivmoddi4_eq _ (-den) (some v) hnden]

theorem toInt_eq_zero_iff (x : BitVec w) : x.toInt = 0 ↔ x = 0 := by
  rw [← BitVec.toInt_inj]
  exact BitVec.toInt_zero ▸ Iff.rfl

theorem srem_eq_zero_iff (num den : BitVec w) : num.srem den = 0 ↔ den.toInt ∣ num.toInt := by
  rw [Int.dvd_iff_tmod_eq_zero, ← BitVec.toInt_srem, toInt_eq_zero_iff]

/-- The quotient rounded to zero and the remainder with the sign of the numerator. -/
theorem DivisionLaw.sdiv_srem (hden : den ≠ 0) :
    DivisionLaw num den (num.sdiv den) (num.srem den) := by
  refine ⟨BitVec.eq_of_toInt_eq ?_, ?_, ?_⟩
  · rw [BitVec.toInt_add, BitVec.toInt_mul, BitVec.toInt_sdiv, BitVec.toInt_srem,
      Int.bmod_mul_bmod, Int.bmod_add_bmod, Int.tdiv_mul_add_tmod, BitVec.toInt_bmod_cancel]
  · rw [BitVec.toInt_srem, Int.natAbs_tmod]
    exact Nat.mod_lt _ (Int.natAbs_pos.mpr ((toInt_eq_zero_iff den).not.mpr hden))
  · by_cases hdvd : den.toInt ∣ num.toInt
    · exact .inl ((srem_eq_zero_iff num den).mpr hdvd)
    · exact .inr (by rw [BitVec.toInt_srem, Int.sign_tmod, if_neg hdvd])

/-- A remainder below the divisor can be negated. -/
theorem DivisionLaw.toInt_neg {quot rem : BitVec w} (h : DivisionLaw num den quot rem) :
    (-rem).toInt = -rem.toInt := by
  refine BitVec.toInt_neg_of_not_negOverflow ?_
  intro hover
  have hrem : rem.toInt = -2 ^ (w - 1) := by simpa [BitVec.negOverflow] using hover
  have hlt := BitVec.toInt_lt (x := den)
  have hle := BitVec.le_toInt den
  have hbound := h.bound
  omega

/-- Only one of a remainder and its negative has the sign of the numerator. -/
theorem DivisionLaw.not_neg {quot rem : BitVec w} (h : DivisionLaw num den quot rem)
    (hrem : rem ≠ 0) : ¬DivisionLaw num den quot (-rem) := by
  intro hneg
  have h0 : rem.toInt ≠ 0 := (toInt_eq_zero_iff rem).not.mpr hrem
  have hsign := h.sign.resolve_left hrem
  have hsign' := hneg.sign.resolve_left (by simpa using hrem)
  rw [h.toInt_neg, Int.sign_neg, ← hsign] at hsign'
  have : rem.toInt.sign ≠ 0 := Int.sign_eq_zero_iff_zero.not.mpr h0
  omega

theorem msb_false_iff (hden : den ≠ 0) : den.msb = false ↔ 0 < den.toInt := by
  have h0 : den.toInt ≠ 0 := (toInt_eq_zero_iff den).not.mpr hden
  rw [BitVec.msb_eq_toInt, decide_eq_false_iff_not]
  omega

end Signed

/-- The signed routines on double words keep the law for positive divisors and where the
division leaves nothing, those on words always. -/
theorem signedDivision_iff (num den v : BitVec 64) (a b : BitVec 32) (hden : den ≠ 0)
    (hb : b ≠ 0) :
    ((∃ quot rem, divdi3 num den = some quot ∧ moddi3 num den v = some rem ∧
        DivisionLaw num den quot rem) ↔ 0 < den.toInt ∨ den.toInt ∣ num.toInt) ∧
      ∃ quot rem, divsi3 a b = some quot ∧ modsi3 a b = some rem ∧
        DivisionLaw a b quot rem := by
  have hlaw : DivisionLaw num den (num.sdiv den) (num.srem den) := .sdiv_srem hden
  refine ⟨?_, a.sdiv b, a.srem b, divsi3_eq a b hb, modsi3_eq a b hb, .sdiv_srem hb⟩
  simp only [divdi3_eq num den hden, moddi3_eq num den v hden, Option.some.injEq,
    ← msb_false_iff hden, ← srem_eq_zero_iff]
  cases den.msb with
  | false => simpa using hlaw
  | true =>
    by_cases hrem : num.srem den = 0
    · simpa [hrem] using hlaw
    · exact iff_of_false (by simpa using hlaw.not_neg hrem) (by simpa using hrem)

/-- -7 by 2, and -7 by -2 on words. -/
theorem signedDivision_iff_seven :
    (∃ quot rem, divdi3 (-7) 2 = some quot ∧ moddi3 (-7) 2 0 = some rem ∧
      DivisionLaw (-7) 2 quot rem) ∧
      ∃ quot rem, divsi3 (-7) (-2) = some quot ∧ modsi3 (-7) (-2) = some rem ∧
        DivisionLaw (-7) (-2) quot rem := by
  have h := signedDivision_iff (-7) 2 0 (-7) (-2) (by decide) (by decide)
  exact ⟨h.1.mpr (by decide), h.2⟩

/-- 7 by -2: the quotient is -3, and the remainder -1 instead of 1. -/
theorem moddi3_seven_neg_two :
    divdi3 7 (-2) = some (-3) ∧ moddi3 7 (-2) 0 = some (-1) ∧
      ¬∃ quot rem, divdi3 7 (-2) = some quot ∧ moddi3 7 (-2) 0 = some rem ∧
        DivisionLaw 7 (-2) quot rem := by
  have hquot : divdi3 7 (-2) = some (-3) := by
    rw [divdi3_eq 7 (-2) (by decide)]
    decide
  have hrem : moddi3 7 (-2) 0 = some (-1) := by
    rw [moddi3_eq 7 (-2) 0 (by decide)]
    decide
  refine ⟨hquot, hrem, ?_⟩
  rintro ⟨quot, rem, hq, hr, hlaw⟩
  obtain rfl := Option.some.inj (hquot.symm.trans hq)
  obtain rfl := Option.some.inj (hrem.symm.trans hr)
  exact absurd hlaw.identity (by decide)

end PrplHypervisor.Libc
