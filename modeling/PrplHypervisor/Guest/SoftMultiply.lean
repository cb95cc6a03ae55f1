import PrplHypervisor.Lib.While
import Mathlib.Data.BitVec
import Mathlib.Tactic.Ring

/-!
# Multiplication on a 32-bit machine (bare-metal-apps/lib/libc.c)

The routines gcc calls for products: `__mulsi3` by shifting and adding, `__muldsi3` from
the four products of half words, `__muldi3` from products of words. A `dwords` is cut
into its words and put together again by `Dwords.ofInt64` and `Dwords.all`.

`softMultiply_spec`: all three are products, `__muldsi3` the exact one.
-/

namespace PrplHypervisor.Libc

open While

/-- The words of a `dwords`. -/
structure Dwords where
  low : BitVec 32
  high : BitVec 32

/-- `uu.all = u`. -/
def Dwords.ofInt64 (u : BitVec 64) : Dwords := ⟨u.setWidth 32, (u >>> 32).setWidth 32⟩

/-- `w.all`. -/
def Dwords.all (w : Dwords) : BitVec 64 := w.high ++ w.low

/-- How many rounds a loop of these routines is followed; one that has not ended by then
counts as one that does not end. -/
def loopRounds : Nat := 2 ^ 32

/-! ## The product of two words, by shifting and adding -/

/-- The variables of `__mulsi3`. -/
structure MulState where
  answer : BitVec 32
  a : BitVec 32
  b : BitVec 32

/-- One round of its loop. -/
def MulState.round (s : MulState) : MulState :=
  { answer := if s.b &&& 1 ≠ 0 then s.answer + s.a else s.answer
    a := s.a <<< 1
    b := s.b >>> 1 }

/-- `__mulsi3`. -/
def mulsi3 (a b : BitVec 32) : Option (BitVec 32) :=
  (whileLoop (fun s => s.b != 0) MulState.round loopRounds ⟨0, a, b⟩).map MulState.answer

theorem shiftLeft_one (a : BitVec 32) : a <<< 1 = 2 * a := by
  apply BitVec.eq_of_toNat_eq
  simp [Nat.shiftLeft_eq, Nat.mul_comm]

/-- A word is twice its upper bits and its last bit. -/
theorem eq_two_mul_shiftRight_add (b : BitVec 32) : b = 2 * (b >>> 1) + (b &&& 1) := by
  apply BitVec.eq_of_toNat_eq
  simp
  omega

theorem and_one_cases (b : BitVec 32) : b &&& 1 = 0 ∨ b &&& 1 = 1 := by
  have h : (b &&& 1).toNat = b.toNat % 2 := by simp
  rcases Nat.mod_two_eq_zero_or_one b.toNat with h0 | h1
  · exact .inl (BitVec.eq_of_toNat_eq (h.trans h0))
  · exact .inr (BitVec.eq_of_toNat_eq (h.trans h1))

/-- A round moves the last bit of `b` into the answer. -/
theorem MulState.round_product (s : MulState) :
    s.round.answer + s.round.a * s.round.b = s.answer + s.a * s.b := by
  have hb := eq_two_mul_shiftRight_add s.b
  simp only [MulState.round, shiftLeft_one]
  rcases and_one_cases s.b with h | h
  · rw [h, if_neg (by simp)]
    rw [h] at hb
    calc s.answer + 2 * s.a * s.b >>> 1 = s.answer + s.a * (2 * s.b >>> 1 + 0) := by ring
      _ = s.answer + s.a * s.b := by rw [← hb]
  · rw [h, if_pos (by decide)]
    rw [h] at hb
    calc s.answer + s.a + 2 * s.a * s.b >>> 1 = s.answer + s.a * (2 * s.b >>> 1 + 1) := by ring
      _ = s.answer + s.a * s.b := by rw [← hb]

/-- The loop has a round for every bit of `b`; answer and `a * b` sum to the product. -/
theorem mulsi3_eq (a b : BitVec 32) : mulsi3 a b = some (a * b) := by
  let inv : Nat → MulState → Prop := fun n s =>
    s.b.toNat < 2 ^ n ∧ s.answer + s.a * s.b = a * b
  have hstep : ∀ n s, inv n s → (s.b != 0) = true → ∃ m < n, inv m s.round := by
    rintro n s ⟨hn, hp⟩ hc
    have hpos : s.b ≠ 0 := by simpa using hc
    cases n with
    | zero => bv_omega
    | succ n =>
      refine ⟨n, n.lt_succ_self, ?_, by rw [s.round_product, hp]⟩
      rw [Nat.pow_succ] at hn
      simp only [MulState.round, BitVec.toNat_ushiftRight, Nat.shiftRight_eq_div_pow]
      omega
  obtain ⟨m, t, ht, ⟨-, hp⟩, hc⟩ := whileLoop_total inv hstep
    (s := ⟨0, a, b⟩) ⟨b.isLt, by simp⟩ (show 32 ≤ loopRounds by decide)
  have hb : t.b = 0 := by simpa using hc
  rw [mulsi3, ht, Option.map_some]
  simpa [hb] using hp

/-! ## The product of two words, from half words -/

/-- `__muldsi3`; `t` is the carry that moves from one half word to the next. -/
def muldsi3 (a b : BitVec 32) : BitVec 64 :=
  let bitsInWord2 := 4 * 8 / 2
  let lowerMask := ~~~(0 : BitVec 32) >>> bitsInWord2
  let low := (a &&& lowerMask) * (b &&& lowerMask)
  let t := low >>> bitsInWord2
  let low := low &&& lowerMask
  let t := t + (a >>> bitsInWord2) * (b &&& lowerMask)
  let low := low + ((t &&& lowerMask) <<< bitsInWord2)
  let high := t >>> bitsInWord2
  let t := low >>> bitsInWord2
  let low := low &&& lowerMask
  let t := t + (b >>> bitsInWord2) * (a &&& lowerMask)
  let low := low + ((t &&& lowerMask) <<< bitsInWord2)
  let high := high + t >>> bitsInWord2
  let high := high + (a >>> bitsInWord2) * (b >>> bitsInWord2)
  Dwords.all ⟨low, high⟩

theorem toNat_and_lowerMask (a : BitVec 32) :
    (a &&& ~~~(0 : BitVec 32) >>> (4 * 8 / 2)).toNat = a.toNat % 2 ^ 16 := by
  rw [BitVec.toNat_and]
  exact Nat.and_two_pow_sub_one_eq_mod a.toNat 16

theorem Dwords.toNat_all (w : Dwords) : w.all.toNat = 2 ^ 32 * w.high.toNat + w.low.toNat := by
  rw [Dwords.all, BitVec.toNat_append, Nat.shiftLeft_eq, Nat.mul_comm]
  exact (Nat.two_pow_add_eq_or_of_lt w.low.isLt _).symm

theorem toNat_muldsi3 (a b : BitVec 32) : (muldsi3 a b).toNat = a.toNat * b.toNat := by
  simp only [muldsi3, Dwords.toNat_all, BitVec.toNat_add, BitVec.toNat_mul,
    BitVec.toNat_ushiftRight, BitVec.toNat_shiftLeft, toNat_and_lowerMask,
    Nat.shiftRight_eq_div_pow, Nat.shiftLeft_eq]
  have ha := a.isLt
  have hb := b.isLt
  have hal : a.toNat % 2 ^ 16 ≤ 2 ^ 16 - 1 := by omega
  have hbl : b.toNat % 2 ^ 16 ≤ 2 ^ 16 - 1 := by omega
  have hah : a.toNat / 2 ^ 16 ≤ 2 ^ 16 - 1 := by omega
  have hbh : b.toNat / 2 ^ 16 ≤ 2 ^ 16 - 1 := by omega
  have h1 := Nat.mul_le_mul hal hbl
  have h2 := Nat.mul_le_mul hah hbl
  have h3 := Nat.mul_le_mul hbh hal
  have h4 := Nat.mul_le_mul hah hbh
  have hprod : a.toNat * b.toNat =
      2 ^ 32 * (a.toNat / 2 ^ 16 * (b.toNat / 2 ^ 16)) +
        2 ^ 16 * (a.toNat / 2 ^ 16 * (b.toNat % 2 ^ 16)) +
        2 ^ 16 * (b.toNat / 2 ^ 16 * (a.toNat % 2 ^ 16)) +
        a.toNat % 2 ^ 16 * (b.toNat % 2 ^ 16) := by
    conv_lhs => rw [← Nat.div_add_mod a.toNat (2 ^ 16), ← Nat.div_add_mod b.toNat (2 ^ 16)]
    ring
  rw [hprod]
  generalize a.toNat % 2 ^ 16 * (b.toNat % 2 ^ 16) = ll at *
  generalize a.toNat / 2 ^ 16 * (b.toNat % 2 ^ 16) = hl at *
  generalize b.toNat / 2 ^ 16 * (a.toNat % 2 ^ 16) = lh at *
  generalize a.toNat / 2 ^ 16 * (b.toNat / 2 ^ 16) = hh at *
  omega

/-! ## The product of two double words -/

/-- `__muldi3`. The sums of signed words wrap around. -/
def muldi3 (a b : BitVec 64) : Option (BitVec 64) := do
  let x := Dwords.ofInt64 a
  let y := Dwords.ofInt64 b
  let r := Dwords.ofInt64 (muldsi3 x.low y.low)
  let p ← mulsi3 x.high y.low
  let q ← mulsi3 x.low y.high
  return Dwords.all { r with high := r.high + (p + q) }

theorem Dwords.toNat_ofInt64_low (u : BitVec 64) : (ofInt64 u).low.toNat = u.toNat % 2 ^ 32 :=
  BitVec.toNat_setWidth 32 u

theorem Dwords.toNat_ofInt64_high (u : BitVec 64) : (ofInt64 u).high.toNat = u.toNat / 2 ^ 32 := by
  rw [ofInt64, BitVec.toNat_setWidth, BitVec.toNat_ushiftRight, Nat.shiftRight_eq_div_pow]
  exact Nat.mod_eq_of_lt (Nat.div_lt_of_lt_mul u.isLt)

/-- The product of the upper words does not count modulo `2 ^ 64`. -/
theorem muldi3_eq (a b : BitVec 64) : muldi3 a b = some (a * b) := by
  simp only [muldi3, mulsi3_eq, Option.bind_eq_bind, Option.bind_some, Option.pure_def,
    Option.some.injEq]
  apply BitVec.eq_of_toNat_eq
  simp only [Dwords.toNat_all, BitVec.toNat_add, BitVec.toNat_mul, Dwords.toNat_ofInt64_low,
    Dwords.toNat_ofInt64_high, toNat_muldsi3]
  have hprod : a.toNat * b.toNat =
      2 ^ 64 * (a.toNat / 2 ^ 32 * (b.toNat / 2 ^ 32)) +
        2 ^ 32 * (a.toNat / 2 ^ 32 * (b.toNat % 2 ^ 32)) +
        2 ^ 32 * (a.toNat % 2 ^ 32 * (b.toNat / 2 ^ 32)) +
        a.toNat % 2 ^ 32 * (b.toNat % 2 ^ 32) := by
    conv_lhs => rw [← Nat.div_add_mod a.toNat (2 ^ 32), ← Nat.div_add_mod b.toNat (2 ^ 32)]
    ring
  rw [hprod]
  omega

/-- `__mulsi3` and `__muldi3` are the products modulo their width, `__muldsi3` is the
product. -/
theorem softMultiply_spec :
    (∀ a b : BitVec 32,
      (mulsi3 a b).map BitVec.toNat = some (a.toNat * b.toNat % 2 ^ 32) ∧
        (muldsi3 a b).toNat = a.toNat * b.toNat) ∧
      ∀ a b : BitVec 64, (muldi3 a b).map BitVec.toNat = some (a.toNat * b.toNat % 2 ^ 64) := by
  refine ⟨fun a b => ⟨?_, toNat_muldsi3 a b⟩, fun a b => ?_⟩
  · rw [mulsi3_eq, Option.map_some, BitVec.toNat_mul]
  · rw [muldi3_eq, Option.map_some, BitVec.toNat_mul]

end PrplHypervisor.Libc
