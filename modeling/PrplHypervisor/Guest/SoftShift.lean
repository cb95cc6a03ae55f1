import PrplHypervisor.Guest.SoftMultiply

/-!
# Shifts of 64-bit integers (bare-metal-apps/lib/libc.c)

The routines gcc calls for 64-bit shifts on a 32-bit machine. C leaves a shift of a
32-bit word by 32 or more undefined; such a shift is `none` here.

The routines tell the counts over 32 by `bm <= 0`, and `bm` is unsigned. At a count of
32, the only one that goes that way, `__ashrdi3` moves the low word instead of the high one.
`softShifts_iff`: they are right up to a count of 32, `__ashrdi3` up to 31, and shift a
word by more than 31 from 33 on.
-/

namespace PrplHypervisor.Libc

/-- `x << n` for a `uint32_t x`. -/
def shl (x n : BitVec 32) : Option (BitVec 32) :=
  if n.toNat < 32 then some (x <<< n.toNat) else none

/-- `x >> n` for a `uint32_t x`. -/
def shr (x n : BitVec 32) : Option (BitVec 32) :=
  if n.toNat < 32 then some (x >>> n.toNat) else none

/-- `x >> n` for an `int32_t x`. -/
def sar (x n : BitVec 32) : Option (BitVec 32) :=
  if n.toNat < 32 then some (x.sshiftRight n.toNat) else none

/-- `__ashldi3`. -/
def ashldi3 (u : BitVec 64) (b : BitVec 32) : Option (BitVec 64) :=
  if b = 0 then some u
  else
    let uu := Dwords.ofInt64 u
    let bm := 32 - b
    if bm ≤ 0 then do
      let high ← shl uu.low (-bm)
      return Dwords.all ⟨0, high⟩
    else do
      let carries ← shr uu.low bm
      let low ← shl uu.low b
      let high ← shl uu.high b
      return Dwords.all ⟨low, high ||| carries⟩

/-- `__ashrdi3`. -/
def ashrdi3 (u : BitVec 64) (b : BitVec 32) : Option (BitVec 64) :=
  if b = 0 then some u
  else
    let uu := Dwords.ofInt64 u
    let bm := 32 - b
    if bm ≤ 0 then do
      let high ← sar uu.high 31
      let low ← shr uu.low (-bm)
      return Dwords.all ⟨low, high⟩
    else do
      let carries ← shl uu.high bm
      let high ← sar uu.high b
      let low ← shr uu.low b
      return Dwords.all ⟨low ||| carries, high⟩

/-- `__lshrdi3`. -/
def lshrdi3 (u : BitVec 64) (b : BitVec 32) : Option (BitVec 64) :=
  if b = 0 then some u
  else
    let uu := Dwords.ofInt64 u
    let bm := 32 - b
    if bm ≤ 0 then do
      let low ← shr uu.high (-bm)
      return Dwords.all ⟨low, 0⟩
    else do
      let carries ← shl uu.high bm
      let high ← shr uu.high b
      let low ← shr uu.low b
      return Dwords.all ⟨low ||| carries, high⟩

/-! ## The words and their bits -/

section Words

variable {u : BitVec 64} {b : BitVec 32} {n i : Nat}

theorem ofInt64_low_getLsbD :
    (Dwords.ofInt64 u).low.getLsbD i = (decide (i < 32) && u.getLsbD i) := by
  simp [Dwords.ofInt64]

theorem ofInt64_high_getLsbD :
    (Dwords.ofInt64 u).high.getLsbD i = (decide (i < 32) && u.getLsbD (32 + i)) := by
  simp [Dwords.ofInt64]

theorem ofInt64_high_msb : (Dwords.ofInt64 u).high.msb = u.msb := by
  simp [BitVec.msb_eq_getLsbD_last, Dwords.ofInt64]

/-- A `dwords` is a given integer if its words have the bits. -/
theorem all_eq {w : Dwords} {v : BitVec 64} (hlow : ∀ i < 32, w.low.getLsbD i = v.getLsbD i)
    (hhigh : ∀ i < 32, w.high.getLsbD i = v.getLsbD (32 + i)) : w.all = v := by
  refine BitVec.eq_of_getLsbD_eq ?_
  intro i hi
  rw [Dwords.all, BitVec.getLsbD_append]
  by_cases h : i < 32
  · rw [if_pos h, hlow i h]
  · rw [if_neg h, hhigh (i - 32) (by omega)]
    congr 1
    omega

end Words

/-! ## Counts up to 32, and over 32 -/

/-- A count for the branch that moves bits from word to word. -/
structure Crossing (b : BitVec 32) : Prop where
  pos : b ≠ 0
  carries : ¬(32 - b ≤ 0)
  lt : b.toNat < 32
  back : (32 - b).toNat = 32 - b.toNat

theorem Crossing.back_lt {b : BitVec 32} (h : Crossing b) : 32 - b.toNat < 32 := by
  have := h.pos
  bv_omega

/-- The three ways through a routine. -/
theorem count_cases {b : BitVec 32} (hb : b.toNat ≤ 32) : b = 0 ∨ b = 32 ∨ Crossing b := by
  by_cases h0 : b = 0
  · exact .inl h0
  by_cases h32 : b = 32
  · exact .inr (.inl h32)
  · exact .inr (.inr ⟨h0, by bv_omega, by bv_omega, by bv_omega⟩)

section Counts

variable {u : BitVec 64} {b : BitVec 32}

theorem ashldi3_of_le (hb : b.toNat ≤ 32) : ashldi3 u b = some (u <<< b.toNat) := by
  obtain rfl | rfl | h := count_cases hb
  · simp [ashldi3]
  · simp only [ashldi3, shl]
    refine congrArg some (all_eq (fun i hi => ?_) fun i hi => ?_)
    · simp [hi]
    · simp only [BitVec.getLsbD_shiftLeft, ofInt64_low_getLsbD]
      grind
  · simp only [ashldi3, if_neg h.pos, if_neg h.carries, shl, shr, h.back, if_pos h.lt,
      if_pos h.back_lt]
    refine congrArg some (all_eq (fun i hi => ?_) fun i hi => ?_)
    · simp only [BitVec.getLsbD_shiftLeft, ofInt64_low_getLsbD]
      grind
    · simp only [BitVec.getLsbD_or, BitVec.getLsbD_shiftLeft, BitVec.getLsbD_ushiftRight,
        ofInt64_low_getLsbD, ofInt64_high_getLsbD]
      grind

theorem lshrdi3_of_le (hb : b.toNat ≤ 32) : lshrdi3 u b = some (u >>> b.toNat) := by
  obtain rfl | rfl | h := count_cases hb
  · simp [lshrdi3]
  · simp only [lshrdi3, shr]
    refine congrArg some (all_eq (fun i hi => ?_) fun i hi => ?_)
    · simp only [BitVec.getLsbD_ushiftRight, ofInt64_high_getLsbD]
      grind
    · simp [BitVec.getLsbD_of_ge u (32 + (32 + i)) (by omega)]
  · have hlt := h.lt
    simp only [lshrdi3, if_neg h.pos, if_neg h.carries, shl, shr, h.back, if_pos h.lt,
      if_pos h.back_lt]
    refine congrArg some (all_eq (fun i hi => ?_) fun i hi => ?_)
    · simp only [BitVec.getLsbD_or, BitVec.getLsbD_shiftLeft, BitVec.getLsbD_ushiftRight,
        ofInt64_low_getLsbD, ofInt64_high_getLsbD]
      grind
    · simp only [BitVec.getLsbD_ushiftRight, ofInt64_high_getLsbD]
      grind

theorem ashrdi3_of_lt (hb : b.toNat < 32) : ashrdi3 u b = some (u.sshiftRight b.toNat) := by
  obtain rfl | rfl | h := count_cases hb.le
  · simp [ashrdi3]
  · exact absurd hb (by decide)
  · have hlt := h.lt
    simp only [ashrdi3, if_neg h.pos, if_neg h.carries, shl, shr, sar, h.back, if_pos h.lt,
      if_pos h.back_lt]
    refine congrArg some (all_eq (fun i hi => ?_) fun i hi => ?_)
    · simp only [BitVec.getLsbD_or, BitVec.getLsbD_shiftLeft, BitVec.getLsbD_ushiftRight,
        BitVec.getLsbD_sshiftRight, ofInt64_low_getLsbD, ofInt64_high_getLsbD]
      grind
    · simp only [BitVec.getLsbD_sshiftRight, ofInt64_high_getLsbD, ofInt64_high_msb]
      grind

/-- At 32 the low word stays where it is. -/
theorem ashrdi3_thirty_two : ashrdi3 u 32 =
    some (Dwords.all ⟨(Dwords.ofInt64 u).low, (Dwords.ofInt64 u).high.sshiftRight 31⟩) := by
  simp [ashrdi3, sar, shr]

/-- The high word should be there. -/
theorem sshiftRight_thirty_two : u.sshiftRight 32 =
    Dwords.all ⟨(Dwords.ofInt64 u).high, (Dwords.ofInt64 u).high.sshiftRight 31⟩ := by
  refine (all_eq (fun i hi => ?_) fun i hi => ?_).symm
  · simp only [BitVec.getLsbD_sshiftRight, ofInt64_high_getLsbD]
    grind
  · simp only [BitVec.getLsbD_sshiftRight, ofInt64_high_getLsbD, ofInt64_high_msb]
    grind

theorem all_low_inj {v w : BitVec 32} {high : BitVec 32} :
    Dwords.all ⟨v, high⟩ = Dwords.all ⟨w, high⟩ ↔ v = w := by
  refine ⟨fun h => BitVec.eq_of_toNat_eq ?_, fun h => by rw [h]⟩
  have hnat := congrArg BitVec.toNat h
  rw [Dwords.toNat_all, Dwords.toNat_all] at hnat
  exact Nat.add_left_cancel hnat

theorem ashrdi3_iff_of_le (hb : b.toNat ≤ 32) : ashrdi3 u b = some (u.sshiftRight b.toNat) ↔
    b.toNat ≤ 31 ∨ b.toNat = 32 ∧ (Dwords.ofInt64 u).low = (Dwords.ofInt64 u).high := by
  by_cases hlt : b.toNat < 32
  · exact iff_of_true (ashrdi3_of_lt hlt) (.inl (by omega))
  · obtain rfl : b = 32 := BitVec.eq_of_toNat_eq (by simp; omega)
    rw [ashrdi3_thirty_two, show (32 : BitVec 32).toNat = 32 from rfl, sshiftRight_thirty_two,
      Option.some.injEq, all_low_inj]
    simp

/-- Over 32 the routines take the other branch, and `b` is no count for a word. -/
theorem eq_none_of_lt (hb : 32 < b.toNat) (h64 : b.toNat < 64) :
    ashldi3 u b = none ∧ ashrdi3 u b = none ∧ lshrdi3 u b = none := by
  have hpos : b ≠ 0 := by bv_omega
  have hcarries : ¬(32 - b ≤ 0) := by bv_omega
  have hback : ¬(32 - b).toNat < 32 := by bv_omega
  simp only [ashldi3, ashrdi3, lshrdi3, if_neg hpos, if_neg hcarries, shl, shr, if_neg hback]
  exact ⟨rfl, rfl, rfl⟩

end Counts

/-- The shifts are right for the counts up to 32 and for no other; at 32 `__ashrdi3` needs
equal words. -/
theorem softShifts_iff (u : BitVec 64) (b : BitVec 32) (hb : b.toNat < 64) :
    ((ashldi3 u b).map BitVec.toNat = some (u.toNat * 2 ^ b.toNat % 2 ^ 64) ↔ b.toNat ≤ 32) ∧
      ((ashrdi3 u b).map BitVec.toInt = some (u.toInt / 2 ^ b.toNat) ↔
        b.toNat ≤ 31 ∨ b.toNat = 32 ∧ (Dwords.ofInt64 u).low = (Dwords.ofInt64 u).high) ∧
      ((lshrdi3 u b).map BitVec.toNat = some (u.toNat / 2 ^ b.toNat) ↔ b.toNat ≤ 32) := by
  by_cases h : b.toNat ≤ 32
  · simp only [h, iff_true, ashldi3_of_le h, lshrdi3_of_le h, Option.map_some]
    have hfloor : u.toInt / 2 ^ b.toNat = (u.sshiftRight b.toNat).toInt := by
      rw [BitVec.toInt_sshiftRight, Int.shiftRight_eq_div_pow]
      norm_cast
    refine ⟨?_, ?_, ?_⟩
    · rw [BitVec.toNat_shiftLeft, Nat.shiftLeft_eq]
    · rw [hfloor, ← Option.map_some, ← ashrdi3_iff_of_le h]
      exact (Option.map_injective fun _ _ => BitVec.eq_of_toInt_eq).eq_iff
    · rw [BitVec.toNat_ushiftRight, Nat.shiftRight_eq_div_pow]
  · obtain ⟨hl, ha, hr⟩ := eq_none_of_lt (u := u) (by omega) hb
    have hnot : ¬(b.toNat ≤ 31 ∨ b.toNat = 32 ∧
        (Dwords.ofInt64 u).low = (Dwords.ofInt64 u).high) := by
      rintro (hlt | ⟨heq, -⟩) <;> omega
    simp [h, hnot, hl, ha, hr]

/-- The last count they are right for. -/
theorem softShifts_iff_thirty_two :
    (ashldi3 1 32).map BitVec.toNat =
      some ((1 : BitVec 64).toNat * 2 ^ (32 : BitVec 32).toNat % 2 ^ 64) :=
  (softShifts_iff 1 32 (by decide)).1.mpr (by decide)

/-- The count after it, and the arithmetic shift at it. -/
theorem softShifts_thirty_three :
    (33 : BitVec 32).toNat < 64 ∧
      (ashrdi3 1 32).map BitVec.toInt ≠
        some ((1 : BitVec 64).toInt / 2 ^ (32 : BitVec 32).toNat) ∧
      (ashldi3 1 33).map BitVec.toNat ≠
        some ((1 : BitVec 64).toNat * 2 ^ (33 : BitVec 32).toNat % 2 ^ 64) ∧
      (ashrdi3 1 33).map BitVec.toInt ≠
        some ((1 : BitVec 64).toInt / 2 ^ (33 : BitVec 32).toNat) ∧
      (lshrdi3 1 33).map BitVec.toNat ≠
        some ((1 : BitVec 64).toNat / 2 ^ (33 : BitVec 32).toNat) := by decide

end PrplHypervisor.Libc
