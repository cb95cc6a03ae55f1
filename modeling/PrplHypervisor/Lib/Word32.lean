import Mathlib.Data.Nat.Bitwise

/-!
# 32-bit words as naturals

Machine words are naturals below `2^32`; every operation that can leave that
range reduces modulo `2^32` explicitly.

- `u32`, `add32`, `sub32`, `not32`: truncation, wrapping sum and difference, and
  one's complement.
- `byteOfWord`, `wordAt`, `storeWord`: words as bytes of a memory; `wordAt_storeWord`,
  `wordAt_congr`: what is read back.
- `and_not32_mask`: masking away the low `k` bits rounds down to a multiple of
  `2^k`, the identity behind every alignment computation.
- `or_shiftLeft`: `or`-ing a field below a shifted one is addition.
-/

namespace PrplHypervisor.Word32

/-- Truncation to 32 bits. -/
def u32 (x : Nat) : Nat := x % 2 ^ 32

/-- Wrapping addition. -/
def add32 (a b : Nat) : Nat := u32 (a + b)

/-- Wrapping subtraction. -/
def sub32 (a b : Nat) : Nat := u32 (a + 2 ^ 32 - b % 2 ^ 32)

/-- One's complement. -/
def not32 (x : Nat) : Nat := 2 ^ 32 - (x + 1)

/-- Byte `k` of a little-endian word. -/
def byteOfWord (w k : Nat) : UInt8 := UInt8.ofNat (w >>> (8 * k))

/-- The word stored at address `a`. -/
def wordAt (mem : Nat → UInt8) (a : Nat) : Nat :=
  (mem a).toNat + 2 ^ 8 * (mem (a + 1)).toNat + 2 ^ 16 * (mem (a + 2)).toNat +
    2 ^ 24 * (mem (a + 3)).toNat

/-- Word `w` stored at address `a`. -/
def storeWord (mem : Nat → UInt8) (a w : Nat) : Nat → UInt8 := fun x =>
  if a ≤ x ∧ x < a + 4 then byteOfWord w (x - a) else mem x

theorem u32_lt (x : Nat) : u32 x < 2 ^ 32 := Nat.mod_lt _ (by decide)

@[simp] theorem u32_of_lt {x : Nat} (h : x < 2 ^ 32) : u32 x = x := Nat.mod_eq_of_lt h

theorem sub32_of_le {a b : Nat} (hb : b ≤ a) (ha : a < 2 ^ 32) : sub32 a b = a - b := by
  have hlt : b < 2 ^ 32 := by omega
  unfold sub32 u32
  rw [Nat.mod_eq_of_lt hlt, show a + 2 ^ 32 - b = (a - b) + 2 ^ 32 by omega,
    Nat.add_mod_right, Nat.mod_eq_of_lt (by omega)]

theorem byteOfWord_toNat (w k : Nat) : (byteOfWord w k).toNat = w / 2 ^ (8 * k) % 2 ^ 8 := by
  rw [byteOfWord, UInt8.toNat_ofNat', Nat.shiftRight_eq_div_pow]

/-- A word is read as it was stored. -/
theorem wordAt_storeWord (mem : Nat → UInt8) (a w : Nat) :
    wordAt (storeWord mem a w) a = u32 w := by
  have hbyte : ∀ k < 4, (storeWord mem a w (a + k)).toNat = w / 2 ^ (8 * k) % 2 ^ 8 := by
    intro k hk
    rw [storeWord, if_pos ⟨by omega, by omega⟩, Nat.add_sub_cancel_left, byteOfWord_toNat]
  have hzero := hbyte 0 (by decide)
  rw [Nat.add_zero] at hzero
  rw [wordAt, hzero, hbyte 1 (by decide), hbyte 2 (by decide), hbyte 3 (by decide), u32]
  omega

/-- A word reads its own four bytes. -/
theorem wordAt_congr {mem mem' : Nat → UInt8} {a : Nat}
    (h : ∀ x, a ≤ x → x < a + 4 → mem' x = mem x) : wordAt mem' a = wordAt mem a := by
  simp only [wordAt]
  rw [h a (by omega) (by omega), h (a + 1) (by omega) (by omega), h (a + 2) (by omega) (by omega),
    h (a + 3) (by omega) (by omega)]

theorem wordAt_storeWord_of_disjoint {mem : Nat → UInt8} {a b : Nat} (h : a + 4 ≤ b ∨ b + 4 ≤ a)
    (w : Nat) : wordAt (storeWord mem b w) a = wordAt mem a :=
  wordAt_congr fun x _ _ => if_neg (by omega)

/-- Masking with `~(2^k - 1)` rounds down to a multiple of `2^k`. -/
theorem and_not32_mask {x k : Nat} (hx : x < 2 ^ 32) (hk : k ≤ 32) :
    x &&& not32 (2 ^ k - 1) = x / 2 ^ k * 2 ^ k := by
  have hle : 2 ^ k ≤ 2 ^ 32 := Nat.pow_le_pow_right (by decide) hk
  have hpos : 0 < 2 ^ k := Nat.two_pow_pos k
  apply Nat.eq_of_testBit_eq
  intro i
  rw [Nat.testBit_and, not32, Nat.testBit_two_pow_sub_succ (by omega), Nat.testBit_two_pow_sub_one,
    Nat.testBit_mul_two_pow, Nat.testBit_div_two_pow]
  by_cases hik : i < k
  · simp [hik]
  · have hcancel : i - k + k = i := by omega
    have hik' : k ≤ i := by omega
    rw [hcancel]
    by_cases hi : i < 32
    · simp [hi, hik, hik']
    · have hxi : x.testBit i = false :=
        Nat.testBit_lt_two_pow (lt_of_lt_of_le hx (Nat.pow_le_pow_right (by decide) (by omega)))
      simp [hxi]

/-- A field narrower than the shift distance is added by `or`. -/
theorem or_shiftLeft {b i : Nat} (hb : b < 2 ^ i) (a : Nat) :
    (a <<< i) ||| b = a * 2 ^ i + b := by
  rw [← Nat.shiftLeft_add_eq_or_of_lt hb, Nat.shiftLeft_eq]

end PrplHypervisor.Word32
