import Mathlib.Data.Nat.Digits.Lemmas

/-!
# Formatted numbers

The text of a directive `%[-][0...][width]` with one of the conversions `d`, `u`, `x` and
`X` for a 32-bit value, as the C standard defines it.

- `numeral`: a number in a base, `numeral_length_le_iff` its length.
- `Directive.format`: how a directive is written; `value_numeral` reads a width back.
- `Directive.text`: what it prints. At least the width is printed (`Directive.length_text`),
  and 11 characters suffice for any value (`Directive.bare_le`).
-/

namespace PrplHypervisor.Format

/-- The character of a digit. The digits from ten on are letters. -/
def digitChar (letter : UInt8) (d : Nat) : UInt8 :=
  if d < 10 then UInt8.ofNat (48 + d) else letter + UInt8.ofNat (d - 10)

def numeral (letter : UInt8) (base n : Nat) : List UInt8 :=
  (if n = 0 then [0] else (Nat.digits base n).reverse).map (digitChar letter)

section Numeral

variable {letter : UInt8} {base n k : Nat}

theorem numeral_of_ne_zero (hn : n ≠ 0) :
    numeral letter base n = (Nat.digits base n).reverse.map (digitChar letter) := by
  rw [numeral, if_neg hn]

theorem numeral_length_le_iff (hbase : 1 < base) (hk : 0 < k) :
    (numeral letter base n).length ≤ k ↔ n < base ^ k := by
  rw [numeral, List.length_map]
  split
  case isTrue hn =>
    rw [hn]
    exact iff_of_true hk (Nat.pow_pos (by omega))
  case isFalse => rw [List.length_reverse, Nat.digits_length_le_iff hbase]

/-- In base ten and above a word has ten digits at most. -/
theorem numeral_length_le (hbase : 10 ≤ base) (hn : n < 2 ^ 32) :
    (numeral letter base n).length ≤ 10 := by
  rw [numeral_length_le_iff (by omega) (by decide)]
  exact Nat.lt_of_lt_of_le (Nat.lt_trans hn (by decide)) (Nat.pow_le_pow_left hbase 10)

theorem numeral_nul (hletter : ∀ d < 16, digitChar letter d ≠ 0) (hbase : 1 < base)
    (hbase' : base ≤ 16) : 0 ∉ numeral letter base n := by
  intro hmem
  rw [numeral] at hmem
  obtain ⟨d, hd, hzero⟩ := List.mem_map.mp hmem
  refine hletter d ?_ hzero
  split at hd
  case isTrue => rw [List.mem_singleton.mp hd]; decide
  case isFalse =>
    have hlt := Nat.digits_lt_base hbase (List.mem_reverse.mp hd)
    omega

/-- A decimal does not start with a zero. -/
theorem numeral_head (letter : UInt8) (hn : n ≠ 0) :
    ∃ d ds, numeral letter 10 n = digitChar letter d :: ds ∧ 0 < d ∧ d < 10 := by
  have hne : Nat.digits 10 n ≠ [] := Nat.digits_ne_nil_iff_ne_zero.mpr hn
  have hlast := Nat.getLast_digit_ne_zero 10 hn
  have hlt := Nat.digits_lt_base (by decide) (List.getLast_mem hne)
  refine ⟨(Nat.digits 10 n).getLast hne,
    ((Nat.digits 10 n).dropLast.reverse).map (digitChar letter), ?_, by omega, hlt⟩
  have hsplit := List.dropLast_append_getLast hne
  rw [numeral_of_ne_zero hn, ← List.map_cons, ← List.reverse_concat', hsplit]

/-- What is read of digits, the first one being the most significant. -/
def value (ds : List Nat) (start : Nat) : Nat := ds.foldl (fun n d => n * 10 + d) start

theorem value_concat (ds : List Nat) (d start : Nat) :
    value (ds ++ [d]) start = value ds start * 10 + d := List.foldl_concat ..

theorem value_digits (n : Nat) : value (Nat.digits 10 n).reverse 0 = n := by
  have hfold : ∀ ds : List Nat, value ds.reverse 0 = Nat.ofDigits 10 ds := by
    intro ds
    induction ds with
    | nil => rfl
    | cons d ds ih =>
      rw [List.reverse_cons, value_concat, ih, Nat.ofDigits_cons, Nat.mul_comm, Nat.add_comm]
  rw [hfold, Nat.ofDigits_digits]

end Numeral

/-! ## Directives -/

inductive Conversion where
  | d
  | u
  | x
  | X
  deriving Repr, DecidableEq

namespace Conversion

/-- How a conversion is written. -/
def char : Conversion → UInt8
  | .d => 100
  | .u => 117
  | .x => 120
  | .X => 88

/-- The sign of a value. -/
def sign (c : Conversion) (v : BitVec 32) : List UInt8 :=
  if c = .d ∧ v.toInt < 0 then [45] else []

/-- The text of a value without its sign. -/
def digits (c : Conversion) (v : BitVec 32) : List UInt8 :=
  match c with
  | .d => numeral 97 10 v.toInt.natAbs
  | .u => numeral 97 10 v.toNat
  | .x => numeral 97 16 v.toNat
  | .X => numeral 65 16 v.toNat

theorem sign_eq (c : Conversion) (v : BitVec 32) : c.sign v = [] ∨ c.sign v = [45] := by
  rw [sign]
  split
  case isTrue => exact .inr rfl
  case isFalse => exact .inl rfl

theorem length_digits_le (c : Conversion) (v : BitVec 32) : (c.digits v).length ≤ 10 := by
  have hv := v.isLt
  cases c with
  | d =>
    have habs : v.toInt.natAbs < 2 ^ 32 := by
      rw [BitVec.toInt_eq_toNat_cond]
      split <;> omega
    exact numeral_length_le (by decide) habs
  | u => exact numeral_length_le (by decide) hv
  | x => exact numeral_length_le (by decide) hv
  | X => exact numeral_length_le (by decide) hv

theorem digits_nul (c : Conversion) (v : BitVec 32) : 0 ∉ c.digits v := by
  cases c with
  | d => exact numeral_nul (by decide) (by decide) (by decide)
  | u => exact numeral_nul (by decide) (by decide) (by decide)
  | x => exact numeral_nul (by decide) (by decide) (by decide)
  | X => exact numeral_nul (by decide) (by decide) (by decide)

end Conversion

/-- A directive; a width of zero is none. -/
structure Directive where
  minus : Bool
  zeros : Nat
  width : Nat
  conversion : Conversion
  deriving Repr, DecidableEq

namespace Directive

/-- How the width is written. -/
def widthText (d : Directive) : List UInt8 :=
  if d.width = 0 then [] else numeral 97 10 d.width

/-- How a directive is written. -/
def format (d : Directive) : List UInt8 :=
  37 :: ((if d.minus then [45] else []) ++ (List.replicate d.zeros 48 ++
    (d.widthText ++ [d.conversion.char])))

/-- The length of a value without padding. -/
def bare (d : Directive) (v : BitVec 32) : Nat :=
  (d.conversion.sign v ++ d.conversion.digits v).length

/-- What a directive prints: the minus overrides the zeros, and these stand behind the sign. -/
def text (d : Directive) (v : BitVec 32) : List UInt8 :=
  let sign := d.conversion.sign v
  let digits := d.conversion.digits v
  let missing := d.width - d.bare v
  if d.minus then sign ++ digits ++ List.replicate missing 32
  else if 0 < d.zeros then sign ++ List.replicate missing 48 ++ digits
  else List.replicate missing 32 ++ (sign ++ digits)

theorem length_text (d : Directive) (v : BitVec 32) :
    (d.text v).length = max d.width (d.bare v) := by
  have hbare : d.bare v = (d.conversion.sign v).length + (d.conversion.digits v).length :=
    List.length_append
  rw [text]
  split
  · simp only [List.length_append, List.length_replicate]
    omega
  · split
    · simp only [List.length_append, List.length_replicate]
      omega
    · simp only [List.length_append, List.length_replicate]
      omega

theorem bare_le (d : Directive) (v : BitVec 32) : d.bare v ≤ 11 := by
  have hdigits := d.conversion.length_digits_le v
  rw [bare, List.length_append]
  rcases d.conversion.sign_eq v with h | h <;> rw [h]
  · rw [List.length_nil]
    omega
  · rw [List.length_singleton]
    omega

theorem length_text_le (d : Directive) (hwidth : d.width ≤ 11) (v : BitVec 32) :
    (d.text v).length ≤ 11 := by
  rw [length_text]
  exact Nat.max_le.mpr ⟨hwidth, d.bare_le v⟩

theorem text_nul (d : Directive) (v : BitVec 32) : 0 ∉ d.text v := by
  have hdigits := d.conversion.digits_nul v
  have hsign : 0 ∉ d.conversion.sign v := by
    rcases d.conversion.sign_eq v with h | h <;> rw [h] <;> decide
  have hblank : ∀ n, (0 : UInt8) ∉ List.replicate n 32 :=
    fun n h => absurd (List.eq_of_mem_replicate h) (by decide)
  have hzero : ∀ n, (0 : UInt8) ∉ List.replicate n 48 :=
    fun n h => absurd (List.eq_of_mem_replicate h) (by decide)
  rw [text]
  split
  · simp only [List.mem_append, hdigits, hsign, hblank, or_self, not_false_eq_true]
  · split
    · simp only [List.mem_append, hdigits, hsign, hzero, or_self, not_false_eq_true]
    · simp only [List.mem_append, hdigits, hsign, hblank, or_self, not_false_eq_true]

end Directive

end PrplHypervisor.Format
