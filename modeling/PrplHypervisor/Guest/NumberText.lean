import PrplHypervisor.Lib.Text
import PrplHypervisor.Guest.SoftDivision
import Mathlib.Data.Nat.Digits.Lemmas

/-!
# Numbers and their text (bare-metal-apps/lib/libc.c)

`itoa` writes the digits of a number from the last to the first, a sign and a NUL, and
turns the text around. `strtol` and `atoi` read such texts. Memory is a function from
addresses, counted from the buffer `s`, to bytes.

- `Digits`: what a list of digits is for a number.
- `itoa_spec`: `itoa` leaves the text of its number, whatever the buffer held.
- `strtol` reads nine digits at most, and a text of nine or more has no end for it.
  `numberText_iff`: it is the inverse of `itoa` for numbers of up to eight digits; `atoi`
  is for all numbers in base ten.
-/

namespace PrplHypervisor.Libc

open While Text

/-- Bytes by address. -/
abbrev Bytes := Nat → UInt8

/-! ## `itoa` -/

/-- The string of digits that `itoa` indexes. -/
def digitTable : List Char :=
  ['z', 'y', 'x', 'w', 'v', 'u', 't', 's', 'r', 'q', 'p', 'o', 'n', 'm', 'l', 'k', 'j', 'i', 'h',
    'g', 'f', 'e', 'd', 'c', 'b', 'a', '9', '8', '7', '6', '5', '4', '3', '2', '1',
    '0',
    '1', '2', '3', '4', '5', '6', '7', '8', '9', 'a', 'b', 'c', 'd', 'e', 'f', 'g', 'h', 'i', 'j',
    'k', 'l', 'm', 'n', 'o', 'p', 'q', 'r', 's', 't', 'u', 'v', 'w', 'x', 'y', 'z']

/-- A character of the table; the string ends in a NUL. -/
def digitAt (k : Nat) : UInt8 := ((digitTable.map fun c => c.toNat.toUInt8)[k]?).getD 0

/-- The variables of `itoa`. -/
structure ItoaState where
  i : BitVec 32
  tmpValue : BitVec 32
  ptr : Nat
  mem : Bytes

/-- The body of its first loop. -/
def ItoaState.digit (base : BitVec 32) (s : ItoaState) : ItoaState :=
  let tmpValue := s.i
  let i := s.i.sdiv base
  { i := i
    tmpValue := tmpValue
    ptr := s.ptr + 1
    mem := Function.update s.mem s.ptr (digitAt (35 + (tmpValue - i * base)).toNat) }

/-- `if (tmp_value < 0) *ptr++ = '-'`. -/
def ItoaState.sign (s : ItoaState) : ItoaState :=
  if s.tmpValue.slt 0 then { s with mem := Function.update s.mem s.ptr 45, ptr := s.ptr + 1 } else s

/-- `itoa`; the result is what memory holds when it returns `s`. -/
def itoa (i : BitVec 32) (mem : Bytes) (base : BitVec 32) : Option Bytes :=
  if base.slt 2 || (36 : BitVec 32).slt base then some (Function.update mem 0 0)
  else do
    let s ← whileLoop (fun s => s.i != 0) (ItoaState.digit base) loopRounds
      (ItoaState.digit base ⟨i, i, 0, mem⟩)
    let s := s.sign
    let mem := Function.update s.mem s.ptr 0
    let t ← whileLoop (fun t => t.lo < t.hi) Ends.swap loopRounds ⟨0, s.ptr - 1, mem⟩
    return t.mem

/-! ## `strtol` and `atoi` -/

/-- The value of a character as a digit. -/
def digitValue (ch : UInt8) : Option (BitVec 32) :=
  let ch := ch.toBitVec.signExtend 32
  if 48 ≤ ch ∧ ch ≤ 57 then some (ch - 48)
  else if 65 ≤ ch ∧ ch ≤ 90 then some (ch - 65 + 10)
  else if 97 ≤ ch ∧ ch ≤ 122 then some (ch - 97 + 10)
  else none

/-- `for (i = 0; i <= 8; ++i)` with so many rounds to go: where `s` is after the loop,
and `value`. -/
def strtolLoop (mem : Bytes) (base : BitVec 32) : Nat → Nat → BitVec 32 → Nat × BitVec 32
  | 0, s, value => (s, value)
  | rounds + 1, s, value =>
    match digitValue (mem s) with
    | none => (s + 1, value)
    | some d => strtolLoop mem base rounds (s + 1) (value * base + d)

/-- `strtol` of the text at `s`: the value, and what it stores through `end`. -/
def strtol (mem : Bytes) (s : Nat) (base : BitVec 32) : BitVec 32 × Nat :=
  let neg := mem s == 45
  let s := if neg then s + 1 else s
  let hex := mem s == 48 && mem (s + 1) == 120
  let base := if hex then 16 else base
  let s := if hex then s + 2 else s
  let (s, value) := strtolLoop mem base 9 s 0
  (if neg then -value else value, s - 1)

/-- `atoi` of the text at `s`. -/
def atoi (mem : Bytes) (s : Nat) : Option (BitVec 32) := do
  let s ← whileLoop (fun s => mem s == 32 || mem s == 9) (fun s => s + 1) loopRounds s
  let f := mem s == 45
  let s := if mem s == 45 || mem s == 43 then s + 1 else s
  let (_, n) ← whileLoop (fun p : Nat × BitVec 32 => 48 ≤ mem p.1 && mem p.1 ≤ 57)
    (fun p => (p.1 + 1, p.2 * 10 + (mem p.1).toBitVec.signExtend 32 - 48)) loopRounds (s, 0)
  return if f then -n else n

/-! ## Digits -/

def digitChar (d : Nat) : UInt8 := digitAt (35 + d)

theorem digitAt_mirror : ∀ d < 36, digitAt (35 - d) = digitChar d := by decide

theorem digitValue_digitChar : ∀ d < 36, digitValue (digitChar d) = some (BitVec.ofNat 32 d) := by
  decide

/-- A digit is no NUL, no sign and no blank, and a zero is the only `'0'`. -/
theorem digitChar_ne : ∀ d < 36, digitChar d ≠ 0 ∧ digitChar d ≠ 45 ∧ digitChar d ≠ 43 ∧
    digitChar d ≠ 32 ∧ digitChar d ≠ 9 ∧ (digitChar d = 48 → d = 0) := by
  decide

/-- `ds` are the digits of `n`, the last one first, with no zero in front. -/
structure Digits (base n : Nat) (ds : List Nat) : Prop where
  lt : ∀ d ∈ ds, d < base
  value : Nat.ofDigits base ds = n
  pos : 0 < ds.length
  least : ds.length = 1 ∨ base ^ (ds.length - 1) ≤ n

section Digits

variable {base n k d : Nat} {ds es : List Nat}

theorem Digits.length_le_iff (h : Digits base n ds) (hbase : 1 < base) (hk : 0 < k) :
    ds.length ≤ k ↔ n < base ^ k := by
  constructor
  · intro hle
    rw [← h.value]
    exact (Nat.ofDigits_lt_base_pow_length hbase h.lt).trans_le
      (Nat.pow_le_pow_right (by omega) hle)
  · intro hlt
    by_contra hle
    have hleast := h.least.resolve_left (by omega)
    have := Nat.pow_le_pow_right (n := base) (by omega) (show k ≤ ds.length - 1 by omega)
    omega

/-- The first digit is not zero if there are more. -/
theorem Digits.head_ne_zero (h : Digits base n ds) (hbase : 1 < base)
    (hds : ds.reverse = d :: es) (hes : es ≠ []) : d ≠ 0 := by
  rintro rfl
  have hrev : ds = es.reverse ++ [0] := by
    rw [← List.reverse_reverse ds, hds, List.reverse_cons]
  have hlt : Nat.ofDigits base es.reverse < base ^ es.reverse.length :=
    Nat.ofDigits_lt_base_pow_length hbase fun d hd => h.lt d (by rw [hrev]; simp [hd])
  have hpos := List.length_pos_iff.mpr hes
  have hvalue := h.value
  have hleast := h.least
  rw [hrev] at hvalue hleast
  simp only [Nat.ofDigits_append, Nat.ofDigits_singleton, List.length_append, List.length_reverse,
    List.length_singleton, Nat.add_sub_cancel, Nat.mul_zero, Nat.add_zero] at hvalue hleast hlt
  omega

/-- Reading the digits from the first to the last, modulo the word. -/
theorem foldl_digits (base : BitVec 32) (ds : List Nat) :
    ds.reverse.foldl (fun value d => value * base + BitVec.ofNat 32 d) 0 =
      BitVec.ofNat 32 (Nat.ofDigits base.toNat ds) := by
  rw [List.foldl_reverse]
  induction ds with
  | nil => rfl
  | cons d ds ih =>
    rw [List.foldr_cons, ih, Nat.ofDigits_cons, BitVec.ofNat_add, BitVec.ofNat_mul,
      BitVec.ofNat_toNat, BitVec.setWidth_eq]
    ring

end Digits

/-! ## The text that `itoa` leaves -/

section Itoa

variable {i base : BitVec 32} {ds : List Nat} {s : ItoaState}

/-- The digits `ds` have been written, and `s.i` is left of the number. -/
structure Writing (i base : BitVec 32) (ds : List Nat) (s : ItoaState) : Prop where
  ptr_eq : s.ptr = ds.length
  text : Holds s.mem 0 (ds.map digitChar)
  lt : ∀ d ∈ ds, d < base.toNat
  value : Nat.ofDigits base.toNat ds + base.toNat ^ ds.length * s.i.toInt.natAbs = i.toInt.natAbs
  nonpos : i.toInt < 0 → s.i.toInt ≤ 0
  nonneg : 0 ≤ i.toInt → 0 ≤ s.i.toInt

/-- What is known after a round besides. -/
structure Written (i base : BitVec 32) (ds : List Nat) (s : ItoaState) : Prop
    extends Writing i base ds s where
  pos : 0 < ds.length
  least : ds.length = 1 ∨ base.toNat ^ (ds.length - 1) ≤ i.toInt.natAbs
  tmp : s.tmpValue.toInt < 0 ↔ i.toInt < 0

theorem Writing.start (i base : BitVec 32) (mem : Bytes) : Writing i base [] ⟨i, i, 0, mem⟩ :=
  ⟨rfl, trivial, by simp, by simp, le_of_lt, id⟩

/-- The bases `itoa` writes in. -/
structure Radix (base : BitVec 32) : Prop where
  two_le : 2 ≤ base.toInt
  le : base.toInt ≤ 36

theorem Radix.toInt_eq (hb : Radix base) : base.toInt = base.toNat := by
  have := hb.two_le
  have := base.isLt
  rw [BitVec.toInt_eq_toNat_cond] at *
  split at * <;> omega

theorem Radix.ne_zero (hb : Radix base) : base ≠ 0 := by
  rintro rfl
  simpa using hb.two_le

/-- The character of a remainder, positive or negative. -/
theorem digitAt_remainder (hb : Radix base) (i : BitVec 32) :
    digitAt (35 + (i - i.sdiv base * base)).toNat =
      digitChar (i.toInt.natAbs % base.toNat) := by
  have hlaw : DivisionLaw i base (i.sdiv base) (i.srem base) := .sdiv_srem hb.ne_zero
  have hrem : i - i.sdiv base * base = i.srem base := by
    rw [sub_eq_iff_eq_add', ← hlaw.identity]
  have hbase := hb.toInt_eq
  have habs : (i.srem base).toInt.natAbs = i.toInt.natAbs % base.toNat := by
    rw [BitVec.toInt_srem, Int.natAbs_tmod, hbase, Int.natAbs_natCast]
  have hlt : i.toInt.natAbs % base.toNat < 36 := by
    have := hb.two_le
    have := hb.le
    have := Nat.mod_lt i.toInt.natAbs (show base.toNat > 0 by omega)
    omega
  rw [hrem, ← habs]
  rw [← habs] at hlt
  have hr := BitVec.toInt_eq_toNat_cond (i.srem base)
  have hword := (i.srem base).isLt
  have hsum : (35 + i.srem base).toNat = (35 + (i.srem base).toNat) % 2 ^ 32 :=
    BitVec.toNat_add _ _
  by_cases hneg : (i.srem base).toInt < 0
  · rw [if_neg (by split at hr <;> omega)] at hr
    rw [show (35 + i.srem base).toNat = 35 - (i.srem base).toInt.natAbs by omega]
    exact digitAt_mirror _ hlt
  · rw [if_pos (by split at hr <;> omega)] at hr
    rw [digitChar, show (35 + i.srem base).toNat = 35 + (i.srem base).toInt.natAbs by omega]

theorem Radix.toInt_digit (hb : Radix base) (s : ItoaState) :
    (s.digit base).i.toInt = s.i.toInt.tdiv base.toInt := by
  refine BitVec.toInt_sdiv_of_ne_or_ne _ _ (.inr ?_)
  rintro rfl
  simpa using hb.two_le

theorem Radix.natAbs_digit (hb : Radix base) (s : ItoaState) :
    (s.digit base).i.toInt.natAbs = s.i.toInt.natAbs / base.toNat := by
  rw [hb.toInt_digit, Int.natAbs_tdiv, hb.toInt_eq, Int.natAbs_natCast]
  rfl

/-- One round writes a digit. -/
theorem Writing.digit (h : Writing i base ds s) (hb : Radix base)
    (hs : (ds = [] ∧ s.i = i) ∨ s.i ≠ 0) :
    Written i base (ds ++ [s.i.toInt.natAbs % base.toNat]) (s.digit base) := by
  have hbase := hb.toInt_eq
  have h2 := hb.two_le
  have hdiv := hb.toInt_digit s
  have habs := hb.natAbs_digit s
  have hnonpos := h.nonpos
  have hnonneg := h.nonneg
  refine ⟨⟨?_, ?_, ?_, ?_, ?_, ?_⟩, by simp, ?_, ?_⟩
  · simp [ItoaState.digit, h.ptr_eq]
  · have htext := h.text.concat (c := digitChar (s.i.toInt.natAbs % base.toNat))
    rw [List.length_map, Nat.zero_add, ← h.ptr_eq] at htext
    simp only [ItoaState.digit, digitAt_remainder hb, List.map_append, List.map_singleton]
    exact htext
  · intro d hd
    rcases List.mem_append.mp hd with hd | hd
    · exact h.lt d hd
    · rw [List.mem_singleton.mp hd]
      exact Nat.mod_lt _ (by omega)
  · rw [Nat.ofDigits_append, Nat.ofDigits_singleton, List.length_append, List.length_singleton,
      Nat.pow_succ, Nat.mul_assoc, Nat.add_assoc, ← Nat.mul_add, ← h.value, habs,
      Nat.mod_add_div]
  · intro hi
    have hdivneg := Int.tdiv_nonneg (Int.neg_nonneg_of_nonpos (hnonpos hi))
      (show 0 ≤ base.toInt by omega)
    rw [Int.neg_tdiv] at hdivneg
    omega
  · intro hi
    rw [hdiv]
    exact Int.tdiv_nonneg (hnonneg hi) (by omega)
  · rcases hs with ⟨rfl, -⟩ | hs
    · exact .inl rfl
    · right
      have hne : s.i.toInt ≠ 0 := (toInt_eq_zero_iff s.i).not.mpr hs
      rw [List.length_append, List.length_singleton, Nat.add_sub_cancel, ← h.value]
      exact (Nat.le_mul_of_pos_right _ (by omega)).trans (Nat.le_add_left _ _)
  · show s.i.toInt < 0 ↔ i.toInt < 0
    rcases hs with ⟨-, hs⟩ | hs
    · rw [hs]
    · have hne : s.i.toInt ≠ 0 := (toInt_eq_zero_iff s.i).not.mpr hs
      omega

/-- The first loop writes the digits of the number. -/
theorem Written.loop (h : Written i base ds s) (hb : Radix base) :
    ∃ es t, whileLoop (fun s => s.i != 0) (ItoaState.digit base) loopRounds s = some t ∧
      Written i base es t ∧ Digits base.toNat i.toInt.natAbs es := by
  let inv : Nat → ItoaState → Prop := fun n s => s.i.toInt.natAbs = n ∧ ∃ ds, Written i base ds s
  have h2 := hb.two_le
  have hbase := hb.toInt_eq
  have hstep : ∀ n s, inv n s → (s.i != 0) = true → ∃ m < n, inv m (s.digit base) := by
    rintro n s ⟨rfl, ds, hs⟩ hc
    have hne : s.i ≠ 0 := by simpa using hc
    have hne' : s.i.toInt ≠ 0 := (toInt_eq_zero_iff s.i).not.mpr hne
    refine ⟨_, ?_, rfl, _, hs.toWriting.digit hb (.inr hne)⟩
    rw [hb.natAbs_digit]
    exact Nat.div_lt_self (by omega) (by omega)
  have hle : s.i.toInt.natAbs ≤ loopRounds := by
    have := BitVec.le_toInt s.i
    have := BitVec.toInt_lt (x := s.i)
    rw [loopRounds]
    omega
  obtain ⟨m, t, ht, ⟨-, es, hes⟩, hc⟩ := whileLoop_total inv hstep ⟨rfl, ds, h⟩ hle
  have hi : t.i = 0 := by simpa using hc
  refine ⟨es, t, ht, hes, hes.lt, ?_, hes.pos, hes.least⟩
  have hvalue := hes.value
  rw [hi] at hvalue
  simpa using hvalue

/-- The text of a number: a sign, and its digits. -/
def numberText (i : BitVec 32) (ds : List Nat) : List UInt8 :=
  (if i.toInt < 0 then [45] else []) ++ ds.reverse.map digitChar

theorem Digits.length_le (hb : Radix base) (h : Digits base.toNat i.toInt.natAbs ds) :
    ds.length ≤ 32 := by
  have h2 := hb.two_le
  have hbase := hb.toInt_eq
  have hi : i.toInt.natAbs ≤ 2 ^ 31 := by
    have := BitVec.le_toInt i
    have := BitVec.toInt_lt (x := i)
    omega
  have hpow := Nat.pow_le_pow_left (show 2 ≤ base.toNat by omega) 32
  exact (h.length_le_iff (by omega) (by decide)).mpr (by omega)

/-- The sign is written behind the digits, before the text is turned around. -/
theorem Written.sign (h : Written i base ds s) :
    s.sign.ptr = (numberText i ds).reverse.length ∧
      Holds s.sign.mem 0 (numberText i ds).reverse := by
  have hslt : s.tmpValue.slt 0 = decide (i.toInt < 0) := by
    exact decide_eq_decide.mpr h.tmp
  have hrev : (numberText i ds).reverse =
      ds.map digitChar ++ if i.toInt < 0 then [45] else [] := by
    rw [numberText, List.reverse_append, ← List.map_reverse, List.reverse_reverse]
    split <;> rfl
  rw [hrev, ItoaState.sign, hslt]
  by_cases hneg : i.toInt < 0
  · have htext := h.text.concat (c := 45)
    rw [Nat.zero_add, List.length_map, ← h.ptr_eq] at htext
    simp only [hneg, decide_true, if_true]
    exact ⟨by simp [h.ptr_eq], htext⟩
  · simp only [hneg, decide_false, if_false, List.append_nil, Bool.false_eq_true]
    exact ⟨by simp [h.ptr_eq], h.text⟩

/-- `itoa` leaves the text of its number and a NUL, whatever the buffer held. -/
theorem itoa_spec (hb : Radix base) (i : BitVec 32) (mem : Bytes) :
    ∃ ds t, Digits base.toNat i.toInt.natAbs ds ∧ itoa i mem base = some t ∧
      Holds t 0 (numberText i ds ++ [0]) := by
  obtain ⟨ds, s, hs, hw, hds⟩ :=
    ((Writing.start i base mem).digit hb (.inl ⟨rfl, rfl⟩)).loop hb
  obtain ⟨hptr, htext⟩ := hw.sign
  have hpos : 0 < (numberText i ds).reverse.length := by
    have := hds.pos
    simp only [numberText, List.length_reverse, List.length_append, List.length_map]
    omega
  have hlen : (numberText i ds).reverse.length ≤ loopRounds := by
    have := hds.length_le hb
    simp only [numberText, List.length_reverse, List.length_append, List.length_map, loopRounds]
    split <;> simp <;> omega
  obtain ⟨t, ht, hrev, hout⟩ := reverse_spec
    (htext.update (q := s.sign.ptr) (c := 0) (.inr (by omega))) hpos hlen
  rw [List.reverse_reverse] at hrev
  rw [Nat.zero_add, ← hptr] at ht
  refine ⟨ds, t.mem, hds, ?_, holds_append.mpr ⟨hrev, ?_, trivial⟩⟩
  · have h2 : base.slt 2 = false := by
      rw [BitVec.slt, decide_eq_false_iff_not]
      exact not_lt.mpr hb.two_le
    have h36 : (36 : BitVec 32).slt base = false := by
      rw [BitVec.slt, decide_eq_false_iff_not]
      exact not_lt.mpr hb.le
    simp only [itoa, h2, h36, Bool.or_self, Bool.false_eq_true, if_false]
    rw [hs]
    simp only [Option.bind_eq_bind, Option.bind_some, ht, Option.pure_def]
  · rw [List.length_reverse, Nat.zero_add] at *
    rw [hout _ (.inr (by omega)), ← hptr, Function.update_self]

end Itoa

/-! ## What `strtol` and `atoi` read -/

section Read

variable {i base : BitVec 32} {ds es : List Nat} {mem : Bytes} {rounds s : Nat}

/-- `s` is the address of the NUL of the text at 0. -/
def IsEnd (mem : Bytes) (s : Nat) : Prop := mem s = 0 ∧ ∀ a < s, mem a ≠ 0

/-- The number is negated where the text has a sign. -/
theorem negate_eq (i : BitVec 32) :
    (if i.toInt < 0 then -BitVec.ofNat 32 i.toInt.natAbs else BitVec.ofNat 32 i.toInt.natAbs) =
      i := by
  have hi := BitVec.toInt_eq_toNat_cond i
  have hlt := i.isLt
  split
  · rw [if_neg (by split at hi <;> omega)] at hi
    bv_omega
  · rw [if_pos (by split at hi <;> omega)] at hi
    bv_omega

/-- A text has one end. -/
theorem isEnd_length {l : List UInt8} (h : Holds mem 0 (l ++ [0])) (hl : ∀ c ∈ l, c ≠ 0) :
    IsEnd mem l.length := by
  obtain ⟨htext, hnul, -⟩ := holds_append.mp h
  rw [holds_iff] at htext
  rw [Nat.zero_add] at hnul
  refine ⟨hnul, fun a ha => ?_⟩
  rw [← Nat.zero_add a, htext a ha]
  exact hl _ (List.getElem_mem ha)

/-- With rounds to spare the loop stops behind the character after the digits. -/
theorem strtolLoop_of_lt (base value : BitVec 32) (h : Holds mem s (es.map digitChar ++ [0]))
    (hes : ∀ d ∈ es, d < 36) (hlt : es.length < rounds) :
    strtolLoop mem base rounds s value =
      (s + es.length + 1,
        es.foldl (fun value d => value * base + BitVec.ofNat 32 d) value) := by
  induction es generalizing rounds s value with
  | nil =>
    cases rounds with
    | zero => simp at hlt
    | succ rounds =>
      have hnul : mem s = 0 := h.1
      rw [strtolLoop, hnul]
      rfl
  | cons d es ih =>
    cases rounds with
    | zero => simp at hlt
    | succ rounds =>
      have hd := digitValue_digitChar d (hes d List.mem_cons_self)
      rw [strtolLoop, h.1, hd]
      simp only
      rw [ih _ h.2 (fun d hd => hes d (List.mem_cons_of_mem _ hd)) (by simpa using hlt),
        List.foldl_cons, List.length_cons, Nat.add_right_comm s 1, ← Nat.add_assoc]

/-- Without, it stops where they run out. -/
theorem strtolLoop_of_le (base value : BitVec 32) (h : Holds mem s (es.map digitChar ++ [0]))
    (hes : ∀ d ∈ es, d < 36) (hle : rounds ≤ es.length) :
    (strtolLoop mem base rounds s value).1 = s + rounds := by
  induction rounds generalizing es s value with
  | zero => rfl
  | succ rounds ih =>
    cases es with
    | nil => simp at hle
    | cons d es =>
      have hd := digitValue_digitChar d (hes d List.mem_cons_self)
      rw [strtolLoop, h.1, hd]
      simp only
      rw [ih _ h.2 (fun d hd => hes d (List.mem_cons_of_mem _ hd)) (by simpa using hle)]
      omega

/-- The loop of `atoi`. -/
theorem atoiLoop_eq (value : BitVec 32) (h : Holds mem s (es.map digitChar ++ [0]))
    (hes : ∀ d ∈ es, d < 10) (hle : es.length ≤ rounds) :
    whileLoop (fun p : Nat × BitVec 32 => 48 ≤ mem p.1 && mem p.1 ≤ 57)
        (fun p => (p.1 + 1, p.2 * 10 + (mem p.1).toBitVec.signExtend 32 - 48)) rounds (s, value) =
      some (s + es.length, es.foldl (fun value d => value * 10 + BitVec.ofNat 32 d) value) := by
  induction es generalizing rounds s value with
  | nil =>
    have hnul : mem s = 0 := h.1
    rw [whileLoop_of_not (by simp only [hnul]; rfl)]
    rfl
  | cons d es ih =>
    cases rounds with
    | zero => simp at hle
    | succ rounds =>
      have hdec : ∀ d < 10, (decide (48 ≤ digitChar d) && decide (digitChar d ≤ 57)) = true ∧
          (digitChar d).toBitVec.signExtend 32 - 48 = BitVec.ofNat 32 d := by decide
      obtain ⟨hc, hd⟩ := hdec d (hes d List.mem_cons_self)
      rw [whileLoop_of_cond (by simp only [h.1]; exact hc)]
      simp only [h.1]
      rw [add_sub_assoc, hd,
        ih _ h.2 (fun d hd => hes d (List.mem_cons_of_mem _ hd)) (by simpa using hle),
        List.foldl_cons, List.length_cons, Nat.add_right_comm s 1, ← Nat.add_assoc]

/-- Where the digits of the text begin. -/
def digitsStart (i : BitVec 32) : Nat := if i.toInt < 0 then 1 else 0

variable (hbase : base.toNat ≤ 36) (hds : Digits base.toNat i.toInt.natAbs ds)
  (h : Holds mem 0 (numberText i ds ++ [0]))

include hbase hds h

theorem digits_at_start :
    Holds mem (digitsStart i) (ds.reverse.map digitChar ++ [0]) ∧
      (mem 0 == 45) = decide (i.toInt < 0) ∧ mem 0 ≠ 43 ∧ mem 0 ≠ 32 ∧ mem 0 ≠ 9 := by
  rw [numberText, digitsStart] at *
  by_cases hneg : i.toInt < 0
  · rw [if_pos hneg] at h ⊢
    have h0 : mem 0 = 45 := h.1
    refine ⟨h.2, ?_⟩
    simp [h0, hneg]
  · rw [if_neg hneg] at h ⊢
    refine ⟨h, ?_⟩
    obtain ⟨d, es, hrev⟩ : ∃ d es, ds.reverse = d :: es := by
      refine List.exists_cons_of_ne_nil ?_
      intro hnil
      have := hds.pos
      simp [List.reverse_eq_nil_iff.mp hnil] at this
    have hmem : d ∈ ds := by
      rw [← List.mem_reverse, hrev]
      exact List.mem_cons_self
    have hd := digitChar_ne d ((hds.lt d hmem).trans_le hbase)
    rw [hrev] at h
    have h0 : mem 0 = digitChar d := h.1
    simp [h0, hneg, hd]

/-- No text of `itoa` begins like a hexadecimal constant. -/
theorem not_hex (h2 : 2 ≤ base.toNat) :
    (mem (digitsStart i) == 48 && mem (digitsStart i + 1) == 120) = false := by
  obtain ⟨htext, -⟩ := digits_at_start hbase hds h
  cases hrev : ds.reverse with
  | nil =>
    have := hds.pos
    simp [List.reverse_eq_nil_iff.mp hrev] at this
  | cons d es =>
    rw [hrev] at htext
    have hmem : d ∈ ds := by
      rw [← List.mem_reverse, hrev]
      exact List.mem_cons_self
    have hd := digitChar_ne d ((hds.lt d hmem).trans_le hbase)
    rw [htext.1]
    cases es with
    | nil =>
      have hnul : mem (digitsStart i + 1) = 0 := htext.2.1
      simp [hnul]
    | cons d' es =>
      have hd0 := hds.head_ne_zero (by omega) hrev (by simp)
      simp [mt hd.2.2.2.2.2 hd0]

theorem isEnd_numberText : IsEnd mem (digitsStart i + ds.length) := by
  have hlen : (numberText i ds).length = digitsStart i + ds.length := by
    simp only [numberText, digitsStart, List.length_append, List.length_map, List.length_reverse]
    split <;> simp
  rw [← hlen]
  refine isEnd_length h ?_
  intro c hc
  rcases List.mem_append.mp hc with hsign | hdigit
  · split at hsign
    · rw [List.mem_singleton.mp hsign]
      decide
    · cases hsign
  · obtain ⟨d, hd, rfl⟩ := List.mem_map.mp hdigit
    exact (digitChar_ne d ((hds.lt d (List.mem_reverse.mp hd)).trans_le hbase)).1

/-- Up to eight digits are read, and the NUL behind them is found. -/
theorem strtol_of_le (h2 : 2 ≤ base.toNat) (hle : ds.length ≤ 8) :
    strtol mem 0 base = (i, digitsStart i + ds.length) := by
  obtain ⟨htext, hsign, -⟩ := digits_at_start hbase hds h
  have hlt : ∀ d ∈ ds.reverse, d < 36 := fun d hd =>
    (hds.lt d (List.mem_reverse.mp hd)).trans_le hbase
  have hstart : (if decide (i.toInt < 0) = true then 0 + 1 else 0) = digitsStart i := by
    simp [digitsStart]
  have hloop := strtolLoop_of_lt base 0 htext hlt
    (show ds.reverse.length < 9 by rw [List.length_reverse]; omega)
  rw [foldl_digits, hds.value] at hloop
  simp only [strtol, hsign, hstart, not_hex hbase hds h h2, hloop, Bool.false_eq_true, if_false]
  rw [List.length_reverse, Nat.add_sub_cancel]
  simp only [decide_eq_true_eq, negate_eq]

/-- Nine or more leave `end` at a digit. -/
theorem strtol_of_lt (h2 : 2 ≤ base.toNat) (hlt : 8 < ds.length) :
    (strtol mem 0 base).2 = digitsStart i + 8 := by
  obtain ⟨htext, hsign, -⟩ := digits_at_start hbase hds h
  have hdigit : ∀ d ∈ ds.reverse, d < 36 := fun d hd =>
    (hds.lt d (List.mem_reverse.mp hd)).trans_le hbase
  have hstart : (if decide (i.toInt < 0) = true then 0 + 1 else 0) = digitsStart i := by
    simp [digitsStart]
  have hloop := strtolLoop_of_le base 0 htext hdigit
    (show 9 ≤ ds.reverse.length by rw [List.length_reverse]; omega)
  simp only [strtol, hsign, hstart, not_hex hbase hds h h2, Bool.false_eq_true, if_false]
  rw [hloop]
  omega

end Read

/-- `atoi` reads all digits of a text in base ten. -/
theorem atoi_of_text {i : BitVec 32} {ds : List Nat} {mem : Bytes}
    (hds : Digits (10 : BitVec 32).toNat i.toInt.natAbs ds)
    (h : Holds mem 0 (numberText i ds ++ [0])) (hlen : ds.length ≤ 32) : atoi mem 0 = some i := by
  obtain ⟨htext, hsign, hplus, hblank, htab⟩ := digits_at_start (by decide) hds h
  have hstart : (if (decide (i.toInt < 0) || mem 0 == 43) = true then 0 + 1 else 0) =
      digitsStart i := by
    simp [digitsStart, hplus]
  have hloop := atoiLoop_eq 0 htext
    (fun d hd => hds.lt d (List.mem_reverse.mp hd))
    (show ds.reverse.length ≤ loopRounds by rw [List.length_reverse, loopRounds]; omega)
  have hvalue := foldl_digits 10 ds
  rw [hds.value] at hvalue
  have hskip : whileLoop (fun s => mem s == 32 || mem s == 9) (fun s => s + 1) loopRounds 0 =
      some 0 := whileLoop_of_not (by simp [hblank, htab])
  rw [atoi, hskip]
  simp only [Option.bind_eq_bind, Option.bind_some, hsign, hstart, hloop, hvalue, Option.pure_def,
    decide_eq_true_eq, negate_eq]

/-- `strtol` reads back what `itoa` has written and finds its end. -/
def RoundTrip (i base : BitVec 32) (mem : Bytes) : Prop :=
  ∃ t, itoa i mem base = some t ∧ (strtol t 0 base).1 = i ∧ IsEnd t (strtol t 0 base).2

theorem roundTrip_iff {i base : BitVec 32} {mem : Bytes} (hb : Radix base) :
    RoundTrip i base mem ↔ i.toInt.natAbs < base.toNat ^ 8 := by
  have h2 := hb.two_le
  have h36 := hb.le
  have hbase := hb.toInt_eq
  obtain ⟨ds, t, hds, ht, htext⟩ := itoa_spec hb i mem
  rw [← hds.length_le_iff (by omega) (by decide)]
  have hend := isEnd_numberText (by omega) hds htext
  constructor
  · rintro ⟨t₁, ht₁, -, hstop⟩
    obtain rfl := Option.some.inj (ht.symm.trans ht₁)
    by_contra hlt
    rw [strtol_of_lt (by omega) hds htext (by omega) (by omega)] at hstop
    exact hend.2 _ (by omega) hstop.1
  · intro hle
    have hread := strtol_of_le (by omega) hds htext (by omega) hle
    rw [Prod.ext_iff] at hread
    exact ⟨t, ht, hread.1, by rw [hread.2]; exact hend⟩

/-- The round trip by `strtol` works for numbers of up to eight digits, whatever the
base; by `atoi` it works for every number. -/
theorem numberText_iff (i base : BitVec 32) (mem : Bytes) (h2 : 2 ≤ base.toInt)
    (h36 : base.toInt ≤ 36) :
    (RoundTrip i base mem ↔ i.toInt.natAbs < base.toNat ^ 8) ∧
      ∃ t, itoa i mem 10 = some t ∧ atoi t 0 = some i := by
  have hten : Radix 10 := ⟨by decide, by decide⟩
  obtain ⟨ds, t, hds, ht, htext⟩ := itoa_spec hten i mem
  exact ⟨roundTrip_iff ⟨h2, h36⟩, t, ht, atoi_of_text hds htext (hds.length_le hten)⟩

/-- -255 in base 16. -/
theorem numberText_iff_hex : RoundTrip (-255) 16 fun _ => 0 :=
  (numberText_iff (-255) 16 (fun _ => 0) (by decide) (by decide)).1.mpr (by decide)

/-- Nine digits in base ten: `end` is left at the last one. Ten: it is not read. -/
theorem roundTrip_nine_digits :
    ¬RoundTrip 123456789 10 (fun _ => 0) ∧ ¬RoundTrip 1234567890 10 (fun _ => 0) ∧
      (itoa 1234567890 (fun _ => 0) 10).map (fun t => strtol t 0 10) = some (123456789, 8) := by
  have hten : Radix 10 := ⟨by decide, by decide⟩
  refine ⟨fun h => ?_, fun h => ?_, by decide +kernel⟩
  · exact absurd ((roundTrip_iff hten).mp h) (by decide)
  · exact absurd ((roundTrip_iff hten).mp h) (by decide)

end PrplHypervisor.Libc
