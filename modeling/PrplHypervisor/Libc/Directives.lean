import PrplHypervisor.Libc.Printf

/-!
# The directives of `printf` (sys/lib/libc.c, bare-metal-apps/lib/libc.c)

What `print` does at a directive for a number, for any `print_buf` of at least 12 characters.

- `digitLoop_spec`, `printiOf_spec`: the digits fit into `print_buf`; `converted` is what
  `printi` prints.
- `readDirective_format`: a directive is read as it is written.
- `printLoop_directive`: one step of `print`.
- `emitted_eq_text_iff`: where this is what C's `printf` prints.
-/

namespace PrplHypervisor.Printf

open Text Libc Format

/-! ## `printi` -/

/-- The digits from `letbase` on are those from `letter` on. -/
structure Letters (letbase : BitVec 32) (letter : UInt8) : Prop where
  digit : ∀ d < 16, digitOf (BitVec.ofNat 32 d) letbase = digitChar letter d
  nul : ∀ d < 16, digitChar letter d ≠ 0
  zero : digitChar letter 0 = 48

theorem lowerCase : Letters 97 97 := ⟨by decide, by decide, rfl⟩

theorem upperCase : Letters 65 65 := ⟨by decide, by decide, rfl⟩

/-- What `printi` prints. A minus in front of zeros goes out first. -/
def converted (sign digits : List UInt8) (width pad : Nat) : List UInt8 :=
  if sign = [] then padded width pad digits
  else if width ≠ 0 ∧ pad &&& padZero ≠ 0 then sign ++ padded (width - 1) pad digits
  else padded width pad (sign ++ digits)

section Printi

variable {letbase : BitVec 32} {letter : UInt8} {base n len w : Nat} {rest out : List UInt8}
  {p : PrintBuf} {u i : BitVec 32}

theorem push_spec (h : Holds p.buf p.s rest) (hs : 0 < p.s) (c : UInt8) :
    ∃ p', p.push c = some p' ∧ p'.s + 1 = p.s ∧ Holds p'.buf p'.s (c :: rest) := by
  obtain ⟨buf, s⟩ := p
  cases s with
  | zero => exact absurd hs (Nat.lt_irrefl 0)
  | succ s =>
    exact ⟨⟨Function.update buf s c, s⟩, rfl, rfl, Function.update_self ..,
      h.update (.inl (Nat.lt_succ_self s))⟩

/-- The digits of `u` come in front of what the buffer holds. -/
theorem digitLoop_spec (hl : Letters letbase letter) (hbase : 1 < base) (hbase' : base ≤ 16)
    {rounds : Nat} (h : Holds p.buf p.s rest) (hs : (Nat.digits base u.toNat).length ≤ p.s)
    (hrounds : (Nat.digits base u.toNat).length ≤ rounds) :
    ∃ p', digitLoop (BitVec.ofNat 32 base) letbase rounds u p = some p' ∧
      p'.s + (Nat.digits base u.toNat).length = p.s ∧
      Holds p'.buf p'.s ((Nat.digits base u.toNat).reverse.map (digitChar letter) ++ rest) := by
  induction rounds generalizing u p rest with
  | zero =>
    have hnil := List.length_eq_zero_iff.mp (Nat.le_zero.mp hrounds)
    have hu : u = 0 := BitVec.eq_of_toNat_eq (Nat.digits_eq_nil_iff_eq_zero.mp hnil)
    rw [digitLoop, if_pos hu, hnil]
    exact ⟨p, rfl, rfl, h⟩
  | succ rounds ih =>
    by_cases hu : u = 0
    · rw [digitLoop, if_pos hu, hu]
      have hnil : Nat.digits base (0 : BitVec 32).toNat = [] := Nat.digits_zero base
      rw [hnil]
      exact ⟨p, rfl, rfl, h⟩
    · have hpos : 0 < u.toNat := by
        refine Nat.pos_of_ne_zero fun hz => hu (BitVec.eq_of_toNat_eq hz)
      have hb : (BitVec.ofNat 32 base).toNat = base := by
        rw [BitVec.toNat_ofNat, Nat.mod_eq_of_lt (by omega)]
      have hdigit : u.toNat % base < 16 :=
        Nat.lt_of_lt_of_le (Nat.mod_lt _ (Nat.lt_trans Nat.zero_lt_one hbase)) hbase'
      have hmod : u % BitVec.ofNat 32 base = BitVec.ofNat 32 (u.toNat % base) := by
        have hsmall : u.toNat % base % 2 ^ 32 = u.toNat % base := Nat.mod_eq_of_lt (by omega)
        apply BitVec.eq_of_toNat_eq
        rw [BitVec.toNat_umod, hb, BitVec.toNat_ofNat, hsmall]
      have hdiv : (u / BitVec.ofNat 32 base).toNat = u.toNat / base := by
        rw [BitVec.toNat_udiv, hb]
      have hdigits := Nat.digits_def' hbase hpos
      rw [hdigits, List.length_cons] at hs hrounds
      have hc := hl.digit (u.toNat % base) hdigit
      obtain ⟨p₁, hpush, hs₁, h₁⟩ := push_spec h (by omega) (digitChar letter (u.toNat % base))
      obtain ⟨p', hloop, hs', h'⟩ := ih (u := u / BitVec.ofNat 32 base) h₁
        (by rw [hdiv]; omega) (by rw [hdiv]; omega)
      rw [hdiv] at hs' h'
      refine ⟨p', ?_, ?_, ?_⟩
      · rw [digitLoop, if_neg hu, hmod, hc, hpush, Option.bind_some, hloop]
      · rw [hdigits, List.length_cons]
        omega
      · rwa [hdigits, List.reverse_cons, List.map_append, List.append_assoc]

/-- The digits of a word leave room for a sign in a buffer of 12 characters. -/
theorem digitLoop_buffer (hl : Letters letbase letter) (hlen : 12 ≤ len) (hbase : 10 ≤ base)
    (hbase' : base ≤ 16) (hu : u ≠ 0) (buf : Bytes) :
    ∃ p, digitLoop (BitVec.ofNat 32 base) letbase 32 u
        ⟨Function.update buf (len - 1) 0, len - 1⟩ = some p ∧ 0 < p.s ∧
      Holds p.buf p.s (numeral letter base u.toNat ++ [0]) := by
  have hnum : numeral letter base u.toNat =
      (Nat.digits base u.toNat).reverse.map (digitChar letter) :=
    numeral_of_ne_zero fun hz => hu (BitVec.eq_of_toNat_eq hz)
  have hlength : (Nat.digits base u.toNat).length ≤ 10 := by
    have hle : (numeral letter base u.toNat).length ≤ 10 := numeral_length_le hbase u.isLt
    rwa [hnum, List.length_map, List.length_reverse] at hle
  have hnul : Holds (Function.update buf (len - 1) 0) (len - 1) [0] :=
    ⟨Function.update_self .., trivial⟩
  obtain ⟨p, hloop, hs, hp⟩ := digitLoop_spec (p := ⟨Function.update buf (len - 1) 0, len - 1⟩)
    (u := u) hl (by omega) hbase' hnul (by dsimp only; omega)
    (Nat.le_trans hlength (by decide : 10 ≤ 32))
  refine ⟨p, hloop, ?_, by rwa [hnum]⟩
  dsimp only at hs
  omega

/-- `printi` stays in its buffer and prints the number. -/
theorem printiOf_spec (hl : Letters letbase letter) (hlen : 12 ≤ len) (hbase : 10 ≤ base)
    (hbase' : base ≤ 16) (hw : w < 2 ^ 31) (buf : Bytes) (out : List UInt8) (i : BitVec 32)
    (sg : Bool) (pad : Nat) :
    printiOf len buf out i (BitVec.ofNat 32 base) sg (BitVec.ofNat 32 w) pad letbase =
      some (Printed.append ⟨out, 0⟩ (
        if sg && BitVec.ofNat 32 base == 10 && i.slt 0 then
          converted [45] (numeral letter base (-i).toNat) w pad
        else converted [] (numeral letter base i.toNat) w pad)) := by
  have hnul : ∀ n, 0 ∉ numeral letter base n := fun n => numeral_nul hl.nul (by omega) hbase'
  have hshort : ∀ u : BitVec 32, (numeral letter base u.toNat).length ≤ 10 :=
    fun u => numeral_length_le hbase u.isLt
  by_cases hi : i = 0
  · subst hi
    have hzero : numeral letter base (0 : BitVec 32).toNat = [48] := by
      rw [← hl.zero]
      rfl
    have htext : Holds (Function.update (Function.update buf 0 48) 1 0) 0 ([48] ++ [0]) :=
      ⟨rfl, rfl, trivial⟩
    have hpos : (0 : BitVec 32).slt 0 = false := rfl
    rw [printiOf, if_pos rfl, prints_spec (by decide) htext (by decide) hw, hpos, Bool.and_false,
      hzero]
    rfl
  · rw [printiOf, if_neg hi]
    cases hneg : sg && BitVec.ofNat 32 base == 10 && i.slt 0 with
    | false =>
      obtain ⟨p, hloop, -, hp⟩ := digitLoop_buffer hl hlen hbase hbase' hi buf
      have hlt := hshort i
      simp only [if_false, Bool.false_eq_true, hloop, Option.bind_eq_bind, Option.bind_some]
      rw [prints_spec (hnul _) hp (by omega) hw, converted, if_pos rfl]
    | true =>
      have hne : -i ≠ 0 := fun h => hi (BitVec.neg_eq_zero_iff.mp h)
      obtain ⟨p, hloop, hs, hp⟩ := digitLoop_buffer hl hlen hbase hbase' hne buf
      have hlt := hshort (-i)
      simp only [if_true, hloop, Option.bind_eq_bind, Option.bind_some]
      have hsign : ([45] : List UInt8) ≠ [] := List.cons_ne_nil 45 []
      have hwidth : BitVec.ofNat 32 w ≠ 0 ↔ w ≠ 0 := by
        have hmod : w % 2 ^ 32 = w := Nat.mod_eq_of_lt (by omega)
        rw [ne_eq, ← BitVec.toNat_inj, BitVec.toNat_ofNat, hmod]
        rfl
      rw [converted, if_neg hsign]
      simp only [hwidth]
      split
      case isTrue hzero =>
        have hpred : BitVec.ofNat 32 w - 1 = BitVec.ofNat 32 (w - 1) := by
          obtain ⟨k, rfl⟩ := Nat.exists_eq_succ_of_ne_zero hzero.1
          rw [Nat.succ_eq_add_one, BitVec.ofNat_add]
          exact BitVec.add_sub_cancel _ _
        rw [hpred, prints_spec (hnul _) hp (by omega) (by omega), Option.bind_some]
        show some _ = some _
        congr 1
        rw [Printed.append, Printed.append, List.append_assoc, List.length_append, BitVec.ofNat_add]
        exact congrArg (Printed.mk _)
          ((congrArg (1 + ·) (BitVec.zero_add _)).trans (BitVec.zero_add _).symm)
      case isFalse =>
        obtain ⟨p₁, hpush, -, hp₁⟩ := push_spec hp hs 45
        have h0 : 0 ∉ 45 :: numeral letter base (-i).toNat := by
          rw [List.mem_cons]
          rintro (h | h)
          · exact absurd h (by decide)
          · exact hnul _ h
        rw [hpush, Option.bind_some, prints_spec h0 hp₁ (by rw [List.length_cons]; omega) hw]
        rfl

/-- The bases and letters that `print` asks for. -/
def numberKinds : List (BitVec 32 × BitVec 32) := [(10, 97), (16, 97), (16, 65)]

theorem printiOf_isSome (hlen : 12 ≤ len) (hw : w < 2 ^ 31) {b : BitVec 32}
    (hkind : (b, letbase) ∈ numberKinds) (buf : Bytes) (out : List UInt8) (i : BitVec 32)
    (sg : Bool) (pad : Nat) :
    (printiOf len buf out i b sg (BitVec.ofNat 32 w) pad letbase).isSome = true := by
  rw [Option.isSome_iff_exists]
  rw [numberKinds, List.mem_cons, List.mem_cons, List.mem_singleton] at hkind
  rcases hkind with h | h | h
  · obtain ⟨rfl, rfl⟩ := Prod.mk.inj h
    exact ⟨_, printiOf_spec lowerCase hlen (by decide : 10 ≤ 10) (by decide) hw buf out i sg pad⟩
  · obtain ⟨rfl, rfl⟩ := Prod.mk.inj h
    exact ⟨_, printiOf_spec lowerCase hlen (by decide : 10 ≤ 16) (by decide) hw buf out i sg pad⟩
  · obtain ⟨rfl, rfl⟩ := Prod.mk.inj h
    exact ⟨_, printiOf_spec upperCase hlen (by decide : 10 ≤ 16) (by decide) hw buf out i sg pad⟩

end Printi

/-! ## Conversions -/

section Convert

variable {len w : Nat} {v : BitVec 32}

/-- The value of a negative number without its sign. -/
theorem natAbs_toInt (v : BitVec 32) :
    v.toInt.natAbs = if v.slt 0 then (-v).toNat else v.toNat := by
  have hlt := v.isLt
  have hneg : v.slt 0 = decide (v.toInt < 0) := BitVec.slt_eq_decide
  rw [hneg, BitVec.toNat_neg, BitVec.toInt_eq_toNat_cond]
  simp only [decide_eq_true_eq]
  split <;> split <;> omega

theorem convert_spec (hlen : 12 ≤ len) (hw : w < 2 ^ 31) (mem buf : Bytes) (out : List UInt8)
    (c : Conversion) (v : BitVec 32) (pad : Nat) :
    convert len mem buf out c.char v (BitVec.ofNat 32 w) pad =
      some (Printed.append ⟨out, 0⟩ (converted (c.sign v) (c.digits v) w pad)) := by
  have hneg : v.slt 0 = decide (v.toInt < 0) := BitVec.slt_eq_decide
  cases c with
  | d =>
    have hspec := printiOf_spec lowerCase hlen (by decide : 10 ≤ 10) (by decide) hw buf out v true
      pad
    refine hspec.trans ?_
    rw [show (true && BitVec.ofNat 32 10 == 10 && v.slt 0) = v.slt 0 from rfl, Conversion.sign,
      Conversion.digits, natAbs_toInt, hneg]
    by_cases h : v.toInt < 0
    · simp only [h, decide_true, if_true, and_self]
    · simp only [h, decide_false, if_false, and_false, Bool.false_eq_true]
  | u =>
    exact printiOf_spec lowerCase hlen (by decide) (by decide) hw buf out v false pad
  | x =>
    exact printiOf_spec lowerCase hlen (by decide) (by decide) hw buf out v false pad
  | X =>
    exact printiOf_spec upperCase hlen (by decide) (by decide) hw buf out v false pad

end Convert

/-! ## Directives -/

/-- The flags of a directive as `pad`. -/
def flags (d : Directive) : Nat :=
  if 0 < d.zeros then (if d.minus then padRight else 0) ||| padZero
  else if d.minus then padRight else 0

/-- What `print` prints for a directive. -/
def emitted (d : Directive) (v : BitVec 32) : List UInt8 :=
  converted (d.conversion.sign v) (d.conversion.digits v) d.width (flags d)

section Directive

variable {c : UInt8} {cs rest : List UInt8}

theorem readMinus_spec (hc : c ≠ 45) (cs : List UInt8) (minus : Bool) :
    readMinus ((if minus then [45] else []) ++ c :: cs) =
      (if minus then padRight else 0, c :: cs) := by
  cases minus with
  | true => rfl
  | false => exact if_neg hc

theorem readZeros_spec (hc : c ≠ 48) (cs : List UInt8) (z pad : Nat) :
    readZeros pad (List.replicate z 48 ++ c :: cs) =
      (if 0 < z then pad ||| padZero else pad, c :: cs) := by
  induction z generalizing pad with
  | zero => exact if_neg hc
  | succ z ih =>
    rw [List.replicate_succ, List.cons_append, readZeros, if_pos rfl, ih, Nat.or_assoc, Nat.or_self,
      ite_self, if_pos (Nat.succ_pos z)]

/-- The value of what stands there, wrapped as the width is. -/
theorem readWidth_spec (hc : ¬ (48 ≤ c ∧ c ≤ 57)) (cs : List UInt8) (ds : List Nat)
    (hds : ∀ d ∈ ds, d < 10) (start : Nat) :
    readWidth (BitVec.ofNat 32 start) (ds.map (digitChar 97) ++ c :: cs) =
      (BitVec.ofNat 32 (value ds start), c :: cs) := by
  induction ds generalizing start with
  | nil => exact if_neg hc
  | cons d ds ih =>
    have hdigit : ∀ d < 10, (48 ≤ digitChar 97 d ∧ digitChar 97 d ≤ 57) ∧
        (digitChar 97 d).toBitVec.setWidth 32 - 48 = BitVec.ofNat 32 d := by
      decide
    obtain ⟨hrange, hvalue⟩ := hdigit d (hds d List.mem_cons_self)
    rw [List.map_cons, List.cons_append, readWidth, if_pos hrange, hvalue,
      show BitVec.ofNat 32 start * 10 + BitVec.ofNat 32 d = BitVec.ofNat 32 (start * 10 + d) by
        rw [BitVec.ofNat_add, BitVec.ofNat_mul]
        rfl,
      ih fun e he => hds e (List.mem_cons_of_mem _ he)]
    rfl

theorem readWidth_width (d : Directive) (rest : List UInt8) :
    readWidth 0 (d.widthText ++ d.conversion.char :: rest) =
      (BitVec.ofNat 32 d.width, d.conversion.char :: rest) := by
  have hc : ¬ (48 ≤ d.conversion.char ∧ d.conversion.char ≤ 57) := by
    cases d.conversion <;> decide
  rw [Directive.widthText]
  split
  case isTrue hw =>
    rw [hw]
    exact readWidth_spec hc rest [] nofun 0
  case isFalse hw =>
    have hspec := readWidth_spec hc rest (Nat.digits 10 d.width).reverse
      (fun e he => Nat.digits_lt_base (by decide) (List.mem_reverse.mp he)) 0
    rw [value_digits] at hspec
    rw [numeral_of_ne_zero hw]
    exact hspec

/-- What follows the zeros starts neither with one nor with another flag. -/
theorem widthText_head (d : Directive) (rest : List UInt8) :
    ∃ c cs, d.widthText ++ d.conversion.char :: rest = c :: cs ∧ c ≠ 48 ∧ c ≠ 45 ∧ c ≠ 37 := by
  rw [Directive.widthText]
  split
  case isTrue =>
    refine ⟨d.conversion.char, rest, rfl, ?_⟩
    cases d.conversion <;> decide
  case isFalse hw =>
    obtain ⟨e, ds, hnum, hpos, hlt⟩ := numeral_head 97 hw
    have hchar : ∀ e < 10, 0 < e → digitChar 97 e ≠ 48 ∧ digitChar 97 e ≠ 45 ∧
        digitChar 97 e ≠ 37 := by
      decide
    rw [hnum]
    exact ⟨_, _, rfl, hchar e hlt hpos⟩

theorem zeros_head (d : Directive) (rest : List UInt8) :
    ∃ c cs, List.replicate d.zeros 48 ++ (d.widthText ++ d.conversion.char :: rest) = c :: cs ∧
      c ≠ 45 ∧ c ≠ 37 := by
  cases d.zeros with
  | zero =>
    obtain ⟨c, cs, hcs, -, hc⟩ := widthText_head d rest
    exact ⟨c, cs, hcs, hc⟩
  | succ z => exact ⟨48, _, rfl, by decide, by decide⟩

/-- What stands behind the `'%'` of a directive. -/
def afterPercent (d : Directive) (rest : List UInt8) : List UInt8 :=
  (if d.minus then [45] else []) ++
    (List.replicate d.zeros 48 ++ (d.widthText ++ d.conversion.char :: rest))

theorem format_append (d : Directive) (rest : List UInt8) :
    d.format ++ rest = 37 :: afterPercent d rest := by
  simp only [Directive.format, afterPercent, List.cons_append, List.append_assoc, List.nil_append]

/-- A directive is read as it is written. -/
theorem readDirective_format (d : Directive) (rest : List UInt8) :
    readDirective (afterPercent d rest) =
      some (flags d, BitVec.ofNat 32 d.width, d.conversion.char, rest) := by
  obtain ⟨c, cs, hcs, hc, -⟩ := zeros_head d rest
  obtain ⟨c', cs', hcs', hc', -⟩ := widthText_head d rest
  have hminus := readMinus_spec hc cs d.minus
  have hzeros := readZeros_spec hc' cs' d.zeros (if d.minus then padRight else 0)
  rw [← hcs] at hminus
  rw [← hcs'] at hzeros
  rw [readDirective, afterPercent, hminus]
  dsimp only
  rw [hzeros]
  dsimp only
  rw [readWidth_width]
  rfl

/-- No second `'%'` follows. -/
theorem afterPercent_head (d : Directive) (rest : List UInt8) :
    afterPercent d rest ≠ [] ∧ (afterPercent d rest).head? ≠ some 37 := by
  obtain ⟨c, cs, hcs, -, hc⟩ := zeros_head d rest
  rw [afterPercent, hcs]
  cases d.minus with
  | true => exact ⟨nofun, by simp⟩
  | false => exact ⟨nofun, by simpa using hc⟩

/-- One step of `print`, wherever the directive stands. -/
theorem printLoop_directive {len : Nat} (hlen : 12 ≤ len) (crlf : Bool) (mem buf : Bytes)
    (rounds : Nat) (d : Directive) (hw : d.width < 2 ^ 31) (rest : List UInt8) (v : BitVec 32)
    (args : List (BitVec 32)) (o : Printed) :
    printLoop len crlf mem buf (rounds + 1) (d.format ++ rest) (v :: args) o =
      printLoop len crlf mem buf rounds rest args (o.append (emitted d v)) := by
  obtain ⟨hne, hhead⟩ := afterPercent_head d rest
  have hconv : isConversion d.conversion.char = true := by
    cases d.conversion <;> rfl
  rw [format_append, printLoop, if_pos rfl, if_neg hne, if_neg hhead, readDirective_format]
  simp only [Option.bind_eq_bind, Option.bind_some, hconv, if_true,
    convert_spec hlen hw]
  congr 1
  exact congrArg (Printed.mk _) (congrArg (o.pc + ·) (BitVec.zero_add _))

/-! ## Against the standard -/

theorem flags_zero (d : Directive) : flags d &&& padZero ≠ 0 ↔ 0 < d.zeros := by
  rw [flags]
  by_cases hz : 0 < d.zeros
  · rw [if_pos hz]
    refine iff_of_true ?_ hz
    cases d.minus <;> decide
  · rw [if_neg hz]
    refine iff_of_false ?_ hz
    cases d.minus <;> decide

theorem flags_right (d : Directive) : flags d &&& padRight = 0 ↔ d.minus = false := by
  rw [flags]
  cases d.minus <;> split <;> decide

/-- The padding on the right is made of zeros if there are any. -/
theorem emitted_eq (d : Directive) (v : BitVec 32) : emitted d v =
    if d.minus then d.conversion.sign v ++ d.conversion.digits v ++
      List.replicate (d.width - d.bare v) (if 0 < d.zeros then 48 else 32)
    else d.text v := by
  have hright := flags_right d
  have hbare : d.bare v = (d.conversion.sign v).length + (d.conversion.digits v).length :=
    List.length_append
  rw [emitted, converted, Directive.text, hbare]
  simp only [padded, flags_zero, hright]
  rcases d.conversion.sign_eq v with hsign | hsign
  · rw [hsign, if_pos rfl, List.length_nil, Nat.zero_add, List.nil_append, List.nil_append]
    by_cases hz : 0 < d.zeros
    · cases d.minus <;> simp [hz]
    · cases d.minus <;> simp [hz]
  · have hlen : ([45] ++ d.conversion.digits v).length =
        ([45] : List UInt8).length + (d.conversion.digits v).length := List.length_append
    rw [hsign, if_neg (List.cons_ne_nil 45 []), hlen]
    split
    case isTrue hfirst =>
      have hmissing : d.width - 1 - (d.conversion.digits v).length =
          d.width - (([45] : List UInt8).length + (d.conversion.digits v).length) := by
        rw [List.length_singleton]
        omega
      rw [hmissing, if_pos hfirst.2]
      cases d.minus <;> simp [hfirst.2]
    case isFalse hlast =>
      by_cases hz : 0 < d.zeros
      · -- nothing is missing
        have hwidth : d.width = 0 := by
          by_contra hne
          exact hlast ⟨hne, hz⟩
        rw [hwidth, Nat.zero_sub]
        cases d.minus <;> simp
      · rw [if_neg hz]
        cases d.minus <;> simp [hz]

/-- `print` prints what C's `printf` does unless zeros stand where the minus wants blanks. -/
theorem emitted_eq_text_iff (d : Directive) (v : BitVec 32) : emitted d v = d.text v ↔
    ¬ (d.minus = true ∧ 0 < d.zeros ∧ d.bare v < d.width) := by
  rw [emitted_eq]
  cases hminus : d.minus with
  | false => exact iff_of_true rfl fun h => Bool.noConfusion h.1
  | true =>
    by_cases hz : 0 < d.zeros
    · have hmissing : d.bare v < d.width ↔ d.width - d.bare v ≠ 0 := by omega
      simp only [Directive.text, hminus, hz, if_true, List.append_cancel_left_eq, true_and,
        hmissing, not_not]
      cases d.width - d.bare v with
      | zero => simp
      | succ k => simp [List.replicate_succ]
    · refine iff_of_true ?_ fun h => hz h.2.1
      simp only [Directive.text, hminus, hz, if_true, if_false]

/-- `print` of a directive prints what C's `printf` does and returns the length of it. -/
def FormatsAsC (print : Bytes → Bytes → List UInt8 → List (BitVec 32) → Option Printed)
    (d : Directive) (v : BitVec 32) : Prop :=
  ∀ mem buf, ∃ pc, print mem buf d.format [v] = some ⟨d.text v, pc⟩ ∧
    pc.toInt = (d.text v).length

section Print

variable {len : Nat} {d : Directive}

theorem printOf_directive (hlen : 12 ≤ len) (hw : d.width < 2 ^ 31) (crlf : Bool) (mem buf : Bytes)
    (v : BitVec 32) : printOf len crlf mem buf d.format [v] =
      some (Printed.append ⟨[], 0⟩ (emitted d v)) := by
  have hstep := printLoop_directive hlen crlf mem buf
    (d.format.length - 1) d hw [] v [] ⟨[], 0⟩
  rw [List.append_nil] at hstep
  have hround : d.format.length - 1 + 1 = d.format.length := Nat.sub_add_cancel (Nat.succ_pos _)
  rw [hround] at hstep
  rw [printOf, hstep, printLoop]

/-- Padding reaches the width and no further. -/
theorem length_text_lt (hw : d.width < 2 ^ 31) (v : BitVec 32) : (d.text v).length < 2 ^ 31 := by
  have hbare := d.bare_le v
  rw [d.length_text]
  omega

theorem printOf_formatsAsC_iff (hlen : 12 ≤ len) (hw : d.width < 2 ^ 31) (crlf : Bool)
    (v : BitVec 32) : FormatsAsC (printOf len crlf) d v ↔
      ¬ (d.minus = true ∧ 0 < d.zeros ∧ d.bare v < d.width) := by
  rw [← emitted_eq_text_iff]
  constructor
  · intro h
    obtain ⟨pc, hprint, -⟩ := h (fun _ => 0) (fun _ => 0)
    rw [printOf_directive hlen hw] at hprint
    exact congrArg Printed.out (Option.some.inj hprint)
  · intro h mem buf
    refine ⟨BitVec.ofNat 32 (d.text v).length, ?_, toInt_ofNat (length_text_lt hw v)⟩
    rw [printOf_directive hlen hw, h]
    exact congrArg (fun pc => some (Printed.mk _ pc)) (BitVec.zero_add _)

/-- Both libraries print a directive for a number as C's `printf` does unless a minus and zeros come
together and something is missing, and `printi` never leaves its `print_buf`. -/
theorem print_formatsAsC_iff (d : Directive) (hw : d.width < 2 ^ 31) (v : BitVec 32) :
    (FormatsAsC SysLibc.print d v ↔ ¬ (d.minus = true ∧ 0 < d.zeros ∧ d.bare v < d.width)) ∧
    (FormatsAsC Libc.print d v ↔ ¬ (d.minus = true ∧ 0 < d.zeros ∧ d.bare v < d.width)) ∧
    ∀ (buf : Bytes) (out : List UInt8) (b letbase : BitVec 32) (sg : Bool) (pad : Nat),
      (b, letbase) ∈ numberKinds →
      (SysLibc.printi buf out v b sg (BitVec.ofNat 32 d.width) pad letbase).isSome = true ∧
      (Libc.printi buf out v b sg (BitVec.ofNat 32 d.width) pad letbase).isSome = true := by
  refine ⟨printOf_formatsAsC_iff (by decide) hw true v,
    printOf_formatsAsC_iff (by decide) hw false v, fun buf out b letbase sg pad hkind => ⟨?_, ?_⟩⟩
  · exact printiOf_isSome (by decide) hw hkind buf out v sg pad
  · exact printiOf_isSome (by decide) hw hkind buf out v sg pad

/-- The most negative number with zeros. -/
theorem print_formatsAsC_least : FormatsAsC SysLibc.print ⟨false, 1, 15, .d⟩ 0x80000000 :=
  (print_formatsAsC_iff ⟨false, 1, 15, .d⟩ (by decide) 0x80000000).1.mpr (by decide)

/-- `%-05d` of 12 is printed as 12000. -/
theorem print_minus_zeros : ¬ FormatsAsC SysLibc.print ⟨true, 1, 5, .d⟩ 12 ∧
    ¬ FormatsAsC Libc.print ⟨true, 1, 5, .d⟩ 12 ∧
    SysLibc.print (fun _ => 0) (fun _ => 0) [37, 45, 48, 53, 100] [12] =
      some ⟨[49, 50, 48, 48, 48], 5⟩ := by
  have hcond : ¬ ¬ ((Directive.mk true 1 5 .d).minus = true ∧ 0 < (Directive.mk true 1 5 .d).zeros ∧
      (Directive.mk true 1 5 .d).bare 12 < (Directive.mk true 1 5 .d).width) := by decide
  refine ⟨fun h => hcond ?_, fun h => hcond ?_, rfl⟩
  · exact (printOf_formatsAsC_iff (by decide) (by decide) true 12).mp h
  · exact (printOf_formatsAsC_iff (by decide) (by decide) false 12).mp h

end Print

end Directive

end PrplHypervisor.Printf
