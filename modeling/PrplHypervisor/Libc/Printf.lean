import PrplHypervisor.Guest.NumberText
import PrplHypervisor.Lib.Format

/-!
# `printf` (sys/lib/libc.c, bare-metal-apps/lib/libc.c)

`prints` pads a string, `printi` writes the digits of a number backwards into `print_buf` and
pads them, `print` walks the format. The two libraries differ in the size of `print_buf` and in
what becomes of a newline. A result `none` is a write outside `print_buf`, an argument that is
missing or a read behind the format.
-/

namespace PrplHypervisor.Printf

open While Text Libc Format

/-! ## `prints` -/

def padRight : Nat := 1

def padZero : Nat := 2

/-- The characters that went out and the count `pc`. -/
structure Printed where
  out : List UInt8
  pc : BitVec 32
  deriving Repr, DecidableEq

/-- `printchar (out, c); ++pc` -/
def Printed.char (o : Printed) (c : UInt8) : Printed := ⟨o.out ++ [c], o.pc + 1⟩

/-- `for (ptr = string; *ptr; ++ptr) ++len` -/
def lengthLoop (mem : Bytes) (string : Nat) : Option (BitVec 32 × Nat) :=
  whileLoop (fun p => mem p.2 != 0) (fun p => (p.1 + 1, p.2 + 1)) loopRounds (0, string)

/-- `for ( ; width > 0; --width) { printchar (out, padchar); ++pc; }` -/
def padLoop (padchar : UInt8) (o : Printed) (width : BitVec 32) : Option (Printed × BitVec 32) :=
  whileLoop (fun p => (0 : BitVec 32).slt p.2) (fun p => (p.1.char padchar, p.2 - 1)) loopRounds
    (o, width)

/-- `for ( ; *string ; ++string) { printchar (out, *string); ++pc; }` -/
def stringLoop (mem : Bytes) (o : Printed) (string : Nat) : Option (Printed × Nat) :=
  whileLoop (fun p => mem p.2 != 0) (fun p => (p.1.char (mem p.2), p.2 + 1)) loopRounds (o, string)

/-- The branch of `prints` on `width > 0`: the new `width` and `padchar`. -/
def padding (mem : Bytes) (string : Nat) (width : BitVec 32) (pad : Nat) :
    Option (BitVec 32 × UInt8) :=
  if (0 : BitVec 32).slt width then
    (lengthLoop mem string).map fun p =>
      (if width.sle p.1 then 0 else width - p.1, if pad &&& padZero ≠ 0 then 48 else 32)
  else some (width, 32)

/-- `prints`, behind what is out. -/
def prints (mem : Bytes) (out : List UInt8) (string : Nat) (width : BitVec 32) (pad : Nat) :
    Option Printed := do
  let (width, padchar) ← padding mem string width pad
  let o : Printed := ⟨out, 0⟩
  let (o, width) ← if pad &&& padRight = 0 then padLoop padchar o width else some (o, width)
  let (o, _) ← stringLoop mem o string
  let (o, _) ← padLoop padchar o width
  return o

/-! ## `printi` -/

/-- `print_buf` and the pointer `s` into it. -/
structure PrintBuf where
  buf : Bytes
  s : Nat

/-- `*--s = c` -/
def PrintBuf.push (p : PrintBuf) (c : UInt8) : Option PrintBuf :=
  match p.s with
  | 0 => none
  | s + 1 => some ⟨Function.update p.buf s c, s⟩

/-- The character of `t = u % b`. -/
def digitOf (t letbase : BitVec 32) : UInt8 :=
  let t := if (10 : BitVec 32).sle t then t + (letbase - 48 - 10) else t
  UInt8.ofBitVec ((t + 48).setWidth 8)

/-- `while (u) ..`, of so many rounds at most. -/
def digitLoop (b letbase : BitVec 32) : Nat → BitVec 32 → PrintBuf → Option PrintBuf
  | 0, u, p => if u = 0 then some p else none
  | rounds + 1, u, p =>
    if u = 0 then some p
    else (p.push (digitOf (u % b) letbase)).bind (digitLoop b letbase rounds (u / b))

/-- `printi` with a `print_buf` of `len` characters, which holds `buf`. -/
def printiOf (len : Nat) (buf : Bytes) (out : List UInt8) (i b : BitVec 32) (sg : Bool)
    (width : BitVec 32) (pad : Nat) (letbase : BitVec 32) : Option Printed :=
  if i = 0 then prints (Function.update (Function.update buf 0 48) 1 0) out 0 width pad
  else do
    let neg := sg && b == 10 && i.slt 0
    let u := if neg then -i else i
    let p ← digitLoop b letbase 32 u ⟨Function.update buf (len - 1) 0, len - 1⟩
    if neg then
      if width ≠ 0 ∧ pad &&& padZero ≠ 0 then
        let o ← prints p.buf (out ++ [45]) p.s (width - 1) pad
        return ⟨o.out, 1 + o.pc⟩
      else
        let p ← p.push 45
        prints p.buf out p.s width pad
    else prints p.buf out p.s width pad

/-! ## `print` -/

/-- `if (*format == '-') ..` -/
def readMinus : List UInt8 → Nat × List UInt8
  | c :: format => if c = 45 then (padRight, format) else (0, c :: format)
  | [] => (0, [])

/-- `while (*format == '0') ..` -/
def readZeros (pad : Nat) : List UInt8 → Nat × List UInt8
  | c :: format => if c = 48 then readZeros (pad ||| padZero) format else (pad, c :: format)
  | [] => (pad, [])

/-- `for ( ; *format >= '0' && *format <= '9'; ++format) ..` -/
def readWidth (width : BitVec 32) : List UInt8 → BitVec 32 × List UInt8
  | c :: format =>
    if 48 ≤ c ∧ c ≤ 57 then readWidth (width * 10 + (c.toBitVec.setWidth 32 - 48)) format
    else (width, c :: format)
  | [] => (width, [])

/-- What stands between `'%'` and the conversion, the conversion and the rest of the format. -/
def readDirective (format : List UInt8) : Option (Nat × BitVec 32 × UInt8 × List UInt8) :=
  let (pad, format) := readMinus format
  let (pad, format) := readZeros pad format
  let (width, format) := readWidth 0 format
  match format with
  | [] => none
  | c :: format => some (pad, width, c, format)

/-- What a string literal is in memory. -/
def literal (text : List UInt8) : Bytes := fun k => (text[k]?).getD 0

def nullText : List UInt8 := [40, 110, 117, 108, 108, 41]

/-- The conversion `c` of an argument, with what its function returns. -/
def convert (len : Nat) (mem buf : Bytes) (out : List UInt8) (c : UInt8) (arg width : BitVec 32)
    (pad : Nat) : Option Printed :=
  if c = 115 then
    if arg = 0 then prints (literal nullText) out 0 width pad
    else prints mem out arg.toNat width pad
  else if c = 100 then printiOf len buf out arg 10 true width pad 97
  else if c = 120 then printiOf len buf out arg 16 false width pad 97
  else if c = 88 then printiOf len buf out arg 16 false width pad 65
  else if c = 117 then printiOf len buf out arg 10 false width pad 97
  else prints (literal [UInt8.ofBitVec (arg.setWidth 8)]) out 0 width pad

/-- The conversions that `print` knows. -/
def isConversion (c : UInt8) : Bool :=
  c == 115 || c == 100 || c == 120 || c == 88 || c == 117 || c == 99

/-- The loop of `print`; a NUL ends the format. `crlf`: whether a `'\r'` comes before a
newline, which `pc` does not count. -/
def printLoop (len : Nat) (crlf : Bool) (mem buf : Bytes) :
    Nat → List UInt8 → List (BitVec 32) → Printed → Option Printed
  | _, [], _, o => some o
  | 0, _ :: _, _, _ => none
  | rounds + 1, c :: format, args, o =>
    if c = 37 then
      if format = [] then some o
      else if format.head? = some 37 then
        printLoop len crlf mem buf rounds format.tail args (o.char 37)
      else do
        let (pad, width, c, format) ← readDirective format
        if isConversion c then
          match args with
          | [] => none
          | arg :: args =>
            let o' ← convert len mem buf o.out c arg width pad
            printLoop len crlf mem buf rounds format args ⟨o'.out, o.pc + o'.pc⟩
        else printLoop len crlf mem buf rounds format args o
    else
      let out := if crlf && c == 10 then o.out ++ [13] else o.out
      printLoop len crlf mem buf rounds format args (Printed.char ⟨out, o.pc⟩ c)

/-- `print` with a `print_buf` of `len` characters. -/
def printOf (len : Nat) (crlf : Bool) (mem buf : Bytes) (format : List UInt8)
    (args : List (BitVec 32)) : Option Printed :=
  printLoop len crlf mem buf format.length format args ⟨[], 0⟩

/-! ## What `prints` prints -/

/-- More characters. -/
def Printed.append (o : Printed) (cs : List UInt8) : Printed :=
  ⟨o.out ++ cs, o.pc + BitVec.ofNat 32 cs.length⟩

/-- A string with its padding. -/
def padded (width pad : Nat) (t : List UInt8) : List UInt8 :=
  let fill := List.replicate (width - t.length) (if pad &&& padZero ≠ 0 then 48 else 32)
  if pad &&& padRight = 0 then fill ++ t else t ++ fill

section Prints

variable {mem : Bytes} {out t cs ds : List UInt8} {string w n pad : Nat} {o : Printed} {c : UInt8}

@[simp] theorem append_nil (o : Printed) : o.append [] = o := by
  rw [Printed.append, List.append_nil, List.length_nil]
  exact congrArg (Printed.mk o.out) (BitVec.add_zero o.pc)

theorem append_append (o : Printed) (cs ds : List UInt8) :
    (o.append cs).append ds = o.append (cs ++ ds) := by
  simp only [Printed.append, List.append_assoc, List.length_append, BitVec.ofNat_add,
    BitVec.add_assoc]

theorem char_eq (o : Printed) (c : UInt8) : o.char c = o.append [c] := rfl

theorem toInt_ofNat (hn : n < 2 ^ 31) : (BitVec.ofNat 32 n).toInt = n := by
  have hmod : n % 2 ^ 32 = n := Nat.mod_eq_of_lt (by omega)
  rw [BitVec.toInt_eq_toNat_cond, BitVec.toNat_ofNat, hmod, if_pos (by omega)]

/-- A loop along a string. -/
theorem stringLoop_foldl {σ : Type} (step : σ → UInt8 → σ) (h0 : 0 ∉ t)
    (h : Holds mem string (t ++ [0])) {rounds : Nat} (hrounds : t.length ≤ rounds) (a : σ) :
    whileLoop (fun p => mem p.2 != 0) (fun p => (step p.1 (mem p.2), p.2 + 1)) rounds (a, string) =
      some (t.foldl step a, string + t.length) := by
  induction t generalizing string rounds a with
  | nil =>
    have hend : mem string = 0 := h.1
    rw [whileLoop_of_not (by simp [hend])]
    rfl
  | cons c t ih =>
    obtain ⟨rfl, h⟩ := h
    have hc : mem string ≠ 0 := fun heq => h0 (by rw [heq]; exact List.mem_cons_self)
    cases rounds with
    | zero => cases hrounds
    | succ rounds =>
      rw [whileLoop_of_cond (by simp [hc]),
        ih (fun hmem => h0 (List.mem_cons_of_mem _ hmem)) h (Nat.le_of_succ_le_succ hrounds),
        List.foldl_cons, List.length_cons, Nat.add_right_comm, Nat.add_assoc]

theorem lengthLoop_spec (h0 : 0 ∉ t) (h : Holds mem string (t ++ [0]))
    (hlen : t.length ≤ loopRounds) :
    lengthLoop mem string = some (BitVec.ofNat 32 t.length, string + t.length) := by
  have hfold : ∀ (t : List UInt8) (a : BitVec 32),
      t.foldl (fun len _ => len + 1) a = a + BitVec.ofNat 32 t.length := by
    intro t
    induction t with
    | nil => exact fun a => (BitVec.add_zero a).symm
    | cons c t ih =>
      intro a
      rw [List.foldl_cons, ih, List.length_cons, Nat.add_comm t.length, BitVec.ofNat_add,
        BitVec.add_assoc]
      rfl
  rw [lengthLoop, stringLoop_foldl (fun len _ => len + 1) h0 h hlen, hfold]
  exact congrArg (fun len => some (len, _)) (BitVec.zero_add _)

theorem stringLoop_spec (h0 : 0 ∉ t) (h : Holds mem string (t ++ [0]))
    (hlen : t.length ≤ loopRounds) (o : Printed) :
    stringLoop mem o string = some (o.append t, string + t.length) := by
  have hfold : ∀ (t : List UInt8) (o : Printed), t.foldl Printed.char o = o.append t := by
    intro t
    induction t with
    | nil => exact fun o => (append_nil o).symm
    | cons c t ih =>
      intro o
      rw [List.foldl_cons, ih, char_eq, append_append, List.singleton_append]
  rw [stringLoop, stringLoop_foldl Printed.char h0 h hlen, hfold]

theorem padLoop_spec (hn : n < 2 ^ 31) (o : Printed) (c : UInt8) :
    padLoop c o (BitVec.ofNat 32 n) = some (o.append (List.replicate n c), 0) := by
  have hloop : ∀ {rounds : Nat}, n ≤ rounds → ∀ o : Printed,
      whileLoop (fun p => (0 : BitVec 32).slt p.2) (fun p => (p.1.char c, p.2 - 1)) rounds
        (o, BitVec.ofNat 32 n) = some (o.append (List.replicate n c), 0) := by
    induction n with
    | zero =>
      intro rounds _ o
      rw [whileLoop_of_not (by rfl), List.replicate_zero, append_nil]
      rfl
    | succ n ih =>
      intro rounds hle o
      cases rounds with
      | zero => cases hle
      | succ rounds =>
        have hcond : (0 : BitVec 32).slt (BitVec.ofNat 32 (n + 1)) = true := by
          rw [BitVec.slt_eq_decide, toInt_ofNat hn, decide_eq_true_eq]
          exact Int.natCast_pos.mpr (Nat.succ_pos n)
        have hpred : BitVec.ofNat 32 (n + 1) - 1 = BitVec.ofNat 32 n := by
          rw [BitVec.ofNat_add]
          exact BitVec.add_sub_cancel _ _
        rw [whileLoop, if_pos hcond]
        dsimp only
        rw [hpred, ih (by omega) (Nat.le_of_succ_le_succ hle), char_eq,
          append_append, List.replicate_succ, List.singleton_append]
  exact hloop (by rw [loopRounds]; omega) o

theorem padding_spec (h0 : 0 ∉ t) (h : Holds mem string (t ++ [0])) (ht : t.length < 2 ^ 31)
    (hw : w < 2 ^ 31) (pad : Nat) : ∃ c, padding mem string (BitVec.ofNat 32 w) pad =
      some (BitVec.ofNat 32 (w - t.length), c) ∧
      (0 < w → c = if pad &&& padZero ≠ 0 then 48 else 32) := by
  have hpos : (0 : BitVec 32).slt (BitVec.ofNat 32 w) = decide (0 < w) := by
    rw [BitVec.slt_eq_decide, toInt_ofNat hw, decide_eq_decide]
    exact Int.natCast_pos
  rw [padding, hpos]
  by_cases hw0 : 0 < w
  · refine ⟨_, ?_, fun _ => rfl⟩
    rw [if_pos (decide_eq_true hw0), lengthLoop_spec h0 h (by rw [loopRounds]; omega),
      Option.map_some]
    congr 2
    have hle : (BitVec.ofNat 32 w).sle (BitVec.ofNat 32 t.length) = decide (w ≤ t.length) := by
      rw [BitVec.sle_eq_decide, toInt_ofNat hw, toInt_ofNat ht, decide_eq_decide]
      exact Int.ofNat_le
    rw [hle]
    by_cases hlen : w ≤ t.length
    · rw [if_pos (decide_eq_true hlen), Nat.sub_eq_zero_of_le hlen]
      rfl
    · rw [if_neg (by simpa using hlen)]
      obtain ⟨k, rfl⟩ := Nat.exists_eq_add_of_le (Nat.le_of_not_le hlen)
      rw [Nat.add_sub_cancel_left, BitVec.ofNat_add, BitVec.add_comm]
      exact BitVec.add_sub_cancel _ _
  · refine ⟨32, ?_, fun hw' => absurd hw' hw0⟩
    rw [if_neg (by simpa using hw0), Nat.eq_zero_of_not_pos hw0, Nat.zero_sub]

/-- `prints` prints a string with its padding and returns its length. -/
theorem prints_spec (h0 : 0 ∉ t) (h : Holds mem string (t ++ [0])) (ht : t.length < 2 ^ 31)
    (hw : w < 2 ^ 31) (out : List UInt8) (pad : Nat) :
    prints mem out string (BitVec.ofNat 32 w) pad =
      some (Printed.append ⟨out, 0⟩ (padded w pad t)) := by
  obtain ⟨c, hpadding, hc⟩ := padding_spec h0 h ht hw pad
  have hround : t.length ≤ loopRounds := by
    rw [loopRounds]
    omega
  have hfill : List.replicate (w - t.length) (if pad &&& padZero ≠ 0 then 48 else 32) =
      List.replicate (w - t.length) c := by
    by_cases hw0 : 0 < w
    · rw [hc hw0]
    · rw [Nat.eq_zero_of_not_pos hw0, Nat.zero_sub]
      rfl
  have hmissing : w - t.length < 2 ^ 31 := by omega
  have hnone : ∀ o : Printed, padLoop c o 0 = some (o, 0) := by
    intro o
    have hzero := padLoop_spec (n := 0) (by decide) o c
    rwa [List.replicate_zero, append_nil] at hzero
  rw [prints, hpadding, padded, hfill]
  by_cases hright : pad &&& padRight = 0
  · simp only [Option.bind_eq_bind, Option.bind_some, if_pos hright, padLoop_spec hmissing,
      stringLoop_spec h0 h hround]
    rw [hnone, append_append]
    rfl
  · simp only [Option.bind_eq_bind, Option.bind_some, if_neg hright, padLoop_spec hmissing,
      stringLoop_spec h0 h hround]
    rw [append_append]
    rfl

end Prints

end PrplHypervisor.Printf

namespace PrplHypervisor

/-! ## The two libraries -/

/-- `printi` of the hypervisor. -/
def SysLibc.printi := Printf.printiOf 12

/-- `print` of the hypervisor. -/
def SysLibc.print := Printf.printOf 12 true

/-- `printi` of the bare-metal library. -/
def Libc.printi := Printf.printiOf 30

/-- `print` of the bare-metal library. -/
def Libc.print := Printf.printOf 30 false

end PrplHypervisor
