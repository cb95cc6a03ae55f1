import PrplHypervisor.Lib.CString
import PrplHypervisor.Lib.Format

/-!
# `strings_cat` (platform/cfg_reader/genconf.c)

`strings_cat` appends its arguments until their lengths together exceed the size of the array.

- `CatFits`: no running total that does not fit passes the test.
- `stringsCat_spec`, `stringsCat_none`: this is when `strings_cat` stays in its array; it then
  leaves the arguments that fit (`catText`), all of them if they fit together.
-/

namespace PrplHypervisor.Genconf

open CString Format

/-- The characters of a string, which its first NUL ends. -/
def cstr (s : String) : List UInt8 :=
  (s.toList.flatMap String.utf8EncodeChar).takeWhile (· != 0)

/-- The loop of `strings_cat`; `total` is an `int`. -/
def catLoop (size : Nat) : Int → List (List UInt8) → Buffer → Option Buffer
  | _, [], dest => some dest
  | total, c :: args, dest =>
    let total := Int.bmod (total + c.length) (2 ^ 32)
    if (size : Int) < total then some dest
    else (strcat dest c).bind fun dest => catLoop size total args dest

/-- `strings_cat` of the arguments before the `NULL`. -/
def stringsCat (dest : Buffer) (size : Nat) (args : List (List UInt8)) : Option Buffer :=
  (memset dest 0 size).bind fun dest => catLoop size 0 args dest

/-- The first argument that does not fit behind `total` characters makes the total exceed the
size, also as an `int`. -/
def CatFits (size : Nat) : Nat → List (List UInt8) → Prop
  | _, [] => True
  | total, c :: args =>
    if total + c.length < size then CatFits size (total + c.length) args
    else (size : Int) < Int.bmod (total + c.length : Nat) (2 ^ 32)

/-- The arguments before the first one that does not fit. -/
def catText (size : Nat) : Nat → List (List UInt8) → List UInt8
  | _, [] => []
  | total, c :: args =>
    if total + c.length < size then c ++ catText size (total + c.length) args else []

instance decCatFits (size : Nat) : ∀ total args, Decidable (CatFits size total args)
  | _, [] => .isTrue trivial
  | total, c :: args =>
    have := decCatFits size (total + c.length) args
    inferInstanceAs (Decidable (if total + c.length < size then CatFits size (total + c.length) args
      else (size : Int) < Int.bmod (total + c.length : Nat) (2 ^ 32)))

section StringsCat

variable {size total : Nat} {args : List (List UInt8)} {dest : Buffer} {t : List UInt8}

/-- Arguments that fit together. -/
theorem catFits_of_lt (h : total + args.flatten.length < size) : CatFits size total args := by
  induction args generalizing total with
  | nil => trivial
  | cons c args ih =>
    rw [List.flatten_cons, List.length_append] at h
    rw [CatFits, if_pos (by omega)]
    exact ih (by omega)

/-- Whether arguments fit depends on their lengths. -/
theorem catFits_congr {args' : List (List UInt8)}
    (h : args.map List.length = args'.map List.length) :
    CatFits size total args ↔ CatFits size total args' := by
  induction args generalizing total args' with
  | nil => rw [List.map_eq_nil_iff.mp h.symm]
  | cons c args ih =>
    cases args' with
    | nil => cases h
    | cons c' args' =>
      obtain ⟨hlen, hrest⟩ := List.cons.inj h
      rw [CatFits, CatFits, hlen, ih hrest]

theorem catText_of_lt (h : total + args.flatten.length < size) :
    catText size total args = args.flatten := by
  induction args generalizing total with
  | nil => rfl
  | cons c args ih =>
    rw [List.flatten_cons, List.length_append] at h
    rw [catText, if_pos (by omega), ih (by omega), List.flatten_cons]

theorem length_catText_le (h : total < size) : total + (catText size total args).length < size := by
  induction args generalizing total with
  | nil => exact h
  | cons c args ih =>
    rw [catText]
    split
    case isTrue hfit =>
      have hrest := ih hfit
      rw [List.length_append]
      omega
    case isFalse => exact h

theorem bmod_of_lt {n : Nat} (h : n < 2 ^ 31) : Int.bmod n (2 ^ 32) = n :=
  Int.bmod_eq_of_le (by omega) (by omega)

/-- The loop behind a text, in an array of the size it is told. -/
theorem catLoop_iff (hd : dest.HoldsText t) (hsize : dest.size = size) (hmax : size ≤ 2 ^ 31)
    (hargs : ∀ c ∈ args, 0 ∉ c) :
    (CatFits size t.length args → ∃ dest', catLoop size t.length args dest = some dest' ∧
      dest'.size = size ∧ dest'.HoldsText (t ++ catText size t.length args)) ∧
    (¬ CatFits size t.length args → catLoop size t.length args dest = none) := by
  induction args generalizing t dest with
  | nil =>
    rw [catText, List.append_nil]
    exact ⟨fun _ => ⟨dest, rfl, hsize, hd⟩, fun h => absurd trivial h⟩
  | cons c args ih =>
    have hc : 0 ∉ c := hargs c List.mem_cons_self
    have hsum : (t.length : Int) + c.length = (t.length + c.length : Nat) := by omega
    rw [CatFits, catText, catLoop, hsum]
    by_cases hfit : t.length + c.length < size
    · -- the sum is no overflow as an `int`
      obtain ⟨dest₁, hcat, hsize₁, hd₁⟩ := strcat_spec hd hc (by rw [hsize]; exact hfit)
      rw [if_pos hfit, if_pos hfit, bmod_of_lt (by omega), hcat]
      have hle : ¬ (size : Int) < (t.length + c.length : Nat) := by omega
      have hrest := ih hd₁ (hsize₁.trans hsize) fun d hd => hargs d (List.mem_cons_of_mem _ hd)
      rw [List.length_append, List.append_assoc] at hrest
      rwa [if_neg hle, Option.bind_some]
    · rw [if_neg hfit, if_neg hfit, List.append_nil]
      refine ⟨fun hstop => ⟨dest, if_pos hstop, hsize, hd⟩, fun hgo => ?_⟩
      rw [if_neg hgo, strcat_none hd (by rw [hsize]; omega)]
      rfl

/-- A cleared array holds the empty text. -/
theorem memset_empty (hpos : 0 < size) (hsize : dest.size = size) : ∃ dest',
    memset dest 0 size = some dest' ∧ dest'.size = size ∧ dest'.HoldsText [] := by
  obtain ⟨dest', hset, hsize', hzero⟩ := memset_spec (b := dest) (n := size) (by omega) 0
  refine ⟨dest', hset, hsize'.trans hsize, ⟨hzero 0 hpos, trivial⟩, List.not_mem_nil, ?_⟩
  rw [hsize', hsize]
  exact hpos

theorem stringsCat_spec (hpos : 0 < size) (hmax : size ≤ 2 ^ 31) (hsize : dest.size = size)
    (hargs : ∀ c ∈ args, 0 ∉ c) (hfits : CatFits size 0 args) :
    ∃ dest', stringsCat dest size args = some dest' ∧ dest'.size = size ∧
      dest'.HoldsText (catText size 0 args) := by
  obtain ⟨cleared, hset, hsize', hd⟩ := memset_empty hpos hsize
  rw [stringsCat, hset, Option.bind_some]
  exact (catLoop_iff hd hsize' hmax hargs).1 hfits

theorem stringsCat_none (hpos : 0 < size) (hmax : size ≤ 2 ^ 31) (hsize : dest.size = size)
    (hargs : ∀ c ∈ args, 0 ∉ c) (hfits : ¬ CatFits size 0 args) :
    stringsCat dest size args = none := by
  obtain ⟨cleared, hset, hsize', hd⟩ := memset_empty hpos hsize
  rw [stringsCat, hset, Option.bind_some]
  exact (catLoop_iff hd hsize' hmax hargs).2 hfits

/-- `strings_cat` overflows an array of 10 characters by the NUL behind 10 of them. -/
example : stringsCat ⟨10, fun _ => 7⟩ 10 [[97, 98, 99], [97, 98, 99, 100, 101, 102, 103]] =
    none := by
  rfl

end StringsCat

theorem cstr_nul (s : String) : 0 ∉ cstr s := by
  intro h
  have hne := List.all_eq_true.mp List.all_takeWhile 0 h
  exact absurd hne (by decide)

end PrplHypervisor.Genconf
