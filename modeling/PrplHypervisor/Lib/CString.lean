import PrplHypervisor.Lib.Text

/-!
# Strings in character arrays

Arrays of characters with the C library's functions on them. A write outside of an array has no
result.

- `Buffer.writeAll`: characters one after the other, `writeAll_spec` and `writeAll_none`.
- `Buffer.HoldsText`: the array holds a text and its NUL; `Buffer.text` reads it.
- `strcpy`, `strcat`, `strncat`, `strncpy`, `memset`, `snprintf`: what each leaves behind, and
  when it has a result.
-/

namespace PrplHypervisor.CString

open Text

/-- An array of characters. -/
structure Buffer where
  size : Nat
  mem : Nat → UInt8

namespace Buffer

/-- `b[i] = c` -/
def write (b : Buffer) (i : Nat) (c : UInt8) : Option Buffer :=
  if i < b.size then some { b with mem := Function.update b.mem i c } else none

/-- Characters from place `i` on. -/
def writeAll (b : Buffer) (i : Nat) : List UInt8 → Option Buffer
  | [] => some b
  | c :: cs => (b.write i c).bind fun b => b.writeAll (i + 1) cs

/-- The text from place `i` on, of `n` places; without a NUL there is none. -/
def textFrom (b : Buffer) : Nat → Nat → Option (List UInt8)
  | 0, _ => none
  | n + 1, i => if b.mem i = 0 then some [] else (textFrom b n (i + 1)).map fun t => b.mem i :: t

/-- The text of an array. -/
def text (b : Buffer) : Option (List UInt8) := b.textFrom b.size 0

/-- The array starts with the text `t` and a NUL. -/
structure HoldsText (b : Buffer) (t : List UInt8) : Prop where
  holds : Holds b.mem 0 (t ++ [0])
  nul : 0 ∉ t
  lt : t.length < b.size

end Buffer

/-! ## The C library -/

def strcpy (dest : Buffer) (src : List UInt8) : Option Buffer := dest.writeAll 0 (src ++ [0])

def strcat (dest : Buffer) (src : List UInt8) : Option Buffer :=
  dest.text.bind fun t => dest.writeAll t.length (src ++ [0])

/-- At most `n` characters of `src` and a NUL are appended. -/
def strncat (dest : Buffer) (src : List UInt8) (n : Nat) : Option Buffer :=
  dest.text.bind fun t => dest.writeAll t.length (src.take n ++ [0])

/-- Exactly `n` characters are written: no NUL comes behind a `src` of so many. -/
def strncpy (dest : Buffer) (src : List UInt8) (n : Nat) : Option Buffer :=
  dest.writeAll 0 (src.take n ++ List.replicate (n - src.length) 0)

def memset (dest : Buffer) (c : UInt8) (n : Nat) : Option Buffer :=
  dest.writeAll 0 (List.replicate n c)

/-- The printed characters `src` are cut off before `n` of them. -/
def snprintf (dest : Buffer) (n : Nat) (src : List UInt8) : Option Buffer :=
  if n = 0 then some dest else dest.writeAll 0 (src.take (n - 1) ++ [0])

section Specs

variable {b : Buffer} {t s cs : List UInt8} {i n : Nat} {c : UInt8}

theorem append_nul (hs : 0 ∉ s) (ht : 0 ∉ t) : 0 ∉ s ++ t := by
  rw [List.mem_append]
  rintro (h | h)
  · exact hs h
  · exact ht h

namespace Buffer

theorem writeAll_spec (cs : List UInt8) (h : i + cs.length ≤ b.size) :
    ∃ b', b.writeAll i cs = some b' ∧ b'.size = b.size ∧ Holds b'.mem i cs ∧
      ∀ x, x < i ∨ i + cs.length ≤ x → b'.mem x = b.mem x := by
  induction cs generalizing b i with
  | nil => exact ⟨b, rfl, rfl, trivial, fun _ _ => rfl⟩
  | cons c cs ih =>
    rw [List.length_cons] at h
    obtain ⟨b', hwrite, hsize, hholds, hsame⟩ :=
      ih (b := { b with mem := Function.update b.mem i c }) (i := i + 1) (by dsimp only; omega)
    refine ⟨b', ?_, hsize, ⟨?_, hholds⟩, fun x hx => ?_⟩
    · rw [writeAll, write, if_pos (by omega), Option.bind_some, hwrite]
    · exact (hsame i (.inl (Nat.lt_succ_self i))).trans (Function.update_self ..)
    · rw [List.length_cons] at hx
      have hne : x ≠ i := by omega
      exact (hsame x (by omega)).trans (Function.update_of_ne hne ..)

theorem writeAll_none (hcs : cs ≠ []) (h : b.size < i + cs.length) : b.writeAll i cs = none := by
  induction cs generalizing b i with
  | nil => exact absurd rfl hcs
  | cons c cs ih =>
    rw [writeAll, write]
    split
    case isTrue hi =>
      rw [Option.bind_some]
      have hrest : cs ≠ [] := by
        rintro rfl
        rw [List.length_singleton] at h
        omega
      rw [List.length_cons] at h
      exact ih hrest (by dsimp only; omega)
    case isFalse => rfl

/-- Text and NUL, written over the start of an array. -/
theorem writeAll_text (ht : 0 ∉ t) (h : t.length < b.size) :
    ∃ b', b.writeAll 0 (t ++ [0]) = some b' ∧ b'.size = b.size ∧ b'.HoldsText t := by
  have hlen : (t ++ [0]).length = t.length + 1 := List.length_append
  obtain ⟨b', hwrite, hsize, hholds, -⟩ := writeAll_spec (b := b) (i := 0) (t ++ [0])
    (by omega)
  exact ⟨b', hwrite, hsize, hholds, ht, by omega⟩

theorem HoldsText.text_eq (h : b.HoldsText t) : b.text = some t := by
  have hread : ∀ (t : List UInt8) (n i : Nat), Holds b.mem i (t ++ [0]) → 0 ∉ t → t.length < n →
      b.textFrom n i = some t := by
    intro t
    induction t with
    | nil =>
      intro n i hholds _ hn
      cases n with
      | zero => cases hn
      | succ n => exact if_pos hholds.1
    | cons c t ih =>
      intro n i hholds hnul hn
      obtain ⟨rfl, hholds⟩ := hholds
      have hne : b.mem i ≠ 0 := fun heq => hnul (by rw [heq]; exact List.mem_cons_self)
      cases n with
      | zero => cases hn
      | succ n =>
        rw [textFrom, if_neg hne, ih n (i + 1) hholds (fun hm => hnul (List.mem_cons_of_mem _ hm))
          (Nat.lt_of_succ_lt_succ hn), Option.map_some]
  exact hread t b.size 0 h.holds h.nul h.lt

/-- A text behind the text. -/
theorem HoldsText.append (h : b.HoldsText t) (hs : 0 ∉ s) (hlt : t.length + s.length < b.size) :
    ∃ b', b.writeAll t.length (s ++ [0]) = some b' ∧ b'.size = b.size ∧ b'.HoldsText (t ++ s) := by
  have hlen : (s ++ [0]).length = s.length + 1 := List.length_append
  obtain ⟨b', hwrite, hsize, hholds, hsame⟩ := writeAll_spec (b := b) (i := t.length)
    (s ++ [0]) (by omega)
  have hold := (holds_append.mp h.holds).1
  refine ⟨b', hwrite, hsize, ⟨?_, ?_, ?_⟩⟩
  · rw [List.append_assoc, holds_append]
    refine ⟨holds_iff.mpr fun k hk => ?_, by rwa [Nat.zero_add]⟩
    rw [Nat.zero_add, hsame k (.inl hk), ← holds_iff.mp hold k hk, Nat.zero_add]
  · exact append_nul h.nul hs
  · rw [List.length_append, hsize]
    exact hlt

end Buffer

theorem strcpy_spec (hs : 0 ∉ s) (h : s.length < b.size) :
    ∃ b', strcpy b s = some b' ∧ b'.size = b.size ∧ b'.HoldsText s :=
  Buffer.writeAll_text hs h

theorem strcat_spec (h : b.HoldsText t) (hs : 0 ∉ s) (hlt : t.length + s.length < b.size) :
    ∃ b', strcat b s = some b' ∧ b'.size = b.size ∧ b'.HoldsText (t ++ s) := by
  rw [strcat, h.text_eq, Option.bind_some]
  exact h.append hs hlt

theorem strcat_none (h : b.HoldsText t) (hle : b.size ≤ t.length + s.length) :
    strcat b s = none := by
  have hlen : (s ++ [0]).length = s.length + 1 := List.length_append
  rw [strcat, h.text_eq, Option.bind_some]
  exact Buffer.writeAll_none (by simp) (by omega)

theorem strncat_eq (b : Buffer) (s : List UInt8) (n : Nat) :
    strncat b s n = strcat b (s.take n) := rfl

theorem strncpy_spec (hs : 0 ∉ s) (hn : n ≤ b.size) (h : s.length < n) :
    ∃ b', strncpy b s n = some b' ∧ b'.size = b.size ∧ b'.HoldsText s := by
  have htake : s.take n = s := List.take_of_length_le (Nat.le_of_lt h)
  have hpad : List.replicate (n - s.length) (0 : UInt8) =
      [0] ++ List.replicate (n - s.length - 1) 0 := by
    obtain ⟨k, hk⟩ := Nat.exists_eq_succ_of_ne_zero (Nat.sub_ne_zero_of_lt h)
    rw [hk]
    rfl
  have hlen : (s ++ List.replicate (n - s.length) (0 : UInt8)).length = n := by
    rw [List.length_append, List.length_replicate]
    omega
  obtain ⟨b', hwrite, hsize, hholds, -⟩ := Buffer.writeAll_spec (b := b) (i := 0)
    (s ++ List.replicate (n - s.length) 0) (by omega)
  rw [hpad, ← List.append_assoc, holds_append] at hholds
  refine ⟨b', by rw [strncpy, htake, hwrite], hsize, hholds.1, hs, by omega⟩

theorem memset_spec (hn : n ≤ b.size) (c : UInt8) : ∃ b', memset b c n = some b' ∧
    b'.size = b.size ∧ ∀ k < n, b'.mem k = c := by
  obtain ⟨b', hwrite, hsize, hholds, -⟩ := Buffer.writeAll_spec (b := b) (i := 0)
    (List.replicate n c) (by rw [List.length_replicate]; omega)
  refine ⟨b', hwrite, hsize, fun k hk => ?_⟩
  have hcell := holds_iff.mp hholds k (by rwa [List.length_replicate])
  rwa [Nat.zero_add, List.getElem_replicate] at hcell

/-- `snprintf` into an array of at least the size it is told. -/
theorem snprintf_spec (hs : 0 ∉ s) (hn : n ≤ b.size) (hpos : 0 < n) :
    ∃ b', snprintf b n s = some b' ∧ b'.size = b.size ∧ b'.HoldsText (s.take (n - 1)) := by
  rw [snprintf, if_neg (Nat.pos_iff_ne_zero.mp hpos)]
  have hle := List.length_take_le (n - 1) s
  exact Buffer.writeAll_text (fun hm => hs (List.mem_of_mem_take hm)) (by omega)

end Specs

end PrplHypervisor.CString
