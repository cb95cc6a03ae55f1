import PrplHypervisor.Guest.SecureConnection
import Mathlib.Data.List.Basic

/-!
# The password of secureConnection (bare-metal-apps/apps/secureConnection)

`convert_input` takes the pass buffer for 64 bytes in hex digits. Its two chains of
cases end in a digit zero for all other characters, so a text in which zero digits are
spelled wrong, or cut off, stands for the same key.

- `HexText key text`: `text` spells `key` in hex digits of either case.
- `password_decoder_iff`: such a text is decoded to its key; an input is a text of
  whatever key it is accepted for exactly if it is 128 hex digits, and no set of keys
  lets other inputs through exactly if none of its keys has a zero digit.
-/

namespace PrplHypervisor.Password

/-! ## The two chains -/

/-- The value of one hex digit, 0 for any other character. -/
def hexDigit (c : UInt8) : UInt8 :=
  if 48 ≤ c ∧ c ≤ 57 then c - 48
  else if 97 ≤ c ∧ c ≤ 102 then c - 87
  else if 65 ≤ c ∧ c ≤ 70 then c - 55
  else 0

/-- What holds of 256 numbers holds of all bytes. -/
theorem forall_byte {p : UInt8 → Prop} (h : ∀ n < 256, p (UInt8.ofNat n)) (c : UInt8) : p c := by
  have := h c.toNat c.toNat_lt
  rwa [UInt8.ofNat_toNat] at this

theorem highDigit_eq (c : UInt8) : highDigit c = 16 * hexDigit c :=
  forall_byte (p := fun c => highDigit c = 16 * hexDigit c) (by decide +kernel) c

theorem lowDigit_eq (c : UInt8) : lowDigit c = hexDigit c :=
  forall_byte (p := fun c => lowDigit c = hexDigit c) (by decide +kernel) c

theorem convertInput_cons (c c2 : UInt8) (rest : List UInt8) :
    convertInput (c :: c2 :: rest) = (16 * hexDigit c + hexDigit c2) :: convertInput rest := by
  rw [convertInput, highDigit_eq, lowDigit_eq]

/-! ## Texts in hex digits -/

def lowerHex (v : UInt8) : UInt8 := if v < 10 then 48 + v else 87 + v

def upperHex (v : UInt8) : UInt8 := if v < 10 then 48 + v else 55 + v

/-- `c` is a digit of value `v`. -/
def Spells (c v : UInt8) : Prop := c = lowerHex v ∨ c = upperHex v

instance (c v : UInt8) : Decidable (Spells c v) :=
  inferInstanceAs (Decidable (c = lowerHex v ∨ c = upperHex v))

/-- `text` spells `key`, two digits a byte, each in one case or the other. -/
def HexText : List UInt8 → List UInt8 → Prop
  | [], [] => True
  | b :: key, c :: c2 :: text => Spells c (b / 16) ∧ Spells c2 (b % 16) ∧ HexText key text
  | _, _ => False

def IsHexDigit (c : UInt8) : Prop := Spells c (hexDigit c)

instance : DecidablePred IsHexDigit := fun c => inferInstanceAs (Decidable (Spells c (hexDigit c)))

theorem hexDigit_lt (c : UInt8) : hexDigit c < 16 := by
  unfold hexDigit
  split_ifs <;> grind

theorem hexDigit_of_spells {c v : UInt8} (hv : v < 16) (h : Spells c v) : hexDigit c = v := by
  have hdigits : ∀ n < 16, hexDigit (lowerHex (UInt8.ofNat n)) = UInt8.ofNat n ∧
      hexDigit (upperHex (UInt8.ofNat n)) = UInt8.ofNat n := by decide
  have hn := hdigits v.toNat hv
  rw [UInt8.ofNat_toNat] at hn
  rcases h with rfl | rfl
  · exact hn.1
  · exact hn.2

/-- The halves of a byte, and the byte of two halves. -/
theorem byte_halves (b : UInt8) : b / 16 < 16 ∧ b % 16 < 16 ∧ 16 * (b / 16) + b % 16 = b := by
  refine ⟨?_, ?_, ?_⟩ <;> grind

theorem halves_byte {v w : UInt8} (hv : v < 16) (hw : w < 16) :
    (16 * v + w) / 16 = v ∧ (16 * v + w) % 16 = w := by
  have hv' : v.toNat < 16 := hv
  have hw' : w.toNat < 16 := hw
  constructor
  · apply UInt8.toNat_inj.mp
    simp
    omega
  · apply UInt8.toNat_inj.mp
    simp
    omega

/-- Every text of a key is decoded to it. -/
theorem HexText.convertInput_eq {key text : List UInt8} (h : HexText key text) :
    convertInput text = key := by
  fun_induction HexText key text with
  | case1 => rfl
  | case2 b key c c2 text ih =>
    obtain ⟨hc, hc2, hrest⟩ := h
    obtain ⟨hhigh, hlow, hb⟩ := byte_halves b
    rw [convertInput_cons, hexDigit_of_spells hhigh hc, hexDigit_of_spells hlow hc2, hb, ih hrest]
  | case3 => exact h.elim

theorem HexText.length_eq {key text : List UInt8} (h : HexText key text) :
    text.length = 2 * key.length := by
  fun_induction HexText key text with
  | case1 => rfl
  | case2 b key c c2 text ih =>
    have := ih h.2.2
    simp only [List.length_cons]
    omega
  | case3 => exact h.elim

theorem HexText.isHexDigit {key text : List UInt8} (h : HexText key text) :
    ∀ c ∈ text, IsHexDigit c := by
  fun_induction HexText key text with
  | case1 => simp
  | case2 b key c c2 text ih =>
    obtain ⟨hc, hc2, hrest⟩ := h
    obtain ⟨hhigh, hlow, -⟩ := byte_halves b
    rintro x (_ | ⟨_, _ | ⟨_, hx⟩⟩)
    · rwa [IsHexDigit, hexDigit_of_spells hhigh hc]
    · rwa [IsHexDigit, hexDigit_of_spells hlow hc2]
    · exact ih hrest x hx
  | case3 => exact h.elim

/-- Pairs of digits are a text of what they are decoded to. -/
theorem hexText_convertInput {text : List UInt8} (heven : 2 ∣ text.length)
    (h : ∀ c ∈ text, IsHexDigit c) : HexText (convertInput text) text := by
  fun_induction convertInput text with
  | case1 c c2 rest ih =>
    obtain ⟨hhigh, hlow⟩ := halves_byte (hexDigit_lt c) (hexDigit_lt c2)
    rw [highDigit_eq, lowDigit_eq, HexText, hhigh, hlow]
    refine ⟨h c (by simp), h c2 (by simp), ih ?_ fun x hx => h x (by simp [hx])⟩
    simp only [List.length_cons] at heven
    omega
  | case2 text hne =>
    match text, heven with
    | [], _ => trivial
    | [c], heven => simp at heven
    | c :: c2 :: rest, _ => exact absurd rfl (hne c c2 rest)

/-- A character that stands for a zero digit is not one of the chains' cases, or it is
`'0'`. -/
theorem isHexDigit_of_ne_zero {c : UInt8} (h : hexDigit c ≠ 0) : IsHexDigit c := by
  unfold hexDigit at h
  unfold IsHexDigit Spells lowerHex upperHex hexDigit
  split_ifs at h ⊢ <;> grind

/-! ## Accepted inputs -/

section Accepted

variable {s : SecureConnection} {bytes : List UInt8} {getOwnedVms : List UInt8 → Int}

/-- The client's input is accepted. -/
def Accepted (s : SecureConnection) (bytes : List UInt8) (getOwnedVms : List UInt8 → Int) : Prop :=
  (s.readPass (some bytes)).verifyPassword getOwnedVms ≠ 0

instance : Decidable (Accepted s bytes getOwnedVms) := inferInstanceAs (Decidable (_ ≠ _))

/-- The input spells a key that owns VMs. -/
def SpellsOwned (bytes : List UInt8) (getOwnedVms : List UInt8 → Int) : Prop :=
  ∃ key, key.length = 64 ∧ getOwnedVms key ≠ 0 ∧ HexText key bytes

/-- A key without a zero among its digits. -/
def NoZeroDigit (key : List UInt8) : Prop := ∀ b ∈ key, b / 16 ≠ 0 ∧ b % 16 ≠ 0

/-- The input with the zeros the buffer was filled with. -/
def padded (bytes : List UInt8) : List UInt8 :=
  bytes ++ List.replicate (passBufferSize - bytes.length) 0

theorem accepted_iff (hlen : bytes.length ≤ passBufferSize) :
    Accepted s bytes getOwnedVms ↔ getOwnedVms (convertInput (padded bytes)) ≠ 0 := by
  simp only [Accepted, SecureConnection.verifyPassword, SecureConnection.readPass, Option.getD_some,
    List.take_of_length_le hlen, padded]

theorem length_padded (hlen : bytes.length ≤ passBufferSize) :
    (padded bytes).length = passBufferSize := by
  rw [padded, List.length_append, List.length_replicate]
  omega

theorem length_convertInput (text : List UInt8) :
    (convertInput text).length = text.length / 2 := by
  fun_induction convertInput text with
  | case1 c c2 rest ih =>
    simp only [List.length_cons, ih]
    omega
  | case2 text hne =>
    match text with
    | [] => simp
    | [c] => simp
    | c :: c2 :: rest => exact absurd rfl (hne c c2 rest)

/-- All hex digits, 128 of them: this is what makes an input a text of its key. -/
theorem spellsOwned_of_hex (hlen : bytes.length = passBufferSize)
    (hhex : ∀ c ∈ bytes, IsHexDigit c) (hacc : Accepted s bytes getOwnedVms) :
    SpellsOwned bytes getOwnedVms := by
  have hpad : padded bytes = bytes := by simp [padded, hlen]
  rw [accepted_iff (Nat.le_of_eq hlen), hpad] at hacc
  refine ⟨convertInput bytes, ?_, hacc, hexText_convertInput (by rw [hlen]; decide) hhex⟩
  rw [length_convertInput, hlen]
  rfl

/-- By input: only the key the input is decoded to matters. -/
theorem spellsOwned_iff_hex (hlen : bytes.length ≤ passBufferSize) :
    (∀ getOwnedVms, Accepted s bytes getOwnedVms → SpellsOwned bytes getOwnedVms) ↔
      bytes.length = passBufferSize ∧ ∀ c ∈ bytes, IsHexDigit c := by
  constructor
  · intro h
    obtain ⟨key, hkey, -, htext⟩ :=
      h (fun key => if key = convertInput (padded bytes) then 1 else 0)
        ((accepted_iff hlen).mpr (by simp))
    exact ⟨by rw [htext.length_eq, hkey]; rfl, htext.isHexDigit⟩
  · rintro ⟨hlen, hhex⟩ getOwnedVms hacc
    exact spellsOwned_of_hex hlen hhex hacc

/-- The text of a key with a `'g'` for every zero. -/
def misspelled (key : List UInt8) : List UInt8 :=
  key.flatMap fun b =>
    [if b / 16 = 0 then 103 else lowerHex (b / 16), if b % 16 = 0 then 103 else lowerHex (b % 16)]

theorem hexDigit_misspelled {v : UInt8} (hv : v < 16) :
    hexDigit (if v = 0 then 103 else lowerHex v) = v := by
  split
  case isTrue h => rw [h]; rfl
  case isFalse => exact hexDigit_of_spells hv (.inl rfl)

theorem convertInput_misspelled (key : List UInt8) : convertInput (misspelled key) = key := by
  induction key with
  | nil => rfl
  | cons b key ih =>
    obtain ⟨hhigh, hlow, hb⟩ := byte_halves b
    show convertInput (_ :: _ :: misspelled key) = _
    rw [convertInput_cons, ih, hexDigit_misspelled hhigh, hexDigit_misspelled hlow, hb]

theorem length_misspelled (key : List UInt8) : (misspelled key).length = 2 * key.length := by
  induction key with
  | nil => rfl
  | cons b key ih =>
    show (misspelled key).length + 1 + 1 = _
    rw [ih, List.length_cons]
    omega

/-- All characters of a decoded key without zeros are digits. -/
theorem isHexDigit_of_noZeroDigit {text : List UInt8} (heven : 2 ∣ text.length)
    (h : NoZeroDigit (convertInput text)) : ∀ c ∈ text, IsHexDigit c := by
  fun_induction convertInput text with
  | case1 c c2 rest ih =>
    obtain ⟨hhigh, hlow⟩ := halves_byte (hexDigit_lt c) (hexDigit_lt c2)
    have hb := h _ List.mem_cons_self
    rw [highDigit_eq, lowDigit_eq, hhigh, hlow] at hb
    have hrest : 2 ∣ rest.length := by
      simp only [List.length_cons] at heven
      omega
    rintro x (_ | ⟨_, _ | ⟨_, hx⟩⟩)
    · exact isHexDigit_of_ne_zero hb.1
    · exact isHexDigit_of_ne_zero hb.2
    · exact ih hrest (fun b hb => h b (List.mem_cons_of_mem _ hb)) x hx
  | case2 text hne =>
    match text, heven with
    | [], _ => simp
    | [c], heven => simp at heven
    | c :: c2 :: rest, _ => exact absurd rfl (hne c c2 rest)

/-- By key: a zero digit can be spelled by anything. -/
theorem spellsOwned_iff_noZeroDigit :
    (∀ bytes, bytes.length ≤ passBufferSize → Accepted s bytes getOwnedVms →
        SpellsOwned bytes getOwnedVms) ↔
      ∀ key, key.length = 64 → getOwnedVms key ≠ 0 → NoZeroDigit key := by
  constructor
  · intro h key hkey howned b hb
    have hlen : (misspelled key).length = passBufferSize := by
      rw [length_misspelled, hkey]
      rfl
    have hacc : Accepted s (misspelled key) getOwnedVms := by
      rw [accepted_iff (Nat.le_of_eq hlen), padded, hlen, Nat.sub_self, List.replicate_zero,
        List.append_nil, convertInput_misspelled]
      exact howned
    obtain ⟨key', -, -, htext⟩ := h _ (Nat.le_of_eq hlen) hacc
    have hg : (103 : UInt8) ∉ misspelled key := fun hmem =>
      absurd (htext.isHexDigit _ hmem) (by decide)
    constructor
    · intro hzero
      exact hg (List.mem_flatMap.mpr ⟨b, hb, by simp [hzero]⟩)
    · intro hzero
      exact hg (List.mem_flatMap.mpr ⟨b, hb, by simp [hzero]⟩)
  · intro h bytes hlen hacc
    have hkey : (convertInput (padded bytes)).length = 64 := by
      rw [length_convertInput, length_padded hlen]
      rfl
    have hhex := isHexDigit_of_noZeroDigit (by rw [length_padded hlen]; decide)
      (h _ hkey ((accepted_iff hlen).mp hacc))
    have hfull : bytes.length = passBufferSize := by
      by_contra hne
      have hnul : (0 : UInt8) ∈ padded bytes :=
        List.mem_append_right _ (List.mem_replicate.mpr ⟨by omega, rfl⟩)
      exact absurd (hhex 0 hnul) (by decide)
    exact spellsOwned_of_hex hfull (fun c hc => hhex c (List.mem_append_left _ hc)) hacc

end Accepted

/-- **The password decoder** maps every text of a key to the key. An input is a text of
every key it is accepted for if and only if it is 128 hex digits; a set of keys is safe
from all other inputs if and only if no key has a zero digit. -/
theorem password_decoder_iff (s : SecureConnection) (key text bytes : List UInt8)
    (htext : HexText key text) (hlen : bytes.length ≤ passBufferSize) :
    convertInput text = key ∧
      ((∀ getOwnedVms, Accepted s bytes getOwnedVms → SpellsOwned bytes getOwnedVms) ↔
        bytes.length = passBufferSize ∧ ∀ c ∈ bytes, IsHexDigit c) ∧
      ∀ getOwnedVms, (∀ bytes, bytes.length ≤ passBufferSize → Accepted s bytes getOwnedVms →
          SpellsOwned bytes getOwnedVms) ↔
        ∀ key, key.length = 64 → getOwnedVms key ≠ 0 → NoZeroDigit key :=
  ⟨htext.convertInput_eq, spellsOwned_iff_hex hlen, fun _ => spellsOwned_iff_noZeroDigit⟩

/-- 64 times `Ab`, and an input of 128 digits. -/
theorem password_decoder_iff_ab :
    convertInput ((List.replicate 64 [65, 98]).flatten) = List.replicate 64 0xAB ∧
      ((∀ getOwnedVms, Accepted .init (List.replicate 128 49) getOwnedVms →
        SpellsOwned (List.replicate 128 49) getOwnedVms) ↔
          (List.replicate 128 (49 : UInt8)).length = passBufferSize ∧
            ∀ c ∈ List.replicate 128 (49 : UInt8), IsHexDigit c) := by
  have htext : ∀ n, HexText (List.replicate n 0xAB) ((List.replicate n [65, 98]).flatten) := by
    intro n
    induction n with
    | zero => trivial
    | succ n ih => exact ⟨by decide, by decide, ih⟩
  have h := password_decoder_iff .init _ _ (List.replicate 128 49) (htext 64)
    (by simp [passBufferSize])
  exact ⟨h.1, h.2.1⟩

/-- A key that ends in a zero digit. -/
def tenKey : List UInt8 := List.replicate 63 0x11 ++ [0x10]

/-- It is accepted with a `'g'` at the end of its text, and without the last digit. -/
theorem misspelled_password_accepted :
    Accepted .init (List.replicate 127 49 ++ [103]) (fun key => if key = tenKey then 1 else 0) ∧
      Accepted .init (List.replicate 127 49) (fun key => if key = tenKey then 1 else 0) ∧
      ¬SpellsOwned (List.replicate 127 49 ++ [103]) (fun key => if key = tenKey then 1 else 0) ∧
      ¬SpellsOwned (List.replicate 127 49) fun key => if key = tenKey then 1 else 0 := by
  refine ⟨by decide +kernel, by decide +kernel, ?_, ?_⟩
  · rintro ⟨key, -, -, htext⟩
    exact absurd (htext.isHexDigit 103 (by simp)) (by decide)
  · rintro ⟨key, hkey, -, htext⟩
    have := htext.length_eq
    simp [hkey] at this

end PrplHypervisor.Password
