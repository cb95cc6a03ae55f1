import PrplHypervisor.Guest.NumberText
import PrplHypervisor.Lib.FirstDifference

/-!
# Comparing bytes (bare-metal-apps/lib/libc.c)

`memcmp`, `strcmp` and `strncmp` stop at the first difference and answer from the two
characters there, which are signed.

- `SignedDiff`: what all three answer (`memcmp_spec`, `strcmp_spec`, `strncmp_spec`).
- `Compares`: what they are to answer. `SignedDiff.compares_iff`: it is this answer where
  the first difference is between two characters of one sign.
-/

namespace PrplHypervisor.Libc

open Text FirstDifference

/-- A character as the number it is. -/
def charValue (c : UInt8) : Int := c.toBitVec.toInt

/-- `memcmp`. -/
def memcmp (mem : Bytes) (cs ct : Nat) : Nat → Int
  | 0 => 0
  | n + 1 =>
    if mem cs = mem ct then memcmp mem (cs + 1) (ct + 1) n
    else if charValue (mem cs) < charValue (mem ct) then -1
    else 1

/-- `strcmp`, whose loop has so many rounds. -/
def strcmp (mem : Bytes) : Nat → Nat → Nat → Option Int
  | 0, _, _ => none
  | rounds + 1, s1, s2 =>
    if mem s1 = mem s2 then
      if mem s1 = 0 then some 0 else strcmp mem rounds (s1 + 1) (s2 + 1)
    -- `s2` has moved on and comes back
    else some (charValue (mem s1) - charValue (mem s2))

/-- `strncmp`. -/
def strncmp (mem : Bytes) : Nat → Nat → Nat → Int → Option Int
  | 0, _, _, _ => none
  | rounds + 1, s1, s2, n =>
    let n := n - 1
    if 0 ≤ n ∧ mem s1 = mem s2 then
      if mem s1 = 0 then some 0 else strncmp mem rounds (s1 + 1) (s2 + 1) n
    else if n < 0 then some 0
    else some (charValue (mem s1) - charValue (mem s2))

/-! ## What is answered -/

/-- The answer for `l` and `l'` as it is to be: no difference is zero, and the first difference
decides as one of unsigned bytes. -/
def Compares (r : Int) (l l' : List UInt8) : Prop :=
  (r = 0 ↔ l = l') ∧ ∀ a b, firstDiff l l' = some (a, b) → (r < 0 ↔ a < b) ∧ (0 < r ↔ b < a)

/-- The first difference decides as one of signed characters. -/
def SignedDiff (r : Int) (l l' : List UInt8) : Prop :=
  (firstDiff l l' = none → r = 0) ∧ ∀ a b, firstDiff l l' = some (a, b) →
    (r < 0 ↔ charValue a < charValue b) ∧ (0 < r ↔ charValue b < charValue a)

/-- The first difference is between two ASCII characters or between two others. -/
def SameHalf (l l' : List UInt8) : Prop :=
  ∀ a b, firstDiff l l' = some (a, b) → (a < 128 ↔ b < 128)

section Answers

variable {r : Int} {l l' : List UInt8} {a b c : UInt8}

theorem charValue_eq (c : UInt8) :
    charValue c = if c < 128 then (c.toNat : Int) else c.toNat - 256 := by
  have hlt : c < 128 ↔ c.toNat < 128 := UInt8.lt_iff_toNat_lt
  have hval : c.toBitVec.toNat = c.toNat := rfl
  rw [charValue, BitVec.toInt_eq_toNat_cond, hval]
  simp only [hlt]
  split <;> split <;> omega

theorem charValue_inj (h : charValue a = charValue b) : a = b := by
  rw [charValue, charValue] at h
  exact UInt8.toBitVec_inj.mp (BitVec.eq_of_toInt_eq h)

/-- Signed and unsigned agree on the order of two characters of one sign only. -/
theorem charValue_lt_iff (hne : a ≠ b) :
    (charValue a < charValue b ↔ a < b) ↔ (a < 128 ↔ b < 128) := by
  have ha : a < 128 ↔ a.toNat < 128 := UInt8.lt_iff_toNat_lt
  have hb : b < 128 ↔ b.toNat < 128 := UInt8.lt_iff_toNat_lt
  have hab : a < b ↔ a.toNat < b.toNat := UInt8.lt_iff_toNat_lt
  have hnat : a.toNat ≠ b.toNat := fun heq => hne (UInt8.toNat_inj.mp heq)
  have hlta := a.toNat_lt
  have hltb := b.toNat_lt
  rw [charValue_eq, charValue_eq]
  simp only [ha, hb, hab]
  split <;> split <;> omega

theorem SignedDiff.compares_iff (hr : SignedDiff r l l') (hnone : firstDiff l l' = none ↔ l = l') :
    Compares r l l' ↔ SameHalf l l' := by
  obtain ⟨hzero, hsign⟩ := hr
  cases hd : firstDiff l l' with
  | none =>
    have heq := hnone.mp hd
    constructor
    · intro _ a b hab
      cases hd.symm.trans hab
    · intro _
      refine ⟨⟨fun _ => heq, fun _ => hzero hd⟩, fun a b hab => ?_⟩
      cases hd.symm.trans hab
  | some p =>
    obtain ⟨a, b⟩ := p
    have hne := ne_of_firstDiff hd
    have hlist : l ≠ l' := fun heq => by cases hd.symm.trans (hnone.mpr heq)
    have hvalue : charValue a ≠ charValue b := fun heq => hne (charValue_inj heq)
    obtain ⟨hneg, hpos⟩ := hsign a b hd
    have hord := charValue_lt_iff hne
    have hord' := charValue_lt_iff (Ne.symm hne)
    constructor
    · rintro ⟨-, hcmp⟩ a' b' hab
      obtain ⟨rfl, rfl⟩ := Prod.mk.inj (Option.some.inj (hd.symm.trans hab))
      exact hord.mp (hneg.symm.trans (hcmp a b hd).1)
    · intro hhalf
      have hsame := hhalf a b hd
      refine ⟨⟨fun h => ?_, fun h => absurd h hlist⟩, fun a' b' hab => ?_⟩
      · -- a zero is neither sign
        omega
      · obtain ⟨rfl, rfl⟩ := Prod.mk.inj (Option.some.inj (hd.symm.trans hab))
        exact ⟨hneg.trans (hord.mpr hsame), hpos.trans (hord'.mpr hsame.symm)⟩

theorem signedDiff_cons_self (a : UInt8) (h : SignedDiff r l l') :
    SignedDiff r (a :: l) (a :: l') := by
  rw [SignedDiff, firstDiff_cons, if_pos rfl]
  exact h

theorem signedDiff_cons_of_ne (hne : a ≠ b) (l l' : List UInt8)
    (h : (r < 0 ↔ charValue a < charValue b) ∧ (0 < r ↔ charValue b < charValue a)) :
    SignedDiff r (a :: l) (b :: l') := by
  rw [SignedDiff, firstDiff_cons, if_neg hne]
  refine ⟨nofun, fun c d hcd => ?_⟩
  obtain ⟨rfl, rfl⟩ := Prod.mk.inj (Option.some.inj hcd)
  exact h

theorem signedDiff_sub (hne : a ≠ b) (l l' : List UInt8) :
    SignedDiff (charValue a - charValue b) (a :: l) (b :: l') :=
  signedDiff_cons_of_ne hne l l' (by omega)

theorem signedDiff_self (l : List UInt8) : SignedDiff 0 l l := by
  rw [SignedDiff, firstDiff_self]
  exact ⟨fun _ => rfl, nofun⟩

end Answers

/-! ## The loops -/

section Loops

variable {mem : Bytes} {p q : Nat} {l l' : List UInt8}

theorem memcmp_spec (hlen : l.length = l'.length) (hl : Holds mem p l) (hl' : Holds mem q l') :
    SignedDiff (memcmp mem p q l.length) l l' := by
  induction l generalizing l' p q with
  | nil =>
    obtain rfl := List.length_eq_zero_iff.mp hlen.symm
    exact signedDiff_self []
  | cons a l ih =>
    cases l' with
    | nil => cases hlen
    | cons b l' =>
      obtain ⟨rfl, hl⟩ := hl
      obtain ⟨rfl, hl'⟩ := hl'
      rw [List.length_cons, memcmp]
      split
      case isTrue heq =>
        rw [heq]
        exact signedDiff_cons_self _ (ih (Nat.succ.inj hlen) hl hl')
      case isFalse hne =>
        have hvalue : charValue (mem p) ≠ charValue (mem q) := fun heq => hne (charValue_inj heq)
        refine signedDiff_cons_of_ne hne l l' ?_
        split <;> omega

/-- The first character of a text in memory. -/
theorem text_cons (h : Holds mem p (l ++ [0])) : ∃ r, l ++ [0] = mem p :: r := by
  cases l with
  | nil => exact ⟨[], by rw [h.1, List.nil_append]⟩
  | cons a l => exact ⟨l ++ [0], by rw [h.1, List.cons_append]⟩

/-- It is the NUL, or the text goes on behind it. -/
theorem text_head (h0 : 0 ∉ l) (h : Holds mem p (l ++ [0])) : mem p = 0 ∧ l = [] ∨
    mem p ≠ 0 ∧ ∃ l₁, l = mem p :: l₁ ∧ 0 ∉ l₁ ∧ Holds mem (p + 1) (l₁ ++ [0]) := by
  cases l with
  | nil => exact .inl ⟨h.1, rfl⟩
  | cons a l =>
    obtain ⟨rfl, h⟩ := h
    exact .inr ⟨fun heq => h0 (by rw [heq]; exact List.mem_cons_self), l, rfl,
      fun hmem => h0 (List.mem_cons_of_mem _ hmem), h⟩

theorem strcmp_spec {rounds : Nat} (h0 : 0 ∉ l) (h0' : 0 ∉ l') (hl : Holds mem p (l ++ [0]))
    (hl' : Holds mem q (l' ++ [0])) (hrounds : l.length < rounds) :
    ∃ r, strcmp mem rounds p q = some r ∧ SignedDiff r (l ++ [0]) (l' ++ [0]) := by
  induction rounds generalizing l l' p q with
  | zero => cases hrounds
  | succ rounds ih =>
    by_cases heq : mem p = mem q
    · rw [strcmp, if_pos heq]
      rcases text_head h0 hl with ⟨hp, rfl⟩ | ⟨hp, l₁, rfl, h0₁, hl₁⟩
      · rcases text_head h0' hl' with ⟨-, rfl⟩ | ⟨hq, -⟩
        · exact ⟨0, if_pos hp, signedDiff_self _⟩
        · exact absurd (heq.symm.trans hp) hq
      · rcases text_head h0' hl' with ⟨hq, -⟩ | ⟨hq, l₂, rfl, h0₂, hl₂⟩
        · exact absurd (heq.trans hq) hp
        · rw [if_neg hp, heq]
          obtain ⟨r, hr, hdiff⟩ := ih h0₁ h0₂ hl₁ hl₂ (Nat.lt_of_succ_lt_succ hrounds)
          exact ⟨r, hr, signedDiff_cons_self _ hdiff⟩
    · rw [strcmp, if_neg heq]
      obtain ⟨r, hr⟩ := text_cons hl
      obtain ⟨r', hr'⟩ := text_cons hl'
      rw [hr, hr']
      exact ⟨_, rfl, signedDiff_sub heq r r'⟩

/-- The loop of `strncmp` may end before the texts do. -/
theorem strncmp_spec {n rounds : Nat} (h0 : 0 ∉ l) (h0' : 0 ∉ l') (hl : Holds mem p (l ++ [0]))
    (hl' : Holds mem q (l' ++ [0])) (hrounds : min l.length n < rounds) :
    ∃ r, strncmp mem rounds p q n = some r ∧
      SignedDiff r ((l ++ [0]).take n) ((l' ++ [0]).take n) := by
  induction rounds generalizing l l' p q n with
  | zero => cases hrounds
  | succ rounds ih =>
    cases n with
    | zero =>
      rw [List.take_zero, List.take_zero]
      exact ⟨0, by simp [strncmp], signedDiff_self []⟩
    | succ n =>
      have hn : ((n + 1 : Nat) : Int) - 1 = n := by omega
      have hnonneg : (0 : Int) ≤ n := Int.natCast_nonneg n
      by_cases heq : mem p = mem q
      · rw [strncmp]
        simp only [hn, heq, hnonneg, and_self, if_true]
        rcases text_head h0 hl with ⟨hp, rfl⟩ | ⟨hp, l₁, rfl, h0₁, hl₁⟩
        · rcases text_head h0' hl' with ⟨hq, rfl⟩ | ⟨hq, -⟩
          · exact ⟨0, if_pos hq, signedDiff_self _⟩
          · exact absurd (heq.symm.trans hp) hq
        · rcases text_head h0' hl' with ⟨hq, -⟩ | ⟨hq, l₂, rfl, h0₂, hl₂⟩
          · exact absurd (heq.trans hq) hp
          · have hlt : min l₁.length n < rounds := by
              rw [List.length_cons] at hrounds
              omega
            obtain ⟨r, hr, hdiff⟩ := ih h0₁ h0₂ hl₁ hl₂ hlt
            refine ⟨r, by rw [if_neg hq, hr], ?_⟩
            rw [heq, List.cons_append, List.cons_append]
            exact signedDiff_cons_self _ hdiff
      · obtain ⟨r, hr⟩ := text_cons hl
        obtain ⟨r', hr'⟩ := text_cons hl'
        rw [hr, hr', List.take_succ_cons, List.take_succ_cons]
        refine ⟨_, ?_, signedDiff_sub heq (r.take n) (r'.take n)⟩
        rw [strncmp]
        simp only [hn, heq, and_false, if_false, Int.not_lt.mpr hnonneg]

/-- The three comparisons order unsigned bytes exactly where the first difference is between two
ASCII characters or between two others. -/
theorem compare_iff (mem : Bytes) (p q : Nat) :
    (∀ l l' : List UInt8, l.length = l'.length → Holds mem p l → Holds mem q l' →
      (Compares (memcmp mem p q l.length) l l' ↔ SameHalf l l')) ∧
    (∀ (l l' : List UInt8) (rounds : Nat), 0 ∉ l → 0 ∉ l' → Holds mem p (l ++ [0]) →
      Holds mem q (l' ++ [0]) → l.length < rounds → ∃ r, strcmp mem rounds p q = some r ∧
        (Compares r (l ++ [0]) (l' ++ [0]) ↔ SameHalf (l ++ [0]) (l' ++ [0]))) ∧
    (∀ (l l' : List UInt8) (n rounds : Nat), 0 ∉ l → 0 ∉ l' → Holds mem p (l ++ [0]) →
      Holds mem q (l' ++ [0]) → l.length < rounds → ∃ r, strncmp mem rounds p q n = some r ∧
        (Compares r ((l ++ [0]).take n) ((l' ++ [0]).take n) ↔
          SameHalf ((l ++ [0]).take n) ((l' ++ [0]).take n))) := by
  refine ⟨?_, ?_, ?_⟩
  · intro l l' hlen hl hl'
    exact (memcmp_spec hlen hl hl').compares_iff (firstDiff_none_iff hlen)
  · intro l l' rounds h0 h0' hl hl' hrounds
    obtain ⟨r, hr, hdiff⟩ := strcmp_spec h0 h0' hl hl' hrounds
    exact ⟨r, hr, hdiff.compares_iff (firstDiff_mark_none_iff h0 h0')⟩
  · intro l l' n rounds h0 h0' hl hl' hrounds
    obtain ⟨r, hr, hdiff⟩ := strncmp_spec h0 h0' hl hl'
      (Nat.lt_of_le_of_lt (Nat.min_le_left _ n) hrounds)
    exact ⟨r, hr, hdiff.compares_iff (firstDiff_take_none_iff h0 h0' n)⟩

/-- `abc` at 0 and `abd` at 10. -/
def prefixed : Bytes := fun x =>
  if x < 10 then [97, 98, 99].getD x 0 else [97, 98, 100].getD (x - 10) 0

theorem compare_iff_ascii : Compares (memcmp prefixed 0 10 3) [97, 98, 99] [97, 98, 100] ∧
    (∃ r, strcmp prefixed 5 0 10 = some r ∧ Compares r [97, 98, 99, 0] [97, 98, 100, 0]) ∧
    ∃ r, strncmp prefixed 5 0 10 (7 : Nat) = some r ∧
      Compares r ([97, 98, 99, 0].take 7) ([97, 98, 100, 0].take 7) := by
  have hp : Holds prefixed 0 ([97, 98, 99] ++ [0]) := ⟨rfl, rfl, rfl, rfl, trivial⟩
  have hq : Holds prefixed 10 ([97, 98, 100] ++ [0]) := ⟨rfl, rfl, rfl, rfl, trivial⟩
  have hhalf : SameHalf [97, 98, 99, 0] [97, 98, 100, 0] := by
    rintro a b ⟨⟩
    exact ⟨fun _ => by decide, fun _ => by decide⟩
  obtain ⟨hmem, hstr, hstrn⟩ := compare_iff prefixed 0 10
  refine ⟨(hmem [97, 98, 99] [97, 98, 100] rfl ⟨rfl, rfl, rfl, trivial⟩
    ⟨rfl, rfl, rfl, trivial⟩).mpr ?_, ?_, ?_⟩
  · rintro a b ⟨⟩
    exact ⟨fun _ => by decide, fun _ => by decide⟩
  · obtain ⟨r, hr, hiff⟩ :=
      hstr [97, 98, 99] [97, 98, 100] 5 (by decide) (by decide) hp hq (by decide)
    exact ⟨r, hr, hiff.mpr hhalf⟩
  · obtain ⟨r, hr, hiff⟩ :=
      hstrn [97, 98, 99] [97, 98, 100] 7 5 (by decide) (by decide) hp hq (by decide)
    exact ⟨r, hr, hiff.mpr hhalf⟩

/-- Texts of one character at 0 and 10. -/
def characters (a b : UInt8) : Bytes := fun x => if x = 0 then a else if x = 10 then b else 0

/-- The byte 128 is the greater one. -/
theorem compare_high : memcmp (characters 128 127) 0 10 1 = -1 ∧ ¬ Compares (-1) [128] [127] ∧
    strcmp (characters 128 127) 2 0 10 = some (-255) ∧
    strncmp (characters 128 127) 2 0 10 1 = some (-255) ∧ ¬ Compares (-255) [128, 0] [127, 0] := by
  refine ⟨rfl, fun h => ?_, rfl, rfl, fun h => ?_⟩
  · exact absurd ((h.2 128 127 rfl).1.mp (by decide)) (by decide)
  · exact absurd ((h.2 128 127 rfl).1.mp (by decide)) (by decide)

end Loops

end PrplHypervisor.Libc
