import Mathlib.Data.List.GetD
import PrplHypervisor.Cryptography.Sha256
import PrplHypervisor.Lib.Blocks

/-!
# The hash is the digest of the standard

`digest` pads a message and folds `compress` over its blocks. `Hashed` relates a context to
the bytes hashed so far; every call of `sha256_update` keeps it, however the message is cut.

- `sha256Transform_eq`: one block.
- `Hashed.update`: any bytes from a context of the invariant.
- `final_eq`: the two shapes of the padding.
-/

namespace PrplHypervisor.Sha256

open Blocks

/-! ## The standard -/

def bigSigma0 (x : WORD) : WORD := x.rotateRight 2 ^^^ x.rotateRight 13 ^^^ x.rotateRight 22
def bigSigma1 (x : WORD) : WORD := x.rotateRight 6 ^^^ x.rotateRight 11 ^^^ x.rotateRight 25
def smallSigma0 (x : WORD) : WORD := x.rotateRight 7 ^^^ x.rotateRight 18 ^^^ (x >>> 3)
def smallSigma1 (x : WORD) : WORD := x.rotateRight 17 ^^^ x.rotateRight 19 ^^^ (x >>> 10)

/-- Word `t` of a block, the first byte on top. -/
def blockWord (block : List BYTE) (t : Nat) : WORD :=
  (block.getD (4 * t) 0).toBitVec ++ (block.getD (4 * t + 1) 0).toBitVec ++
    (block.getD (4 * t + 2) 0).toBitVec ++ (block.getD (4 * t + 3) 0).toBitVec

/-- The message schedule. -/
def messageWord (block : List BYTE) (t : Nat) : WORD :=
  if t < 16 then blockWord block t
  else
    smallSigma1 (messageWord block (t - 2)) + messageWord block (t - 7) +
      smallSigma0 (messageWord block (t - 15)) + messageWord block (t - 16)
termination_by t
decreasing_by all_goals omega

/-- The working variables before round `t`. -/
def working (s : Words) (block : List BYTE) : Nat → Words
  | 0 => s
  | t + 1 =>
    let v := working s block t
    let t1 := v.h + bigSigma1 v.e + ((v.e &&& v.f) ^^^ (~~~v.e &&& v.g)) + k.getD t 0 +
      messageWord block t
    let t2 := bigSigma0 v.a + ((v.a &&& v.b) ^^^ (v.a &&& v.c) ^^^ (v.b &&& v.c))
    { a := t1 + t2, b := v.a, c := v.b, d := v.c, e := v.d + t1, f := v.e, g := v.f, h := v.g }

def compress (s : Words) (block : List BYTE) : Words := s.add (working s block 64)

/-- The bytes of a number, the highest first. -/
def bytesOf {w : Nat} (n : Nat) (x : BitVec w) : List BYTE :=
  (List.range n).map fun i => ⟨x.extractLsb' (8 * (n - 1 - i)) 8⟩

/-- A one bit, zeros up to 8 bytes before the end of a block, the length in bits. -/
def padding (length : Nat) : List BYTE :=
  0x80 :: (List.replicate ((119 - length % 64) % 64) 0 ++ bytesOf 8 (BitVec.ofNat 64 (8 * length)))

def initial : Words :=
  { a := 0x6a09e667, b := 0xbb67ae85, c := 0x3c6ef372, d := 0xa54ff53a,
    e := 0x510e527f, f := 0x9b05688c, g := 0x1f83d9ab, h := 0x5be0cd19 }

def Words.toList (s : Words) : List WORD := [s.a, s.b, s.c, s.d, s.e, s.f, s.g, s.h]

/-- SHA-256. -/
def digest (message : List BYTE) : List BYTE :=
  (foldBlocks compress 64 initial (message ++ padding message.length)).toList.flatMap (bytesOf 4)

/-! ### The constants -/

/-- `x` is the first 32 bits behind the point of the `r`-th root of `p`. -/
def IsRootFraction (r p : Nat) (x : WORD) : Prop :=
  ∃ m < 20, (m * 2 ^ 32 + x.toNat) ^ r ≤ p * 2 ^ (32 * r) ∧
    p * 2 ^ (32 * r) < (m * 2 ^ 32 + x.toNat + 1) ^ r

instance (r p : Nat) (x : WORD) : Decidable (IsRootFraction r p x) :=
  inferInstanceAs (Decidable (∃ m < 20, _))

/-- The first 64 primes. -/
def primes : List Nat :=
  [2, 3, 5, 7, 11, 13, 17, 19, 23, 29, 31, 37, 41, 43, 47, 53, 59, 61, 67, 71, 73, 79, 83, 89, 97,
   101, 103, 107, 109, 113, 127, 131, 137, 139, 149, 151, 157, 163, 167, 173, 179, 181, 191, 193,
   197, 199, 211, 223, 227, 229, 233, 239, 241, 251, 257, 263, 269, 271, 277, 281, 283, 293, 307,
   311]

theorem k_isRootFraction : List.Forall₂ (IsRootFraction 3) primes k := by
  decide +kernel

theorem initial_isRootFraction :
    List.Forall₂ (IsRootFraction 2) (primes.take 8) initial.toList := by
  decide +kernel

/-! ## One block -/

theorem rotright_eq {a : WORD} {b : Nat} (hb : b < 32) : rotright a b = a.rotateRight b := by
  rw [rotright, BitVec.rotateRight_def, Nat.mod_eq_of_lt hb]

theorem ep0_eq (x : WORD) : ep0 x = bigSigma0 x := by
  simp only [ep0, bigSigma0, rotright_eq (by omega : 2 < 32), rotright_eq (by omega : 13 < 32),
    rotright_eq (by omega : 22 < 32)]

theorem ep1_eq (x : WORD) : ep1 x = bigSigma1 x := by
  simp only [ep1, bigSigma1, rotright_eq (by omega : 6 < 32), rotright_eq (by omega : 11 < 32),
    rotright_eq (by omega : 25 < 32)]

theorem sig0_eq (x : WORD) : sig0 x = smallSigma0 x := by
  simp only [sig0, smallSigma0, rotright_eq (by omega : 7 < 32), rotright_eq (by omega : 18 < 32)]

theorem sig1_eq (x : WORD) : sig1 x = smallSigma1 x := by
  simp only [sig1, smallSigma1, rotright_eq (by omega : 17 < 32),
    rotright_eq (by omega : 19 < 32)]

/-- Four bytes shifted to their places are one word. -/
theorem word_or (b0 b1 b2 b3 : BYTE) :
    (word b0 <<< 24) ||| (word b1 <<< 16) ||| (word b2 <<< 8) ||| word b3 =
      b0.toBitVec ++ b1.toBitVec ++ b2.toBitVec ++ b3.toBitVec := by
  refine BitVec.eq_of_getLsbD_eq fun i hi => ?_
  simp only [word, BitVec.getLsbD_or, BitVec.getLsbD_shiftLeft, BitVec.getLsbD_setWidth,
    BitVec.getLsbD_append]
  have hhigh : ∀ (b : BYTE) j, 8 ≤ j → b.toBitVec.getLsbD j = false :=
    fun b j hj => BitVec.getLsbD_of_ge _ _ hj
  grind

/-- The block a function holds. -/
def blockOf (data : Nat → BYTE) : List BYTE := (List.range 64).map data

theorem loadWords_getD {data : Nat → BYTE} {t : Nat} (ht : t < 16) :
    (loadWords data).getD t 0 = blockWord (blockOf data) t := by
  have hbyte : ∀ i < 64, (blockOf data).getD i 0 = data i := by
    intro i hi
    simp [blockOf, List.getD_eq_getElem?_getD, hi]
  rw [blockWord, hbyte _ (by omega), hbyte _ (by omega), hbyte _ (by omega), hbyte _ (by omega),
    ← word_or]
  simp [loadWords, List.getD_eq_getElem?_getD, ht]

/-- The words computed so far are those of the schedule. -/
structure Expanded (block : List BYTE) (n : Nat) (m : List WORD) : Prop where
  length : m.length = n
  words : ∀ t < n, m.getD t 0 = messageWord block t

theorem Expanded.expand {block : List BYTE} {n : Nat} {m : List WORD} (hm : Expanded block n m)
    (hn : 16 ≤ n) : Expanded block (n + 1) (expand m n) := by
  refine ⟨by rw [Sha256.expand, List.length_append, hm.length]; rfl, ?_⟩
  intro t ht
  obtain hlt | rfl := Nat.lt_succ_iff_lt_or_eq.mp ht
  · rw [Sha256.expand, List.getD_append _ _ _ _ (by rw [hm.length]; exact hlt), hm.words t hlt]
  · rw [Sha256.expand, List.getD_append_right _ _ _ _ (by rw [hm.length]), hm.length, Nat.sub_self,
      List.getD_cons_zero, hm.words _ (by omega), hm.words _ (by omega), hm.words _ (by omega),
      hm.words _ (by omega), messageWord.eq_1 block t, if_neg (by omega), sig0_eq, sig1_eq]

theorem expanded_fold {block : List BYTE} {n start : Nat} {m : List WORD}
    (hm : Expanded block start m) (hstart : 16 ≤ start) :
    Expanded block (start + n) ((List.range' start n).foldl Sha256.expand m) := by
  induction n generalizing start m with
  | zero => exact hm
  | succ n ih =>
    rw [List.range'_succ, List.foldl_cons, Nat.add_comm n 1, ← Nat.add_assoc]
    exact ih (hm.expand hstart) (by omega)

theorem expanded_schedule (data : Nat → BYTE) : Expanded (blockOf data) 64 (schedule data) := by
  have hlength : (loadWords data).length = 16 := by
    rw [loadWords, List.length_map, List.length_range]
  have hwords : ∀ t < 16, (loadWords data).getD t 0 = messageWord (blockOf data) t := by
    intro t ht
    rw [loadWords_getD ht, messageWord, if_pos ht]
  exact expanded_fold (n := 48) ⟨hlength, hwords⟩ (Nat.le_refl 16)

theorem rounds_eq (data : Nat → BYTE) (s : Words) {n : Nat} (hn : n ≤ 64) :
    (List.range n).foldl (round (schedule data)) s = working s (blockOf data) n := by
  induction n with
  | zero => rfl
  | succ n ih =>
    rw [List.range_succ, List.foldl_append, ih (by omega), List.foldl_cons, List.foldl_nil]
    simp only [round, working, ch, maj, ep0_eq, ep1_eq, (expanded_schedule data).words n (by omega)]

theorem sha256Transform_eq (ctx : Sha256Ctx) :
    sha256Transform ctx = { ctx with state := compress ctx.state (blockOf ctx.data) } := by
  simp only [sha256Transform, compress, rounds_eq ctx.data ctx.state (Nat.le_refl 64)]

/-! ## The bytes in the block -/

/-- The block starts with `xs`. -/
def Holds (data : Nat → BYTE) (xs : List BYTE) : Prop :=
  ∀ i < xs.length, data i = xs.getD i 0

namespace Holds

variable {data : Nat → BYTE} {xs : List BYTE}

theorem push (h : Holds data xs) (b : BYTE) :
    Holds (Function.update data xs.length b) (xs ++ [b]) := by
  intro i hi
  rw [List.length_append, List.length_singleton] at hi
  obtain hlt | rfl := Nat.lt_succ_iff_lt_or_eq.mp hi
  · rw [Function.update_of_ne (Nat.ne_of_lt hlt), h i hlt, List.getD_append _ _ _ _ hlt]
  · rw [Function.update_self, List.getD_append_right _ _ _ _ (Nat.le_refl _), Nat.sub_self,
      List.getD_cons_zero]

theorem zeros (h : Holds data xs) (n : Nat) :
    Holds ((List.range' xs.length n).foldl (fun data i => Function.update data i 0) data)
      (xs ++ List.replicate n 0) := by
  induction n generalizing data xs with
  | zero =>
    rw [List.replicate_zero, List.append_nil]
    exact h
  | succ n ih =>
    have hpush := ih (h.push 0)
    rw [List.length_append, List.length_singleton] at hpush
    rw [List.range'_succ, List.foldl_cons, List.replicate_succ, List.append_cons]
    exact hpush

theorem block (h : Holds data xs) (hxs : xs.length = 64) : blockOf data = xs := by
  refine List.ext_getElem (by rw [blockOf, List.length_map, List.length_range, hxs]) ?_
  intro i hi hi'
  simp only [blockOf, List.getElem_map, List.getElem_range]
  rw [h i hi', List.getD_eq_getElem _ _ hi']

end Holds

/-- Stores that go down from `top`. -/
theorem foldl_update_down {data : Nat → BYTE} {v : Nat → BYTE} {top n i : Nat} (hn : n ≤ top + 1) :
    (List.range n).foldl (fun data j => Function.update data (top - j) (v j)) data i =
      if top < i + n ∧ i ≤ top then v (top - i) else data i := by
  induction n with
  | zero => rw [List.range_zero, List.foldl_nil, if_neg (by omega)]
  | succ n ih =>
    rw [List.range_succ, List.foldl_append, List.foldl_cons, List.foldl_nil]
    by_cases hi : i = top - n
    · subst hi
      rw [Function.update_self, if_pos (by omega), show top - (top - n) = n by omega]
    · rw [Function.update_of_ne hi, ih (by omega)]
      exact if_congr (by omega) rfl rfl

theorem byte_shift {w : Nat} (x : BitVec w) (j : Nat) : byte (x >>> j) = ⟨x.extractLsb' j 8⟩ := by
  rw [byte, BitVec.setWidth_ushiftRight_eq_extractLsb]

theorem bytesOf_length {w : Nat} (n : Nat) (x : BitVec w) : (bytesOf n x).length = n := by
  rw [bytesOf, List.length_map, List.length_range]

theorem holds_storeLength {ctx : Sha256Ctx} {xs : List BYTE} (h : Holds ctx.data xs)
    (hxs : xs.length = 56) : Holds (storeLength ctx).data (xs ++ bytesOf 8 ctx.bitlen) := by
  intro i hi
  rw [List.length_append, bytesOf_length, hxs] at hi
  simp only [storeLength]
  rw [foldl_update_down (by omega)]
  by_cases hlow : i < 56
  · rw [if_neg (by omega), h i (by omega), List.getD_append _ _ _ _ (by omega)]
  · have hbyte : (bytesOf 8 ctx.bitlen)[i - 56]? =
        some ⟨ctx.bitlen.extractLsb' (8 * (8 - 1 - (i - 56))) 8⟩ := by
      rw [bytesOf, List.getElem?_map, List.getElem?_range (by omega)]
      rfl
    rw [if_pos (by omega), List.getD_append_right _ _ _ _ (by omega), hxs,
      List.getD_eq_getElem?_getD, hbyte, byte_shift, Option.getD_some,
      show 8 - 1 - (i - 56) = 63 - i by omega]

/-! ## Any number of updates -/

/-- `full` has gone through the transform, `pending` waits in the block. -/
structure Hashed (full pending : List BYTE) (ctx : Sha256Ctx) : Prop where
  blocks : 64 ∣ full.length
  room : pending.length < 64
  datalen : ctx.datalen = pending.length
  data : Holds ctx.data pending
  bitlen : ctx.bitlen = BitVec.ofNat 64 (8 * full.length)
  state : ctx.state = foldBlocks compress 64 initial full

/-- What a context says of the bytes it was given. -/
def HashedAll (message : List BYTE) (ctx : Sha256Ctx) : Prop :=
  ∃ full pending, message = full ++ pending ∧ Hashed full pending ctx

theorem hashedAll_init (ctx : Sha256Ctx) : HashedAll [] (sha256Init ctx) := by
  refine ⟨[], [], rfl, ?_⟩
  exact
    { blocks := Nat.dvd_zero 64
      room := Nat.succ_pos 63
      datalen := rfl
      data := fun i hi => absurd hi (Nat.not_lt_zero i)
      bitlen := rfl
      state := foldBlocks_nil.symm }

/-- A block of 64 bytes that was folded in. -/
theorem foldBlocks_transform {s : Words} {full block : List BYTE} {data : Nat → BYTE}
    (hs : s = foldBlocks compress 64 initial full) (hfull : 64 ∣ full.length)
    (hdata : Holds data block) (hblock : block.length = 64) :
    compress s (blockOf data) = foldBlocks compress 64 initial (full ++ block) := by
  rw [foldBlocks_append (Nat.succ_pos 63) hfull, foldBlocks_block (Nat.succ_pos 63) hblock,
    ← hs, hdata.block hblock]

theorem HashedAll.updateByte {message : List BYTE} {ctx : Sha256Ctx}
    (h : HashedAll message ctx) (b : BYTE) : HashedAll (message ++ [b]) (updateByte ctx b) := by
  obtain ⟨full, pending, rfl, h⟩ := h
  have hpush := h.data.push b
  rw [← h.datalen] at hpush
  simp only [Sha256.updateByte]
  by_cases hfull : ctx.datalen + 1 = 64
  · have hlen : (pending ++ [b]).length = 64 := by
      rw [List.length_append, List.length_singleton, ← h.datalen, hfull]
    rw [if_pos hfull, sha256Transform_eq]
    refine ⟨full ++ (pending ++ [b]), [], by rw [List.append_nil, List.append_assoc], ?_⟩
    exact
      { blocks := by
          rw [List.length_append, hlen]
          exact Nat.dvd_add h.blocks (Nat.dvd_refl 64)
        room := Nat.succ_pos 63
        datalen := rfl
        data := fun i hi => absurd hi (Nat.not_lt_zero i)
        bitlen := by
          rw [List.length_append, hlen, Nat.mul_add, BitVec.ofNat_add, ← h.bitlen]
          rfl
        state := foldBlocks_transform h.state h.blocks hpush hlen }
  · rw [if_neg hfull]
    refine ⟨full, pending ++ [b], by rw [List.append_assoc], ?_⟩
    have hlen : (pending ++ [b]).length = ctx.datalen + 1 := by
      rw [List.length_append, List.length_singleton, ← h.datalen]
    have hroom := h.datalen ▸ h.room
    exact
      { blocks := h.blocks
        room := by omega
        datalen := hlen.symm
        data := hpush
        bitlen := h.bitlen
        state := h.state }

theorem HashedAll.update {message : List BYTE} {ctx : Sha256Ctx}
    (h : HashedAll message ctx) (data : List BYTE) :
    HashedAll (message ++ data) (sha256Update ctx data) := by
  induction data generalizing message ctx with
  | nil =>
    rw [List.append_nil]
    exact h
  | cons b data ih =>
    rw [List.append_cons]
    exact ih (h.updateByte b)

theorem HashedAll.updates {message : List BYTE} {ctx : Sha256Ctx}
    (h : HashedAll message ctx) (chunks : List (List BYTE)) :
    HashedAll (message ++ chunks.flatten) (chunks.foldl sha256Update ctx) := by
  induction chunks generalizing message ctx with
  | nil =>
    rw [List.flatten_nil, List.append_nil]
    exact h
  | cons data chunks ih =>
    rw [List.flatten_cons, ← List.append_assoc]
    exact ih (h.update data)

/-! ## The last block -/

/-- The block with the padding up to the length: `full` has gone through the transform, `last` is
what the block holds. -/
structure Padded (message full last : List BYTE) (ctx : Sha256Ctx) : Prop where
  blocks : 64 ∣ full.length
  length : last.length = 56
  padded : full ++ last =
    message ++ 0x80 :: List.replicate ((119 - message.length % 64) % 64) 0
  data : Holds ctx.data last
  state : ctx.state = foldBlocks compress 64 initial full

section Padding

variable {full pending : List BYTE} {ctx : Sha256Ctx}

theorem Hashed.length_mod (h : Hashed full pending ctx) :
    (full ++ pending).length % 64 = pending.length := by
  obtain ⟨q, hq⟩ := h.blocks
  have hroom := h.room
  rw [List.length_append]
  omega

/-- The one bit and `n` zeros behind the data. -/
theorem Hashed.marked (h : Hashed full pending ctx) (stop n : Nat)
    (hstop : stop = pending.length + 1 + n) :
    Holds (zeroTo (Function.update ctx.data ctx.datalen 0x80) (ctx.datalen + 1) stop)
      (pending ++ 0x80 :: List.replicate n 0) := by
  have hzeros := (h.data.push 0x80).zeros n
  rw [List.length_append, List.length_singleton, ← List.append_cons] at hzeros
  rw [zeroTo, h.datalen, hstop, Nat.add_sub_cancel_left]
  exact hzeros

/-- The length fits in the block. -/
theorem padBlock_short (h : Hashed full pending ctx) (hd : ctx.datalen < 56) :
    Padded (full ++ pending) full (pending ++ 0x80 :: List.replicate (55 - pending.length) 0)
      (padBlock ctx) := by
  have hlen := h.datalen
  rw [padBlock, if_pos hd]
  exact
    { blocks := h.blocks
      length := by
        rw [List.length_append, List.length_cons, List.length_replicate]
        omega
      padded := by
        rw [h.length_mod, List.append_assoc,
          show (119 - pending.length) % 64 = 55 - pending.length by omega]
      data := h.marked 56 (55 - pending.length) (by omega)
      state := h.state }

/-- The length goes to a block of its own. -/
theorem padBlock_long (h : Hashed full pending ctx) (hd : ¬ctx.datalen < 56) :
    Padded (full ++ pending)
      (full ++ (pending ++ 0x80 :: List.replicate (63 - pending.length) 0))
      (List.replicate 56 0) (padBlock ctx) := by
  have hlen := h.datalen
  have hroom := h.room
  have hblock : (pending ++ 0x80 :: List.replicate (63 - pending.length) 0).length = 64 := by
    rw [List.length_append, List.length_cons, List.length_replicate]
    omega
  have hdata := h.marked 64 (63 - pending.length) (by omega)
  rw [padBlock, if_neg hd, sha256Transform_eq]
  exact
    { blocks := by
        rw [List.length_append, hblock]
        exact Nat.dvd_add h.blocks (Nat.dvd_refl 64)
      length := List.length_replicate
      padded := by
        have hsum : (119 - pending.length) % 64 = (63 - pending.length) + 56 := by omega
        rw [h.length_mod, hsum, List.replicate_add]
        simp only [List.append_assoc, List.cons_append]
      data := by
        have hnil : Holds (zeroTo (Function.update ctx.data ctx.datalen 0x80)
            (ctx.datalen + 1) 64) [] := fun i hi => absurd hi (Nat.not_lt_zero i)
        exact hnil.zeros 56
      state := foldBlocks_transform h.state h.blocks hdata hblock }

theorem padBlock_spec (h : Hashed full pending ctx) :
    ∃ full' last, Padded (full ++ pending) full' last (padBlock ctx) := by
  by_cases hd : ctx.datalen < 56
  · exact ⟨_, _, padBlock_short h hd⟩
  · exact ⟨_, _, padBlock_long h hd⟩

theorem padBlock_bitlen (ctx : Sha256Ctx) : (padBlock ctx).bitlen = ctx.bitlen := by
  rw [padBlock, sha256Transform_eq]
  split
  · rfl
  · rfl

end Padding

/-- `byte ((x >>> (24 - i * 8)) &&& 0xff)`. -/
theorem byte_and (x : WORD) (j : Nat) :
    byte ((x >>> j) &&& 0xff) = ⟨x.extractLsb' j 8⟩ := by
  have hmask : (0xff : WORD).setWidth 8 = BitVec.allOnes 8 := rfl
  rw [← byte_shift, byte, byte, BitVec.setWidth_and, hmask, BitVec.and_allOnes]

theorem storeHash_eq (s : Words) (hash : Nat → BYTE) :
    (List.range 32).map ((List.range 4).foldl (storeHash s) hash) =
      s.toList.flatMap (bytesOf 4) := by
  have hstored : (List.range 32).map ((List.range 4).foldl (storeHash s) hash) =
      s.toList.flatMap fun x : WORD =>
        (List.range 4).map fun i => byte ((x >>> (24 - i * 8)) &&& 0xff) := rfl
  rw [hstored]
  simp only [byte_and]
  rfl

theorem final_eq {message : List BYTE} {ctx : Sha256Ctx} (h : HashedAll message ctx)
    (hash : Nat → BYTE) : (List.range 32).map (sha256Final ctx hash).2 = digest message := by
  obtain ⟨full, pending, rfl, h⟩ := h
  obtain ⟨full', last, hpadded⟩ := padBlock_spec h
  have hbits : (padBlock ctx).bitlen + BitVec.ofNat 64 (ctx.datalen * 8) =
      BitVec.ofNat 64 (8 * (full ++ pending).length) := by
    rw [padBlock_bitlen, h.bitlen, h.datalen, ← BitVec.ofNat_add, List.length_append]
    exact congrArg (BitVec.ofNat 64) (by omega)
  simp only [sha256Final, sha256Transform_eq]
  rw [storeHash_eq, digest, padding, ← List.cons_append, ← List.append_assoc, ← hpadded.padded,
    List.append_assoc, hbits]
  refine congrArg (fun s => (Words.toList s).flatMap (bytesOf 4)) ?_
  refine foldBlocks_transform hpadded.state hpadded.blocks
    (holds_storeLength hpadded.data hpadded.length) ?_
  rw [List.length_append, hpadded.length, bytesOf_length]

/-- However the message is cut, the 32 bytes are its digest. -/
theorem sha256_eq_digest (ctx : Sha256Ctx) (chunks : List (List BYTE)) :
    sha256 ctx chunks = digest chunks.flatten :=
  final_eq ((hashedAll_init ctx).updates chunks) _

end PrplHypervisor.Sha256
