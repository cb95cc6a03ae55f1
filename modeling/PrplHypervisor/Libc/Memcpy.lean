import PrplHypervisor.Drivers.Mapping
import PrplHypervisor.Lib.Cells
import PrplHypervisor.Lib.While

/-!
# The loops of `memcpy` (sys/lib/libc.c)

`memcpy` moves words where both addresses and the length are multiples of four, and bytes
otherwise. Both loops test `(int)bytes-- > 0`.

- `Moved`: what one round does, for either loop. `Copied` is kept by it.
- `memcpy_spec`: `memcpy` moves `memcpyBytes` bytes, for every length.
- `memcpy_copies`: these are all the bytes where the ranges neither meet nor wrap around, and
  both loops move the same. A length of 2 GB or more leaves room for two such ranges on word
  boundaries only.
-/

namespace PrplHypervisor.SysLibc

open While Word32

/-- The variables of a loop. -/
structure CopyState where
  dst : BitVec 32
  src : BitVec 32
  bytes : BitVec 32
  mem : Nat → UInt8

/-- `(int)bytes > 0`; the decrement is made by the rounds. -/
def CopyState.more (s : CopyState) : Bool := (0 : BitVec 32).slt s.bytes

/-- `*Dst++ = *Src++` -/
def CopyState.moveByte (s : CopyState) : CopyState where
  dst := s.dst + 1
  src := s.src + 1
  bytes := s.bytes - 1
  mem := Function.update s.mem s.dst.toNat (s.mem s.src.toNat)

/-- `*Dst32++ = *Src32++` -/
def CopyState.moveWord (s : CopyState) : CopyState where
  dst := s.dst + 4
  src := s.src + 4
  bytes := s.bytes - 1
  mem := storeWord s.mem s.dst.toNat (wordAt s.mem s.src.toNat)

/-- `((unsigned int)dst | (unsigned int)src | bytes) & 3` -/
def ByBytes (dst src bytes : BitVec 32) : Prop := (dst ||| src ||| bytes) &&& 3 ≠ 0

instance (dst src bytes : BitVec 32) : Decidable (ByBytes dst src bytes) :=
  inferInstanceAs (Decidable (_ ≠ _))

/-- `memcpy`, cut off after so many rounds: the memory and the pointer it returns. -/
def memcpy (rounds : Nat) (mem : Nat → UInt8) (dst src bytes : BitVec 32) :
    Option ((Nat → UInt8) × BitVec 32) :=
  if ByBytes dst src bytes then
    (whileLoop CopyState.more CopyState.moveByte rounds ⟨dst, src, bytes, mem⟩).map
      fun s => (s.mem, dst)
  else
    (whileLoop CopyState.more CopyState.moveWord rounds ⟨dst, src, bytes >>> 2, mem⟩).map
      fun s => (s.mem, dst)

/-! ## Rounds -/

/-- What a round does that moves `w` bytes. -/
structure Moved (w : Nat) (s s' : CopyState) : Prop where
  dst : s'.dst = s.dst + BitVec.ofNat 32 w
  src : s'.src = s.src + BitVec.ofNat 32 w
  bytes : s'.bytes = s.bytes - 1
  mem : ∀ x, s'.mem x = if s.dst.toNat ≤ x ∧ x < s.dst.toNat + w then
    s.mem (s.src.toNat + (x - s.dst.toNat)) else s.mem x

theorem moveByte_moved (s : CopyState) : Moved 1 s s.moveByte := by
  refine ⟨rfl, rfl, rfl, fun x => ?_⟩
  show Function.update s.mem s.dst.toNat (s.mem s.src.toNat) x = _
  by_cases hx : x = s.dst.toNat
  · rw [if_pos ⟨by omega, by omega⟩, hx, Function.update_self, Nat.sub_self, Nat.add_zero]
  · rw [if_neg (by omega), Function.update_of_ne hx]

theorem moveWord_moved (s : CopyState) : Moved 4 s s.moveWord := by
  refine ⟨rfl, rfl, rfl, fun x => ?_⟩
  show storeWord s.mem s.dst.toNat (wordAt s.mem s.src.toNat) x = _
  rw [storeWord]
  split
  case isTrue hx => exact byteOfWord_wordAt s.mem s.src.toNat (by omega)
  case isFalse => rfl

/-- `k` rounds of `w` bytes have been made, of `count` to make. -/
structure Copied (w : Nat) (mem : Nat → UInt8) (dst src count : BitVec 32) (k : Nat)
    (s : CopyState) : Prop where
  dst_eq : s.dst = dst + BitVec.ofNat 32 (w * k)
  src_eq : s.src = src + BitVec.ofNat 32 (w * k)
  bytes_eq : s.bytes = count - BitVec.ofNat 32 k
  copied : ∀ i < w * k, s.mem (dst.toNat + i) = mem (src.toNat + i)
  outside : ∀ x, x < dst.toNat ∨ dst.toNat + w * k ≤ x → s.mem x = mem x

section Rounds

variable {w k n : Nat} {mem : Nat → UInt8} {dst src count : BitVec 32} {s s' : CopyState}

theorem Copied.start : Copied w mem dst src count 0 ⟨dst, src, count, mem⟩ := by
  refine ⟨?_, ?_, ?_, fun i hi => ?_, fun _ _ => rfl⟩
  · exact (BitVec.add_zero dst).symm
  · exact (BitVec.add_zero src).symm
  · exact (BitVec.sub_zero count).symm
  · exact absurd hi (Nat.not_lt_zero i)

/-- `n` bytes from `a` and from `b` on neither meet nor wrap around. -/
def Apart (n a b : Nat) : Prop := a + n ≤ 2 ^ 32 ∧ b + n ≤ 2 ^ 32 ∧ (a + n ≤ b ∨ b + n ≤ a)

instance (n a b : Nat) : Decidable (Apart n a b) :=
  inferInstanceAs (Decidable (_ ∧ _))

theorem toNat_add_ofNat {a : BitVec 32} {j : Nat} (h : a.toNat + j < 2 ^ 32) :
    (a + BitVec.ofNat 32 j).toNat = a.toNat + j := by
  have hj : j % 2 ^ 32 = j := Nat.mod_eq_of_lt (by omega)
  rw [BitVec.toNat_add, BitVec.toNat_ofNat, hj, Nat.mod_eq_of_lt h]

/-- One more round. -/
theorem Copied.step (h : Copied w mem dst src count k s) (hm : Moved w s s')
    (hapart : Apart (w * n) dst.toNat src.toNat) (hk : k < n) (hw : 0 < w) :
    Copied w mem dst src count (k + 1) s' := by
  obtain ⟨hdstLe, hsrcLe, hmeet⟩ := hapart
  have hle : w * (k + 1) ≤ w * n := Nat.mul_le_mul_left w hk
  have hsucc : w * (k + 1) = w * k + w := Nat.mul_succ w k
  have hdst : s.dst.toNat = dst.toNat + w * k := by
    rw [h.dst_eq, toNat_add_ofNat (by omega)]
  have hsrc : s.src.toNat = src.toNat + w * k := by
    rw [h.src_eq, toNat_add_ofNat (by omega)]
  refine ⟨?_, ?_, ?_, fun i hi => ?_, fun x hx => ?_⟩
  · rw [hm.dst, h.dst_eq, hsucc, BitVec.ofNat_add, BitVec.add_assoc]
  · rw [hm.src, h.src_eq, hsucc, BitVec.ofNat_add, BitVec.add_assoc]
  · rw [hm.bytes, h.bytes_eq, BitVec.ofNat_add, ← BitVec.sub_sub]
    rfl
  · rw [hm.mem, hdst, hsrc]
    split
    case isTrue hin =>
      -- the source is as it was
      rw [h.outside _ (by omega)]
      congr 1
      omega
    case isFalse hout => exact h.copied i (by omega)
  · rw [hm.mem, hdst, if_neg (by omega)]
    exact h.outside x (by omega)

/-- The test succeeds while there is a signed count. -/
theorem more_eq (s : CopyState) : s.more = decide (0 < signedCount s.bytes.toNat) := by
  have hlt := s.bytes.isLt
  rw [CopyState.more, BitVec.slt_eq_decide, decide_eq_decide, BitVec.toInt_eq_toNat_cond s.bytes,
    signedCount]
  show (0 : Int) < _ ↔ _
  split <;> split <;> omega

/-- What is left of the count. -/
theorem Copied.left (h : Copied w mem dst src count k s) (hk : k ≤ signedCount count.toNat) :
    signedCount s.bytes.toNat = signedCount count.toNat - k := by
  have hlt := count.isLt
  rw [h.bytes_eq]
  unfold signedCount at hk ⊢
  split at hk
  case isTrue hcount =>
    have hmod : (BitVec.ofNat 32 k).toNat = k := by
      rw [BitVec.toNat_ofNat, Nat.mod_eq_of_lt (by omega)]
    have hle : BitVec.ofNat 32 k ≤ count := by
      rw [BitVec.le_def, hmod]
      exact hk
    rw [BitVec.toNat_sub_of_le hle, hmod, if_pos (by omega), if_pos hcount]
  case isFalse hcount =>
    obtain rfl : k = 0 := Nat.le_zero.mp hk
    rw [show count - BitVec.ofNat 32 0 = count from BitVec.sub_zero count, if_neg hcount]

/-- Either loop: it takes as many rounds as the count says, if this is positive as a signed number,
and moves `w` bytes in each. -/
theorem copy_endsAfter (mem : Nat → UInt8) {body : CopyState → CopyState}
    (hbody : ∀ s, Moved w s (body s)) (hw : 0 < w)
    (hapart : Apart (w * signedCount count.toNat) dst.toNat src.toNat) :
    ∃ t, EndsAfter CopyState.more body (signedCount count.toNat) ⟨dst, src, count, mem⟩ t ∧
      Copied w mem dst src count (signedCount count.toNat) t := by
  refine endsAfter_of_inv (Copied w mem dst src count) (k := 0) ?_ ?_ .start
  · intro j hj s hs
    have hleft := hs.left (Nat.le_of_lt hj)
    refine ⟨?_, hs.step (hbody s) hapart hj hw⟩
    rw [more_eq, hleft, decide_eq_true_eq]
    omega
  · intro s hs
    rw [more_eq, hs.left (Nat.le_refl _), Nat.add_zero, Nat.sub_self]
    rfl

end Rounds

/-! ## `memcpy` -/

section Memcpy

variable {mem : Nat → UInt8} {dst src bytes : BitVec 32}

/-- The rounds it takes to move so many bytes. -/
def rounds (dst src bytes : BitVec 32) (n : Nat) : Nat := if ByBytes dst src bytes then n else n / 4

/-- `memcpy` ends after exactly the rounds for `n` bytes, with these moved, and the others are as
they were. -/
def Copies (mem : Nat → UInt8) (dst src bytes : BitVec 32) (n : Nat) : Prop :=
  ∃ mem', memcpy (rounds dst src bytes n) mem dst src bytes = some (mem', dst) ∧
    (∀ k < rounds dst src bytes n, memcpy k mem dst src bytes = none) ∧
    (∀ i < n, mem' (dst.toNat + i) = mem (src.toNat + i)) ∧
    ∀ x, x < dst.toNat ∨ dst.toNat + n ≤ x → mem' x = mem x

theorem byBytes_iff :
    ByBytes dst src bytes ↔ (dst.toNat ||| src.toNat ||| bytes.toNat) &&& 3 ≠ 0 := by
  rw [ByBytes, ne_eq, ne_eq, ← BitVec.toNat_inj]
  rfl

theorem memcpyBytes_eq : memcpyBytes dst.toNat src.toNat bytes.toNat =
    if ByBytes dst src bytes then signedCount bytes.toNat
    else 4 * signedCount (bytes >>> 2).toNat := by
  simp only [memcpyBytes, byBytes_iff]
  rfl

/-- For every length `memcpy` moves `memcpyBytes` bytes. -/
theorem memcpy_spec (mem : Nat → UInt8)
    (hapart : Apart (memcpyBytes dst.toNat src.toNat bytes.toNat) dst.toNat src.toNat) :
    Copies mem dst src bytes (memcpyBytes dst.toNat src.toNat bytes.toNat) := by
  rw [memcpyBytes_eq] at hapart ⊢
  by_cases hby : ByBytes dst src bytes
  · rw [if_pos hby] at hapart ⊢
    obtain ⟨t, ⟨hend, hrun⟩, ht⟩ := copy_endsAfter mem moveByte_moved (by decide)
      (by rwa [Nat.one_mul])
    rw [Copies, rounds, if_pos hby]
    refine ⟨t.mem, ?_, fun k hk => ?_, fun i hi => ?_, fun x hx => ?_⟩
    · rw [memcpy, if_pos hby, hend]
      rfl
    · rw [memcpy, if_pos hby, hrun k hk]
      rfl
    · exact ht.copied i (by rwa [Nat.one_mul])
    · exact ht.outside x (by rwa [Nat.one_mul])
  · rw [if_neg hby] at hapart ⊢
    obtain ⟨t, ⟨hend, hrun⟩, ht⟩ := copy_endsAfter mem moveWord_moved (by decide) hapart
    have hrounds : 4 * signedCount (bytes >>> 2).toNat / 4 = signedCount (bytes >>> 2).toNat :=
      Nat.mul_div_cancel_left _ (by decide)
    rw [Copies, rounds, if_neg hby, hrounds]
    refine ⟨t.mem, ?_, fun k hk => ?_, ht.copied, ht.outside⟩
    · rw [memcpy, if_neg hby, hend]
      rfl
    · rw [memcpy, if_neg hby, hrun k hk]
      rfl

/-- Two ranges of 2 GB that are apart are the halves of the address space. -/
theorem Apart.halves {n a b : Nat} (h : Apart n a b) (hn : 0x80000000 ≤ n) :
    n = 0x80000000 ∧ (a = 0 ∧ b = 0x80000000 ∨ a = 0x80000000 ∧ b = 0) := by
  obtain ⟨ha, hb, hmeet⟩ := h
  omega

/-- Between ranges that are apart `memcpy` moves every byte. -/
theorem Apart.memcpyBytes {n a b : Nat} (h : Apart n a b) : memcpyBytes a b n = n := by
  by_cases hn : n < 0x80000000
  · exact memcpyBytes_of_lt hn a b
  · -- the halves start on word boundaries, and a quarter of the length is no negative number
    obtain ⟨rfl, ⟨rfl, rfl⟩ | ⟨rfl, rfl⟩⟩ := h.halves (Nat.le_of_not_lt hn)
    · decide
    · decide

/-- Between ranges that are apart `memcpy` moves them all. -/
theorem Apart.copies (mem : Nat → UInt8) (hapart : Apart bytes.toNat dst.toNat src.toNat) :
    Copies mem dst src bytes bytes.toNat := by
  have hall := hapart.memcpyBytes
  have hmoved := hapart
  rw [← hall] at hmoved
  have hspec := memcpy_spec mem hmoved
  rwa [hall] at hspec

/-- Where words are moved, moving bytes would leave the same memory. -/
theorem loops_agree (mem : Nat → UInt8) (hapart : Apart bytes.toNat dst.toNat src.toNat)
    (hbytes : bytes.toNat < 0x80000000) (hwords : ¬ ByBytes dst src bytes) :
    ∃ t, EndsAfter CopyState.more CopyState.moveByte bytes.toNat ⟨dst, src, bytes, mem⟩ t ∧
      memcpy (bytes.toNat / 4) mem dst src bytes = some (t.mem, dst) := by
  have hcount : signedCount bytes.toNat = bytes.toNat := if_pos hbytes
  obtain ⟨t, hend, ht⟩ := copy_endsAfter mem moveByte_moved (by decide)
    (by rwa [Nat.one_mul, hcount])
  rw [hcount] at hend ht
  refine ⟨t, hend, ?_⟩
  obtain ⟨mem', hmem', -, hcopied, houtside⟩ := hapart.copies mem
  rw [rounds, if_neg hwords] at hmem'
  suffices hsame : mem' = t.mem by rw [hmem', hsame]
  funext x
  by_cases hx : dst.toNat ≤ x ∧ x < dst.toNat + bytes.toNat
  · obtain ⟨i, rfl⟩ := Nat.exists_eq_add_of_le hx.1
    rw [hcopied i (by omega), ht.copied i (by omega)]
  · rw [houtside x (by omega), ht.outside x (by omega)]

/-- `memcpy` moves ranges of any length that neither meet nor wrap around, by words or by bytes, in
the rounds that this takes. Where it moves words and the byte loop could count the length, that
loop would leave the same memory. -/
theorem memcpy_copies (mem : Nat → UInt8) {dst src bytes : BitVec 32}
    (hapart : Apart bytes.toNat dst.toNat src.toNat) :
    Copies mem dst src bytes bytes.toNat ∧
      (¬ ByBytes dst src bytes → bytes.toNat < 0x80000000 →
        ∃ t, EndsAfter CopyState.more CopyState.moveByte bytes.toNat ⟨dst, src, bytes, mem⟩ t ∧
          memcpy (bytes.toNat / 4) mem dst src bytes = some (t.mem, dst)) :=
  ⟨hapart.copies mem, fun hwords hbytes => loops_agree mem hapart hbytes hwords⟩

theorem memcpy_copies_halves :
    Copies (fun x => x.toUInt8) 0 0x80000000 0x80000000 (0x80000000 : BitVec 32).toNat ∧
      ∃ t, EndsAfter CopyState.more CopyState.moveByte 8
          ⟨0x80001000, 0x80002000, 8, fun x => x.toUInt8⟩ t ∧
        memcpy 2 (fun x => x.toUInt8) 0x80001000 0x80002000 8 = some (t.mem, 0x80001000) := by
  have hapart : Apart (8 : BitVec 32).toNat (0x80001000 : BitVec 32).toNat
      (0x80002000 : BitVec 32).toNat := by
    decide
  exact ⟨(memcpy_copies _ (by decide)).1,
    (memcpy_copies (fun x => x.toUInt8) hapart).2 (by decide) (by decide)⟩

end Memcpy

end PrplHypervisor.SysLibc
