import PrplHypervisor.Cryptography.Vli

/-!
# Bytes of numbers (cryptography/uECC.c)

Keys, signatures and hashes are arrays of bytes with the highest first; the words of a number
have the lowest first. `w / 8` is `uECC_WORD_SIZE`.

- `bytesToNative_value`: the words have the value of the bytes.
- `bigEndian_nativeToBytes`: the bytes have the value of the words, as far as they reach.
-/

namespace PrplHypervisor.UEcc

open Limbs

variable {w : Nat}

/-- The number of bytes with the highest first. -/
def bigEndian (bytes : List UInt8) : Nat := value (bytes.reverse.map UInt8.toBitVec)

/-- The loop of `uECC_vli_nativeToBytes`, for the last `numBytes` of the bytes. -/
def nativeToBytes : Nat → Vli w → List UInt8
  | 0, _ => []
  | b + 1, native =>
    let byte := native.getD (b / (w / 8)) 0 >>> (8 * (b % (w / 8)))
    UInt8.ofBitVec (byte.setWidth 8) :: nativeToBytes b native

/-- The loop of `uECC_vli_bytesToNative`; `b` counts the bytes behind this one. -/
def orBytes : List UInt8 → Vli w → Vli w
  | [], native => native
  | byte :: bytes, native =>
    let b := bytes.length
    let word := native.getD (b / (w / 8)) 0
    orBytes bytes
      (native.set (b / (w / 8)) (word ||| byte.toBitVec.setWidth w <<< (8 * (b % (w / 8)))))

/-- `uECC_vli_bytesToNative`; words the bytes do not reach stay. -/
def bytesToNative (native : Vli w) (bytes : List UInt8) : Vli w :=
  let used := (bytes.length + (w / 8 - 1)) / (w / 8)
  orBytes bytes (vliClear w used ++ (native.drop used))

/-! ## Values -/

@[simp]
theorem bigEndian_nil : bigEndian [] = 0 := rfl

theorem bigEndian_cons (byte : UInt8) (bytes : List UInt8) :
    bigEndian (byte :: bytes) = 256 ^ bytes.length * byte.toNat + bigEndian bytes := by
  rw [bigEndian, List.reverse_cons, List.map_append, value_append, List.length_map,
    List.length_reverse, Nat.pow_mul, Nat.add_comm]
  exact congrArg (256 ^ bytes.length * · + _) (value_singleton byte.toBitVec)

/-- Bytes of one length are determined by their number. -/
theorem bigEndian_inj {xs ys : List UInt8} (hlen : xs.length = ys.length)
    (h : bigEndian xs = bigEndian ys) : xs = ys := by
  have hmap := value_inj (by simpa only [List.length_map, List.length_reverse] using hlen) h
  have hinj : Function.Injective UInt8.toBitVec := fun _ _ h => UInt8.toBitVec_inj.mp h
  exact List.reverse_injective (List.map_injective_iff.mpr hinj hmap)

section Positions

variable {xs : Vli w} {b : Nat}

/-- Byte `b` in its word. -/
theorem byte_position (hw : 8 ∣ w) (hpos : 0 < w) (b : Nat) :
    256 ^ b = 2 ^ (w * (b / (w / 8))) * 2 ^ (8 * (b % (w / 8))) ∧
      8 * (b % (w / 8)) + 8 ≤ w := by
  obtain ⟨size, rfl⟩ := hw
  have hsize : 0 < size := Nat.pos_of_mul_pos_left hpos
  rw [Nat.mul_div_cancel_left size (by decide)]
  have hmod := Nat.mod_lt b hsize
  refine ⟨?_, by omega⟩
  rw [← Nat.pow_add, Nat.mul_assoc, ← Nat.mul_add, Nat.div_add_mod, Nat.pow_mul]

theorem drop_word {j : Nat} (hj : j < xs.length) :
    value xs / 2 ^ (w * j) = xs[j].toNat + 2 ^ w * value (xs.drop (j + 1)) := by
  rw [← value_drop_div xs (Nat.le_of_lt hj), List.drop_eq_getElem_cons hj, value_cons]

theorem getByte_value (hw : 8 ∣ w) (hpos : 0 < w) (hb : b < w / 8 * xs.length) :
    (UInt8.ofBitVec ((xs.getD (b / (w / 8)) 0 >>> (8 * (b % (w / 8)))).setWidth 8)).toNat =
      value xs / 256 ^ b % 256 := by
  obtain ⟨hposition, hfits⟩ := byte_position hw hpos b
  have hj : b / (w / 8) < xs.length := Nat.div_lt_of_lt_mul hb
  obtain ⟨k, hk⟩ : ∃ k, w = 8 * (b % (w / 8)) + 8 + k := ⟨w - (8 * (b % (w / 8)) + 8), by omega⟩
  have hpow : 2 ^ w = 2 ^ (8 * (b % (w / 8))) * (256 * 2 ^ k) := by
    refine (congrArg (2 ^ ·) hk).trans ?_
    rw [Nat.pow_add, Nat.pow_add, Nat.mul_assoc]
  rw [UInt8.toNat_ofBitVec, BitVec.toNat_setWidth, BitVec.toNat_ushiftRight,
    List.getD_eq_getElem _ _ hj, Nat.shiftRight_eq_div_pow, hposition, ← Nat.div_div_eq_div_mul,
    drop_word hj, hpow, Nat.mul_assoc, Nat.add_mul_div_left _ _ (Nat.two_pow_pos _), Nat.mul_assoc,
    Nat.add_mul_mod_self_left]

/-- A byte that is set below everything there is. -/
theorem orByte_value (hw : 8 ∣ w) (hpos : 0 < w) (hb : b < w / 8 * xs.length)
    (hdvd : 256 ^ (b + 1) ∣ value xs) (byte : UInt8) :
    value (xs.set (b / (w / 8)) (xs.getD (b / (w / 8)) 0 |||
      byte.toBitVec.setWidth w <<< (8 * (b % (w / 8))))) = value xs + 256 ^ b * byte.toNat := by
  obtain ⟨hposition, hfits⟩ := byte_position hw hpos b
  have hj : b / (w / 8) < xs.length := Nat.div_lt_of_lt_mul hb
  generalize b / (w / 8) = j at *
  generalize 8 * (b % (w / 8)) = s at *
  -- the lower bits of the word are free
  have hfree : 2 ^ (s + 8) ∣ xs[j].toNat := by
    have hdrop : 2 ^ (s + 8) ∣ value xs / 2 ^ (w * j) := by
      refine Nat.dvd_div_of_mul_dvd ?_
      rw [Nat.pow_succ, hposition] at hdvd
      rw [Nat.pow_add, ← Nat.mul_assoc]
      exact hdvd
    rw [drop_word hj] at hdrop
    exact (Nat.dvd_add_left ((Nat.pow_dvd_pow 2 hfits).mul_right _)).mp hdrop
  have hbyte := byte.toNat_lt
  have hlow : byte.toNat * 2 ^ s < 2 ^ (s + 8) := by
    rw [Nat.pow_add, Nat.mul_comm]
    exact Nat.mul_lt_mul_of_pos_left hbyte (Nat.two_pow_pos s)
  have hword : 2 ^ (s + 8) ≤ 2 ^ w := Nat.pow_le_pow_right Nat.two_pos hfits
  have hshift : (byte.toBitVec.setWidth w <<< s).toNat = byte.toNat * 2 ^ s := by
    rw [BitVec.toNat_shiftLeft, BitVec.toNat_setWidth_of_le (by omega), Nat.shiftLeft_eq,
      UInt8.toNat_toBitVec, Nat.mod_eq_of_lt (by omega)]
  have hor : (xs.getD j 0 ||| byte.toBitVec.setWidth w <<< s).toNat =
      xs[j].toNat + byte.toNat * 2 ^ s := by
    obtain ⟨m, hm⟩ := hfree
    rw [BitVec.toNat_or, List.getD_eq_getElem _ _ hj, hshift, hm,
      ← Nat.two_pow_add_eq_or_of_lt hlow]
  have hset := value_set xs hj (xs.getD j 0 ||| byte.toBitVec.setWidth w <<< s)
  rw [hor] at hset
  rw [hposition]
  linear_combination hset

theorem orBytes_spec (hw : 8 ∣ w) (hpos : 0 < w) {bytes : List UInt8} {native : Vli w}
    (hb : bytes.length ≤ w / 8 * native.length) (hdvd : 256 ^ bytes.length ∣ value native) :
    (orBytes bytes native).length = native.length ∧
      value (orBytes bytes native) = value native + bigEndian bytes := by
  induction bytes generalizing native with
  | nil => exact ⟨rfl, rfl⟩
  | cons byte bytes ih =>
    rw [List.length_cons] at hb hdvd
    have hvalue := orByte_value hw hpos hb hdvd byte
    have hnext : 256 ^ bytes.length ∣ value native + 256 ^ bytes.length * byte.toNat :=
      ((Nat.pow_dvd_pow 256 (Nat.le_succ _)).trans hdvd).add (Nat.dvd_mul_right _ _)
    rw [← hvalue] at hnext
    obtain ⟨hlength, hrest⟩ := ih (by rw [List.length_set]; omega) hnext
    rw [List.length_set] at hlength
    rw [hvalue] at hrest
    rw [bigEndian_cons]
    exact ⟨hlength, by rw [orBytes, hrest, Nat.add_assoc]⟩

end Positions

section Conversions

variable {native : Vli w} {bytes : List UInt8}

theorem nativeToBytes_length (numBytes : Nat) (native : Vli w) :
    (nativeToBytes numBytes native).length = numBytes := by
  induction numBytes with
  | zero => rfl
  | succ b ih => rw [nativeToBytes, List.length_cons, ih]

theorem bigEndian_nativeToBytes (hw : 8 ∣ w) (hpos : 0 < w) {numBytes : Nat}
    (hb : numBytes ≤ w / 8 * native.length) :
    bigEndian (nativeToBytes numBytes native) = value native % 256 ^ numBytes := by
  induction numBytes with
  | zero => rw [Nat.pow_zero, Nat.mod_one, nativeToBytes, bigEndian_nil]
  | succ b ih =>
    rw [nativeToBytes, bigEndian_cons, nativeToBytes_length, ih (Nat.le_of_succ_le hb),
      getByte_value hw hpos hb, Nat.pow_succ, Nat.mod_mul, Nat.add_comm]

/-- The words a call overwrites, as many as the bytes need. -/
theorem bytesToNative_spec (hw : 8 ∣ w) (hpos : 0 < w)
    (hb : bytes.length ≤ w / 8 * native.length) :
    (bytesToNative native bytes).length = native.length ∧
      value (bytesToNative native bytes) = bigEndian bytes +
        2 ^ (w * ((bytes.length + (w / 8 - 1)) / (w / 8))) *
          value (native.drop ((bytes.length + (w / 8 - 1)) / (w / 8))) := by
  have hsize : 0 < w / 8 := Nat.div_pos (Nat.le_of_dvd hpos hw) (by decide)
  have hfull : w = 8 * (w / 8) := (Nat.mul_div_cancel' hw).symm
  generalize hused : (bytes.length + (w / 8 - 1)) / (w / 8) = used
  have hreach : bytes.length ≤ w / 8 * used := by
    have hdiv := Nat.div_add_mod (bytes.length + (w / 8 - 1)) (w / 8)
    have hmod := Nat.mod_lt (bytes.length + (w / 8 - 1)) hsize
    rw [hused] at hdiv
    omega
  have hle : used ≤ native.length := by
    rw [← hused, Nat.div_le_iff_le_mul_add_pred hsize]
    omega
  have hlength : (vliClear w used ++ (native.drop used)).length = native.length := by
    rw [List.length_append, vliClear, List.length_replicate, List.length_drop]
    omega
  have hclear : value (vliClear w used ++ (native.drop used)) =
      2 ^ (w * used) * value (native.drop used) := by
    rw [value_append, vliClear, value_replicate_zero, List.length_replicate, Nat.zero_add]
  have hdvd : 256 ^ bytes.length ∣ value (vliClear w used ++ (native.drop used)) := by
    rw [hclear]
    refine Dvd.dvd.mul_right ?_ _
    rw [show 256 = 2 ^ 8 from rfl, ← Nat.pow_mul]
    refine Nat.pow_dvd_pow 2 ?_
    conv_rhs => rw [hfull]
    rw [Nat.mul_assoc]
    exact Nat.mul_le_mul_left 8 hreach
  obtain ⟨horLength, horValue⟩ := orBytes_spec hw hpos (hlength ▸ hb) hdvd
  rw [hclear, Nat.add_comm] at horValue
  simp only [bytesToNative, hused]
  exact ⟨horLength.trans hlength, horValue⟩

/-- The bytes fill the lower words of a cleared number. -/
theorem bytesToNative_clear (hw : 8 ∣ w) (hpos : 0 < w) {numWords : Nat}
    (hb : bytes.length ≤ w / 8 * numWords) :
    (bytesToNative (vliClear w numWords) bytes).length = numWords ∧
      value (bytesToNative (vliClear w numWords) bytes) = bigEndian bytes := by
  have hlength : (vliClear w numWords).length = numWords := List.length_replicate
  rw [← hlength] at hb
  obtain ⟨hlen, hvalue⟩ := bytesToNative_spec hw hpos hb
  refine ⟨hlen.trans hlength, ?_⟩
  rw [hvalue, vliClear, List.drop_replicate, value_replicate_zero, Nat.mul_zero, Nat.add_zero]

end Conversions

end PrplHypervisor.UEcc
