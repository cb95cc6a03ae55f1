import PrplHypervisor.Cryptography.Ecdsa
import PrplHypervisor.Cryptography.KeyGeneration

/-!
# Signing (cryptography/app/micro_ecc_host/uECC.c)

The random numbers come from a generator the host sets; `Rng` is what it will answer. `r` is
stored as the ladder leaves it and `s` is not compared with zero, so that a signature can be one
that no verifier accepts.

- `Signature`: the equations a signature satisfies; `sign_spec`: every signature does.
- `Signature.accepts_iff`: the verifier's equation, and the signatures that fail it.
-/

namespace PrplHypervisor.UEcc

open Limbs Ledger

variable {w : Nat}

/-- What one call of the random number generator leaves in `random`. -/
abbrev Draw (c : Curve w) : Type := { random : Vli w // random.length = c.numWords }

/-- `g_rng_function`: the answers that are left, or the null pointer. An answer is a draw or a
failure, and the calls behind the last answer fail. -/
abbrev Rng (c : Curve w) : Type := Option (List (Option (Draw c)))

/-- `uECC_RNG_MAX_TRIES`. -/
def rngMaxTries : Nat := 64

/-- The bits of the last word that `top` does not have are cleared. -/
def maskTop (numBits : Nat) (random : Vli w) : Vli w :=
  let last := random.length - 1
  random.set last (random.getD last 0 &&& (BitVec.allOnes w >>> (random.length * w - numBits)))

/-- The loop of `uECC_generate_random_int`. -/
def randomLoop (c : Curve w) (top : Vli w) :
    Nat → List (Option (Draw c)) → Option (Vli w) × List (Option (Draw c))
  | 0, draws => (none, draws)
  | _ + 1, [] => (none, [])
  | _ + 1, none :: draws => (none, draws)
  | tries + 1, some draw :: draws =>
    let random := maskTop (vliNumBits top) draw.val
    if !vliIsZero random && vliCmp top random == 1 then (some random, draws)
    else randomLoop c top tries draws

/-- `uECC_generate_random_int`. -/
def generateRandomInt (c : Curve w) (top : Vli w) : Rng c → Option (Vli w) × Rng c
  | none => (none, none)
  | some draws =>
    let random := randomLoop c top rngMaxTries draws
    (random.1, some random.2)

/-- The number `k` is multiplied by before it is inverted. -/
def blinding (c : Curve w) : Rng c → Option (Vli w) × Rng c
  | none => (some ((vliClear w c.numWords).set 0 1), none)
  | some draws => generateRandomInt c c.n (some draws)

/-- The signature of `uECC_sign_with_k`, behind the draws. -/
def signatureWith (c : Curve w) (privateKey messageHash : List UInt8) (k tmp x : Vli w) :
    Option (List UInt8) :=
  let k := vliModMult k tmp c.n
  let k := vliModInv k c.n
  let k := vliModMult k tmp c.n
  let d := bytesToNative (vliClear w c.numWords) (privateKey.take ((c.numNBits + 7) / 8))
  let s := vliModMult d x c.n
  let s := vliModAdd (bits2int c messageHash) s c.n
  let s := vliModMult s k c.n
  if vliNumBits s > c.numBytes * 8 then none
  else some (nativeToBytes c.numBytes x ++ nativeToBytes c.numBytes s)

/-- `uECC_sign_with_k`: the signature, or the return value 0. -/
def signWithK (c : Curve w) (privateKey messageHash : List UInt8) (k : Vli w) (rng : Rng c) :
    Run (Option (List UInt8) × Rng c) := do
  if vliIsZero k || vliCmp c.n k != 1 then return (none, rng)
  let p ← eccPointMult c c.base (regularScalar c k) none (c.numNBits + 1)
  if vliIsZero p.x then return (none, rng)
  let tmp := blinding c rng
  return (tmp.1.bind fun tmp => signatureWith c privateKey messageHash k tmp p.x, tmp.2)

/-- The loop of `uECC_sign`. -/
def signLoop (c : Curve w) (privateKey messageHash : List UInt8) :
    Nat → Rng c → Run (Option (List UInt8))
  | 0, _ => return none
  | tries + 1, rng =>
    let random := generateRandomInt c c.n rng
    match random.1 with
    | none => return none
    | some k => do
      let result ← signWithK c privateKey messageHash k random.2
      match result.1 with
      | some signature => return some signature
      | none => signLoop c privateKey messageHash tries result.2

/-- `uECC_sign`. -/
def sign (c : Curve w) (privateKey messageHash : List UInt8) (rng : Rng c) :
    Run (Option (List UInt8)) :=
  signLoop c privateKey messageHash rngMaxTries rng

/-- The loop of `uECC_make_key`: the public and the private key. -/
def makeKeyLoop (c : Curve w) : Nat → Rng c → Run (Option (List UInt8 × List UInt8))
  | 0, _ => return none
  | tries + 1, rng =>
    let random := generateRandomInt c c.n rng
    match random.1 with
    | none => return none
    | some priv => do
      let pub ← eccPointComputePublicKey c priv
      match pub with
      | some pub => return some (pointToBytes c pub, nativeToBytes c.numBytes priv)
      | none => makeKeyLoop c tries random.2

/-- `uECC_make_key`. -/
def makeKey (c : Curve w) (rng : Rng c) : Run (Option (List UInt8 × List UInt8)) :=
  makeKeyLoop c rngMaxTries rng

/-! ## The equations -/

/-- `r` and `s` for the hash `e` and the private key `d`, from some factor `k`. -/
structure Signature (d e r s : Nat) : Prop where
  point : ∃ k, Usable k ∧ (∃ X Y h, k • basePoint = .some X Y h ∧ X.val = r ∧ 0 < r) ∧
    s = quotient (e + r * d) k

section Equations

variable {d e r s : Nat}

theorem cast_ne_zero {a : Nat} (hpos : 0 < a) (hlt : a < groupOrder) :
    (a : ZMod groupOrder) ≠ 0 := by
  rw [Ne, ZMod.natCast_eq_zero_iff]
  exact Nat.not_dvd_of_pos_of_lt hpos hlt

/-- The verifier's equation holds unless `r` is not reduced or `s` is zero. -/
theorem Signature.accepts_iff (h : Signature d e r s) :
    Accepts (d • basePoint) e r s ↔ r < groupOrder ∧ 0 < s := by
  constructor
  · rintro ⟨⟨⟨-, hr⟩, hs, -⟩, -⟩
    exact ⟨hr, hs⟩
  rintro ⟨hr, hs⟩
  obtain ⟨k, ⟨hkpos, hklt, -⟩, ⟨X, Y, hXY, hpoint, hX, hrpos⟩, hsvalue⟩ := h.point
  have hslt : s < groupOrder := hsvalue ▸ ZMod.val_lt _
  have hk := cast_ne_zero hkpos hklt
  have hs0 := cast_ne_zero hs hslt
  have hscast : (s : ZMod groupOrder) = (e + r * d) / k := by
    rw [hsvalue, quotient, ZMod.natCast_val, ZMod.cast_id]
    push_cast
    rfl
  -- both multiples together are the factor `k`
  have hsum : quotient e s • basePoint + quotient r s • d • basePoint = k • basePoint := by
    rw [← mul_nsmul', ← add_nsmul, nsmul_base_eq_iff, ← ZMod.natCast_eq_natCast_iff]
    push_cast
    simp only [quotient, ZMod.natCast_val, ZMod.cast_id]
    have hproduct : (k : ZMod groupOrder) * s = e + r * d := by
      rw [hscast, mul_div_cancel₀ _ hk]
    field_simp
    linear_combination -hproduct
  refine ⟨⟨⟨hrpos, hr⟩, hs, hslt⟩, X, Y, hXY, hsum.trans hpoint, ?_⟩
  rw [hX, Nat.mod_eq_of_lt hr]

end Equations

/-! ## The random numbers -/

section Random

variable {c : Curve w} {top random : Vli w}

theorem maskTop_length (numBits : Nat) (random : Vli w) :
    (maskTop numBits random).length = random.length := by
  rw [maskTop, List.length_set]

theorem randomLoop_spec {tries : Nat} {draws : List (Option (Draw c))}
    (htop : top.length = c.numWords) (h : (randomLoop c top tries draws).1 = some random) :
    random.length = c.numWords ∧ 0 < value random ∧ value random < value top := by
  induction tries generalizing draws with
  | zero => cases h
  | succ tries ih =>
    obtain _ | ⟨_ | draw, draws⟩ := draws
    · cases h
    · cases h
    · rw [randomLoop] at h
      split at h
      · rename_i htest
        cases h
        have hlen := (maskTop_length (vliNumBits top) draw.val).trans draw.property
        rw [Bool.and_eq_true, Bool.not_eq_true', beq_iff_eq, vliCmp_eq (htop.trans hlen.symm),
          Int.sign_eq_one_iff_pos, Bool.eq_false_iff, Ne, vliIsZero_iff] at htest
        exact ⟨hlen, Nat.pos_of_ne_zero htest.1, by omega⟩
      · exact ih h

theorem generateRandomInt_spec {rng : Rng c} (htop : top.length = c.numWords)
    (h : (generateRandomInt c top rng).1 = some random) :
    random.length = c.numWords ∧ 0 < value random ∧ value random < value top := by
  cases rng with
  | none => cases h
  | some draws => exact randomLoop_spec htop h

/-- The blinding is a unit modulo the order. -/
theorem blinding_spec (hc : IsSecp256k1 c) {rng : Rng c} (h : (blinding c rng).1 = some random) :
    random.length = c.numWords ∧ 0 < value random ∧ value random < groupOrder := by
  cases rng with
  | none =>
    cases h
    rw [value_one hc.pos.1 hc.pos.2, List.length_set, vliClear, List.length_replicate]
    exact ⟨rfl, Nat.one_pos, groupOrder_prime.one_lt⟩
  | some draws =>
    rw [← hc.nValue]
    exact generateRandomInt_spec hc.nLength h

end Random

/-! ## The signature -/

section Sign

variable {c : Curve w} {privateKey messageHash signature : List UInt8} {k tmp x : Vli w}

theorem modAdd_order (hc : IsSecp256k1 c) {left right : Vli w} (hleft : left.length = c.numWords)
    (hright : right.length = c.numWords) (hlt : value right < groupOrder) :
    (vliModAdd left right c.n).length = c.numWords ∧
      (value (vliModAdd left right c.n) : ZMod groupOrder) = value left + value right := by
  have hlen := hleft.trans hright.symm
  have hmod := hleft.trans hc.nLength.symm
  have hcongr := vliModAdd_modEq hlen hmod (by rw [hc.nValue]; exact hlt)
  rw [hc.nValue, ← ZMod.natCast_eq_natCast_iff, Nat.cast_add] at hcongr
  exact ⟨(vliModAdd_length hlen hmod).trans hleft, hcongr⟩

/-- The blinded inverse. -/
theorem blinded_inverse (hc : IsSecp256k1 c) (hk : k.length = c.numWords) (hkpos : 0 < value k)
    (hklt : value k < groupOrder) (htmp : tmp.length = c.numWords) (htpos : 0 < value tmp)
    (htlt : value tmp < groupOrder) :
    (vliModMult (vliModInv (vliModMult k tmp c.n) c.n) tmp c.n).length = c.numWords ∧
      (value (vliModMult (vliModInv (vliModMult k tmp c.n) c.n) tmp c.n) : ZMod groupOrder) =
        (value k : ZMod groupOrder)⁻¹ := by
  have hk0 := cast_ne_zero hkpos hklt
  have ht0 := cast_ne_zero htpos htlt
  obtain ⟨hlen, hvalue⟩ := modMult_order hc hk htmp
  have hcast : (value (vliModMult k tmp c.n) : ZMod groupOrder) = value k * value tmp := by
    rw [hvalue, ZMod.natCast_mod, Nat.cast_mul]
  have hpos : 0 < value (vliModMult k tmp c.n) := by
    refine Nat.pos_of_ne_zero fun hzero => mul_ne_zero hk0 ht0 ?_
    rw [← hcast, hzero, Nat.cast_zero]
  obtain ⟨hinvlen, hinv⟩ := modInv_order hc hlen hpos (hvalue ▸ Nat.mod_lt _ groupOrder_prime.pos)
  obtain ⟨hlen', hvalue'⟩ := modMult_order hc hinvlen htmp
  refine ⟨hlen', ?_⟩
  rw [hvalue', ZMod.natCast_mod, Nat.cast_mul, hinv, hcast, mul_inv, mul_assoc,
    inv_mul_cancel₀ ht0, mul_one]

/-- The bytes that are stored. -/
theorem signatureWith_spec (privateKey messageHash : List UInt8) (hc : IsSecp256k1 c)
    (hk : k.length = c.numWords)
    (hkpos : 0 < value k) (hklt : value k < groupOrder) (htmp : tmp.length = c.numWords)
    (htpos : 0 < value tmp) (htlt : value tmp < groupOrder) (hx : x.length = c.numWords) :
    ∃ signature, signatureWith c privateKey messageHash k tmp x = some signature ∧
      signature.length = 64 ∧ signatureR signature = value x ∧
      signatureS signature =
        quotient (hashNumber messageHash + value x * privateNumber privateKey) (value k) := by
  obtain ⟨hinvlen, hinv⟩ := blinded_inverse hc hk hkpos hklt htmp htpos htlt
  obtain ⟨hdlen, hdvalue⟩ := bytesToNative_number hc (List.length_take_le 32 privateKey)
  obtain ⟨helen, hevalue⟩ := bits2int_spec hc messageHash
  simp only [signatureWith, hc.numNBits, show (256 + 7) / 8 = 32 from rfl]
  rw [privateNumber, ← hdvalue, ← hevalue]
  generalize vliModMult (vliModInv (vliModMult k tmp c.n) c.n) tmp c.n = inv at *
  generalize bytesToNative (vliClear w c.numWords) (privateKey.take 32) = d at *
  generalize bits2int c messageHash = e at *
  obtain ⟨hrdlen, hrdvalue⟩ := modMult_order hc hdlen hx
  obtain ⟨hsumlen, hsum⟩ := modAdd_order hc helen hrdlen
    (hrdvalue ▸ Nat.mod_lt _ groupOrder_prime.pos)
  obtain ⟨hslen, hsvalue⟩ := modMult_order hc hsumlen hinvlen
  generalize vliModMult (vliModAdd e (vliModMult d x c.n) c.n) inv c.n = s at *
  have hs : value s = quotient (value e + value x * value d) (value k) := by
    rw [hsvalue, quotient, div_eq_mul_inv, ← hinv, ← ZMod.val_natCast]
    congr 1
    rw [Nat.cast_mul, hsum, hrdvalue, ZMod.natCast_mod]
    push_cast
    ring
  have hfits : ¬vliNumBits s > c.numBytes * 8 := by
    have hbound := value_lt s
    rw [hslen, hc.words] at hbound
    rw [vliNumBits_eq, hc.numBytes]
    exact Nat.not_lt.mpr (Nat.size_le.mpr hbound)
  have hxbytes := (nativeToBytes_length c.numBytes x).trans hc.numBytes
  have hsbytes := (nativeToBytes_length c.numBytes s).trans hc.numBytes
  rw [if_neg hfits]
  refine ⟨_, rfl, ?_, ?_, ?_⟩
  · rw [List.length_append, hxbytes, hsbytes]
  · rw [signatureR, List.take_left' hxbytes, nativeToBytes_number hc hx]
  · rw [signatureS, List.drop_left' hxbytes, List.take_of_length_le (Nat.le_of_eq hsbytes),
      nativeToBytes_number hc hslen, hs]

/-- What a caller gets: a signature of the private key for the hash. -/
def Signs (privateKey messageHash signature : List UInt8) : Prop :=
  signature.length = 64 ∧ Signature (privateNumber privateKey) (hashNumber messageHash)
    (signatureR signature) (signatureS signature)

theorem signWithK_spec (hc : IsSecp256k1 c) (hk : k.length = c.numWords) (rng : Rng c) :
    Ensures Exact (signWithK c privateKey messageHash k rng) fun result =>
      ∀ signature ∈ result.1, Signs privateKey messageHash signature := by
  unfold signWithK
  by_cases hrange : (vliIsZero k || vliCmp c.n k != 1) = true
  · rw [if_pos hrange]
    exact ensures_pure fun signature h => by cases h
  rw [if_neg hrange]
  rw [Bool.or_eq_true, bne_iff_ne, not_or, not_not, vliIsZero_iff,
    vliCmp_eq (hc.nLength.trans hk.symm), Int.sign_eq_one_iff_pos, hc.nValue] at hrange
  have hkpos : 0 < value k := Nat.pos_of_ne_zero hrange.1
  have hklt : value k < groupOrder := by omega
  refine (mult_base_spec hc hk hkpos hklt).bind fun p hp => ?_
  obtain ⟨hcomputable, hholds⟩ | ⟨-, horigin⟩ := hp
  · obtain ⟨X, Y, hXY, hrep, hpoint⟩ := hholds.affine
    by_cases hx : vliIsZero p.x = true
    · rw [if_pos hx]
      exact ensures_pure fun signature h => by cases h
    rw [if_neg hx]
    refine ensures_pure fun signature h => ?_
    obtain ⟨tmp, htmp, hsignature⟩ := Option.bind_eq_some_iff.mp h
    obtain ⟨htlen, htpos, htlt⟩ := blinding_spec hc htmp
    obtain ⟨signature', hsome, hlen, hr, hs⟩ := signatureWith_spec privateKey messageHash hc hk
      hkpos hklt htlen htpos htlt hrep.x.length
    rw [hsome] at hsignature
    cases hsignature
    refine ⟨hlen, value k, ⟨hkpos, hklt, hcomputable⟩, ⟨X, Y, hXY, hpoint, ?_, ?_⟩, ?_⟩
    · rw [hr, hrep.x.val]
    · rw [hr]
      exact Nat.pos_of_ne_zero fun hzero => hx ((vliIsZero_iff p.x).mpr hzero)
    · rw [hs, hr]
  · rw [if_pos (horigin.x.isZero.mpr rfl)]
    exact ensures_pure fun signature h => by cases h

theorem signLoop_spec (hc : IsSecp256k1 c) (tries : Nat) (rng : Rng c) :
    Ensures Exact (signLoop c privateKey messageHash tries rng) fun result =>
      ∀ signature ∈ result, Signs privateKey messageHash signature := by
  induction tries generalizing rng with
  | zero => exact ensures_pure fun signature h => by cases h
  | succ tries ih =>
    unfold signLoop
    dsimp only
    cases hrandom : (generateRandomInt c c.n rng).1 with
    | none => exact ensures_pure fun signature h => by cases h
    | some k =>
      obtain ⟨hk, -, -⟩ := generateRandomInt_spec hc.nLength hrandom
      refine (signWithK_spec hc hk _).bind fun result hresult => ?_
      cases hsome : result.1 with
      | none => exact ih result.2
      | some signature => exact ensures_pure (hsome ▸ hresult)

/-- Every signature satisfies the equations. -/
theorem sign_spec (hc : IsSecp256k1 c) (rng : Rng c) :
    Ensures Exact (sign c privateKey messageHash rng) fun result =>
      ∀ signature ∈ result, Signs privateKey messageHash signature :=
  signLoop_spec hc rngMaxTries rng

end Sign

/-! ## Key pairs -/

section KeyPair

variable {c : Curve w}

/-- A public key and the private key it belongs to. -/
structure KeyPair (publicKey privateKey : List UInt8) : Prop where
  publicLength : publicKey.length = 64
  usable : Usable (privateNumber privateKey)
  encodes : Encodes publicKey (privateNumber privateKey • basePoint)

theorem makeKeyLoop_spec (hc : IsSecp256k1 c) (tries : Nat) (rng : Rng c) :
    Ensures Exact (makeKeyLoop c tries rng) fun result =>
      ∀ keys ∈ result, keys.2.length = 32 ∧ KeyPair keys.1 keys.2 := by
  induction tries generalizing rng with
  | zero => exact ensures_pure fun keys h => by cases h
  | succ tries ih =>
    unfold makeKeyLoop
    dsimp only
    cases hrandom : (generateRandomInt c c.n rng).1 with
    | none => exact ensures_pure fun keys h => by cases h
    | some priv =>
      obtain ⟨hlen, hpos, hlt⟩ := generateRandomInt_spec hc.nLength hrandom
      rw [hc.nValue] at hlt
      refine (eccPointComputePublicKey_spec hc hlen hpos hlt).bind fun pub hpub => ?_
      obtain ⟨hcomputable, R, rfl, hR⟩ | ⟨-, rfl⟩ := hpub
      · refine ensures_pure fun keys h => ?_
        cases h
        have hbytes := (nativeToBytes_length c.numBytes priv).trans hc.numBytes
        have hnumber : privateNumber (nativeToBytes c.numBytes priv) = value priv := by
          rw [privateNumber, List.take_of_length_le (Nat.le_of_eq hbytes),
            nativeToBytes_number hc hlen]
        refine ⟨hbytes, pointToBytes_length hc R, hnumber ▸ ⟨hpos, hlt, hcomputable⟩, ?_⟩
        rw [hnumber]
        exact hR.encodes hc
      · exact ih _

/-- Every pair of keys belongs together. -/
theorem makeKey_spec (hc : IsSecp256k1 c) (rng : Rng c) :
    Ensures Exact (makeKey c rng) fun result =>
      ∀ keys ∈ result, keys.2.length = 32 ∧ KeyPair keys.1 keys.2 :=
  makeKeyLoop_spec hc rngMaxTries rng

/-- The key is neither the base point nor its opposite. -/
theorem Usable.ne_base {d : Nat} (h : Usable d) :
    d • basePoint ≠ basePoint ∧ d • basePoint ≠ -basePoint := by
  obtain ⟨hpos, hlt, hone, -, htop⟩ := h
  constructor
  · intro heq
    rw [← one_nsmul basePoint, ← mul_nsmul', Nat.mul_one, nsmul_base_eq_iff, Nat.ModEq,
      Nat.mod_eq_of_lt hlt, Nat.mod_eq_of_lt groupOrder_prime.one_lt] at heq
    exact hone heq
  · intro heq
    have hzero : (d + 1) • basePoint = 0 := by rw [add_nsmul, one_nsmul, heq, neg_add_cancel]
    rw [nsmul_base_eq_zero_iff] at hzero
    have := Nat.le_of_dvd (Nat.succ_pos d) hzero
    omega

end KeyPair

/-! ## Signing and verifying -/

section RoundTrip

variable {c : Curve w} {publicKey privateKey messageHash signature : List UInt8}

/-- The verifier accepts a signature of the key unless `r` is not reduced, `s` is zero or an
addition does not apply. -/
theorem verify_signature (hc : IsSecp256k1 c) (hkeys : KeyPair publicKey privateKey)
    (hsigns : Signs privateKey messageHash signature) :
    Ensures Exact (verify c publicKey messageHash signature) fun v =>
      v = 1 ↔ (signatureR signature < groupOrder ∧ 0 < signatureS signature) ∧
        RegularRun (privateNumber privateKey • basePoint) (hashNumber messageHash)
          (signatureR signature) (signatureS signature) := by
  obtain ⟨hne, hneg⟩ := hkeys.usable.ne_base
  refine (verify_spec hc hkeys.encodes hne hneg).mono fun v hv => ?_
  rw [hv, hsigns.2.accepts_iff]

end RoundTrip

end PrplHypervisor.UEcc
