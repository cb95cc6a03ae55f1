import PrplHypervisor.Cryptography.Digest
import PrplHypervisor.Cryptography.Security
import PrplHypervisor.Cryptography.WordSizes

/-!
# Signing and booting (cryptography/security.c, app/micro_ecc_host/ecdsa_sign.c)

The signing program saves a public key and a signature of 64 bytes each; they are appended to the
image, and `isVmTrust` looks for them at the end of the flash.

- `genuine_iff`: for one VM the verdict is the equation of ECDSA for the key in the flash.
- `signedBy_genuine`: what the signing program saved boots, if the program had a valid key.
-/

namespace PrplHypervisor

open UEcc Ledger Word32 Genconf

variable {w w' : Nat}

/-- The library of `isVmTrust`; `ctx` is the context before `sha256_init`. -/
def libraryCrypto (c : Curve w) (ctx : Sha256.Sha256Ctx) : Crypto where
  validPublicKey publicKey := (validPublicKey c publicKey).val
  verify publicKey messageHash signature := (verify c publicKey messageHash signature).val
  sha256 data := Sha256.sha256 ctx [data]

/-- `load_privkey`: the return value and the public key; `none` is a negative return value. -/
def loadPrivkey (c : Curve w) (privateKey : List UInt8) : Run (Option (Int × List UInt8)) := do
  match ← computePublicKey c privateKey with
  | none => return none
  | some publicKey =>
    let valid ← validPublicKey c publicKey
    return some (if valid = 0 then 1 else 0, publicKey)

/-- `main` of `ecdsa_sign.c`: what `save_signature` writes. Only a negative return value of
`load_privkey` ends the program. -/
def ecdsaSignMain (c : Curve w) (ctx : Sha256.Sha256Ctx) (image privateKey : List UInt8)
    (rng : Rng c) : Run (Option (List UInt8)) := do
  match ← loadPrivkey c privateKey with
  | none => return none
  | some (_, publicKey) =>
    let hash := Sha256.sha256 ctx [image]
    match ← sign c privateKey hash rng with
    | none => return none
    | some signature =>
      let verified ← verify c publicKey hash signature
      return if verified = 0 then none else some (publicKey ++ signature)

/-! ## The verdict -/

section Verdict

variable {c : Curve w} {c' : Curve w'} {publicKey messageHash signature : List UInt8}

/-- Only keys with reduced coordinates are valid. -/
theorem reducedKey_of_valid (hc : IsSecp256k1 c) (h : (validPublicKey c publicKey).val ≠ 0) :
    ReducedKey publicKey := by
  obtain ⟨hx, hxvalue⟩ := bytesToNative_number hc (List.length_take_le 32 publicKey)
  obtain ⟨hy, hyvalue⟩ := bytesToNative_number hc (List.length_take_le 32 (publicKey.drop 32))
  rw [ReducedKey, ← hxvalue, ← hyvalue]
  unfold validPublicKey validPoint at h
  simp only [bytesToPoint, hc.numBytes] at h
  split at h
  · exact absurd rfl h
  split at h
  · exact absurd rfl h
  rename_i hlt
  rw [Bool.or_eq_true, bne_iff_ne, bne_iff_ne, Ne,
    vliCmpUnsafe_eq_one_iff (hc.pLength.trans hx.symm), Ne,
    vliCmpUnsafe_eq_one_iff (hc.pLength.trans hy.symm), hc.pValue, not_or, not_not, not_not] at hlt
  exact hlt

theorem verify_zero_or_one (c : Curve w) (publicKey messageHash signature : List UInt8) :
    (verify c publicKey messageHash signature).val = 0 ∨
      (verify c publicKey messageHash signature).val = 1 := by
  unfold verify
  dsimp only
  split
  · exact .inl rfl
  split
  · exact .inl rfl
  exact (ite_eq_or_eq _ _ _).symm

theorem validPublicKey_zero_or_one (c : Curve w) (publicKey : List UInt8) :
    (validPublicKey c publicKey).val = 0 ∨ (validPublicKey c publicKey).val = 1 := by
  unfold validPublicKey validPoint
  split
  · exact .inl rfl
  split
  · exact .inl rfl
  exact (ite_eq_or_eq _ _ _).symm

theorem libraryCrypto_sha256 (c : Curve w) (ctx : Sha256.Sha256Ctx) (data : List UInt8) :
    (libraryCrypto c ctx).sha256 data = Sha256.digest data :=
  Sha256.final_eq ((Sha256.hashedAll_init ctx).update data) _

end Verdict

/-! ## What the verdict means -/

/-- The hash of the bytes in front of the key. -/
def vmHash (flash : Nat → UInt8) (conf : VmConf) : List UInt8 :=
  Sha256.digest ((List.range (sub32 conf.flashSize 128)).map (lAddrVm flash conf))

/-- The flash ends with a point and a signature of the hash for it. -/
def SignedVm (flash : Nat → UInt8) (conf : VmConf) : Prop :=
  ∃ Q, Encodes (embeddedKey flash conf) Q ∧
    Accepts Q (hashNumber (vmHash flash conf)) (signatureR (copyTail flash conf 64))
      (signatureS (copyTail flash conf 64)) ∧
    RegularRun Q (hashNumber (vmHash flash conf)) (signatureR (copyTail flash conf 64))
      (signatureS (copyTail flash conf 64))

/-- No product is missed, and the key is not the base point or its opposite. -/
structure OrdinaryVm (c : Curve w) (flash : Nat → UInt8) (conf : VmConf) : Prop where
  keyExact : (validPublicKey c (embeddedKey flash conf)).Clean Exact
  runExact : (verify c (embeddedKey flash conf) (vmHash flash conf) (copyTail flash conf 64)).Clean
    Exact
  notBase : ∀ Q, Encodes (embeddedKey flash conf) Q → Q ≠ basePoint ∧ Q ≠ -basePoint

section Meaning

variable {c : Curve w} {flash : Nat → UInt8} {conf : VmConf}

theorem genuine_iff (hc : IsSecp256k1 c) (ctx : Sha256.Sha256Ctx) (h : OrdinaryVm c flash conf) :
    Genuine (libraryCrypto c ctx) flash conf ↔ SignedVm flash conf := by
  have hkey := validPublicKey_spec hc (embeddedKey flash conf) h.keyExact
  have hvalid := validPublicKey_zero_or_one c (embeddedKey flash conf)
  have hverified := verify_zero_or_one c (embeddedKey flash conf) (vmHash flash conf)
    (copyTail flash conf 64)
  rw [Genuine, hashVm, libraryCrypto_sha256]
  simp only [libraryCrypto]
  rw [vmHash] at hverified
  constructor
  · rintro ⟨hne, hne'⟩
    obtain ⟨Q, hQ⟩ := hkey.mp (hvalid.resolve_left hne)
    obtain ⟨hbase, hopposite⟩ := h.notBase Q hQ
    have hspec := verify_spec hc hQ hbase hopposite h.runExact
    exact ⟨Q, hQ, hspec.mp (hverified.resolve_left hne')⟩
  · rintro ⟨Q, hQ, haccepts⟩
    obtain ⟨hbase, hopposite⟩ := h.notBase Q hQ
    have hspec := verify_spec hc hQ hbase hopposite h.runExact
    refine ⟨?_, ?_⟩
    · rw [hkey.mpr ⟨Q, hQ⟩]
      exact one_ne_zero
    · rw [← vmHash, hspec.mpr haccepts]
      exact one_ne_zero

end Meaning

/-! ## What the signing program saves -/

section Saved

variable {c : Curve w} {ctx : Sha256.Sha256Ctx} {image privateKey messageHash : List UInt8}

theorem signatureWith_length (hc : IsSecp256k1 c) {k tmp x : Vli w} {signature : List UInt8}
    (h : signatureWith c privateKey messageHash k tmp x = some signature) :
    signature.length = 64 := by
  unfold signatureWith at h
  dsimp only at h
  split at h
  · cases h
  · cases h
    rw [List.length_append, nativeToBytes_length, nativeToBytes_length, hc.numBytes]

theorem signWithK_length (hc : IsSecp256k1 c) {k : Vli w} {rng : Rng c} {signature : List UInt8}
    (h : (signWithK c privateKey messageHash k rng).val.1 = some signature) :
    signature.length = 64 := by
  unfold signWithK at h
  split at h
  · cases h
  rw [val_bind] at h
  split at h
  · cases h
  obtain ⟨tmp, -, hsignature⟩ := Option.bind_eq_some_iff.mp h
  exact signatureWith_length hc hsignature

theorem sign_length (hc : IsSecp256k1 c) {rng : Rng c} {signature : List UInt8}
    (h : (sign c privateKey messageHash rng).val = some signature) : signature.length = 64 := by
  unfold sign at h
  generalize rngMaxTries = tries at h
  induction tries generalizing rng with
  | zero => cases h
  | succ tries ih =>
    unfold signLoop at h
    dsimp only at h
    split at h
    · cases h
    rw [val_bind] at h
    split at h
    · rename_i hsome
      cases h
      exact signWithK_length hc hsome
    · exact ih h

theorem computePublicKey_length (hc : IsSecp256k1 c) {publicKey : List UInt8}
    (h : (computePublicKey c privateKey).val = some publicKey) : publicKey.length = 64 := by
  unfold computePublicKey at h
  dsimp only at h
  split at h
  · cases h
  split at h
  · cases h
  obtain ⟨point, -, rfl⟩ := Option.map_eq_some_iff.mp h
  exact pointToBytes_length hc point

/-- The key is stored whether it is valid or not; the return value tells. -/
theorem loadPrivkey_eq_some {status : Int} {publicKey : List UInt8}
    (h : (loadPrivkey c privateKey).val = some (status, publicKey)) :
    (computePublicKey c privateKey).val = some publicKey ∧
      (status = 0 ↔ (validPublicKey c publicKey).val ≠ 0) := by
  unfold loadPrivkey at h
  rw [val_bind] at h
  split at h
  · cases h
  · rename_i hsome
    cases h
    refine ⟨hsome, ?_⟩
    split <;> simp_all

/-- A valid key, unless a product was missed. -/
theorem loadPrivkey_spec (hc : IsSecp256k1 c) (privateKey : List UInt8) :
    Ensures Exact (loadPrivkey c privateKey) fun result =>
      (Usable (privateNumber privateKey) ∧ ∃ publicKey, result = some (0, publicKey) ∧
        Encodes publicKey (privateNumber privateKey • basePoint)) ∨
      (¬Usable (privateNumber privateKey) ∧ result = none) := by
  unfold loadPrivkey
  refine (computePublicKey_spec hc privateKey).bind fun result hresult => ?_
  obtain ⟨husable, publicKey, rfl, -, hencodes⟩ | ⟨hnot, rfl⟩ := hresult
  · refine (validPublicKey_spec hc publicKey).bind fun valid hvalid => ensures_pure (.inl ?_)
    rw [hvalid.mpr ⟨_, hencodes⟩, if_neg one_ne_zero]
    exact ⟨husable, publicKey, rfl, hencodes⟩
  · exact ensures_pure (.inr ⟨hnot, rfl⟩)

/-- What `ecdsa_gen` saves: the private key leads back to the public key. -/
theorem makeKey_computes (hc : IsSecp256k1 c) {rng : Rng c} {publicKey privateKey : List UInt8}
    (h : (makeKey c rng).val = some (publicKey, privateKey)) :
    (computePublicKey c privateKey).val = some publicKey := by
  unfold makeKey at h
  generalize rngMaxTries = tries at h
  induction tries generalizing rng with
  | zero => cases h
  | succ tries ih =>
    unfold makeKeyLoop at h
    dsimp only at h
    split at h
    · cases h
    rename_i priv hrandom
    obtain ⟨hlen, hpos, hlt⟩ := generateRandomInt_spec hc.nLength hrandom
    rw [val_bind] at h
    split at h
    · rename_i point hpoint
      cases h
      have hbytes := (nativeToBytes_length c.numBytes priv).trans hc.numBytes
      have hback : bytesToNative (vliClear w c.numWords)
          ((nativeToBytes c.numBytes priv).take ((c.numNBits + 7) / 8)) = priv := by
        rw [hc.numNBits, List.take_of_length_le (Nat.le_of_eq hbytes),
          bytesToNative_nativeToBytes hc hlen]
      have hzero : ¬vliIsZero priv = true := by
        rw [vliIsZero_iff]
        exact Nat.ne_of_gt hpos
      have hcmp : ¬(vliCmp c.n priv != 1) = true := by
        rw [bne_iff_ne, not_not, vliCmp_eq (hc.nLength.trans hlen.symm),
          Int.sign_eq_one_iff_pos]
        omega
      unfold computePublicKey
      dsimp only
      rw [hback, if_neg hzero, if_neg hcmp, val_bind, val_pure, hpoint]
      rfl
    · exact ih h

/-- The parts of what is saved. -/
theorem ecdsaSignMain_eq_some (hc : IsSecp256k1 c) {rng : Rng c} {saved : List UInt8}
    (h : (ecdsaSignMain c ctx image privateKey rng).val = some saved) :
    ∃ status publicKey signature,
      (loadPrivkey c privateKey).val = some (status, publicKey) ∧
      publicKey.length = 64 ∧ signature.length = 64 ∧ saved = publicKey ++ signature ∧
      (verify c publicKey (Sha256.digest image) signature).val ≠ 0 := by
  have hdigest : Sha256.sha256 ctx [image] = Sha256.digest image := libraryCrypto_sha256 c ctx image
  unfold ecdsaSignMain at h
  rw [val_bind] at h
  split at h
  · cases h
  rename_i status publicKey hload
  dsimp only at h
  rw [hdigest, val_bind] at h
  split at h
  · cases h
  rename_i signature hsign
  simp only [val_bind, val_pure] at h
  split at h
  · cases h
  rename_i hverified
  cases h
  obtain ⟨hcompute, -⟩ := loadPrivkey_eq_some hload
  exact ⟨status, publicKey, signature, hload, computePublicKey_length hc hcompute,
    sign_length hc hsign, rfl, hverified⟩

end Saved

/-! ## From the image to the flash -/

/-- The flash of a VM. -/
def vmFlash (flash : Nat → UInt8) (conf : VmConf) : List UInt8 :=
  (List.range conf.flashSize).map (lAddrVm flash conf)

/-- The flash of the VM is an image and what the signing program saved for it. -/
structure SignedBy (c : Curve w) (flash : Nat → UInt8) (conf : VmConf) (privateKey : List UInt8) :
    Prop where
  size : conf.flashSize < 2 ^ 32
  saved : ∃ ctx image rng saved, (ecdsaSignMain c ctx image privateKey rng).val = some saved ∧
    vmFlash flash conf = image ++ saved

section Layout

variable {flash : Nat → UInt8} {conf : VmConf} {image publicKey signature : List UInt8}

/-- Bytes counted from the end of the flash. -/
theorem copyTail_eq (hsize : conf.flashSize < 2 ^ 32) {back : Nat} (hlow : 64 ≤ back)
    (hback : back ≤ conf.flashSize) :
    copyTail flash conf back = ((vmFlash flash conf).drop (conf.flashSize - back)).take 64 := by
  refine List.ext_getElem ?_ fun i hi hi' => ?_
  · simp only [copyTail, vmFlash, List.length_map, List.length_range, List.length_take,
      List.length_drop]
    omega
  · have hi : i < 64 := by simpa [copyTail] using hi
    simp only [copyTail, vmFlash, List.getElem_map, List.getElem_range, List.getElem_take,
      List.getElem_drop, sub32_of_le hback hsize, add32]
    rw [u32_of_lt (by omega)]

theorem hashed_eq (hsize : conf.flashSize < 2 ^ 32) (hroom : 128 ≤ conf.flashSize) :
    (List.range (sub32 conf.flashSize 128)).map (lAddrVm flash conf) =
      (vmFlash flash conf).take (conf.flashSize - 128) := by
  rw [vmFlash, ← List.map_take, List.take_range, sub32_of_le hroom hsize,
    Nat.min_eq_left (Nat.sub_le _ _)]

/-- The verifier finds the parts where the signing program put them. -/
theorem vmFlash_parts (hsize : conf.flashSize < 2 ^ 32) (hkey : publicKey.length = 64)
    (hsignature : signature.length = 64)
    (hflash : vmFlash flash conf = image ++ (publicKey ++ signature)) :
    copyTail flash conf 128 = publicKey ∧ copyTail flash conf 64 = signature ∧
      vmHash flash conf = Sha256.digest image := by
  have hlength := congrArg List.length hflash
  simp only [vmFlash, List.length_map, List.length_range, List.length_append, hkey,
    hsignature] at hlength
  rw [vmHash, hashed_eq hsize (by omega), copyTail_eq hsize (by omega) (by omega),
    copyTail_eq hsize (by omega) (by omega), hflash, hlength]
  refine ⟨?_, ?_, ?_⟩
  · rw [List.drop_left' (by omega), List.take_left' hkey]
  · rw [← List.append_assoc, List.drop_left' (by simp; omega),
      List.take_of_length_le (Nat.le_of_eq hsignature)]
  · rw [List.take_left' (by omega)]

end Layout

/-- What was signed boots exactly if `load_privkey` returned zero, whatever the runs missed. -/
theorem signedBy_genuine {c : Curve w} {c' : Curve w'} (hc : BothSecp256k1 c c')
    (ctx : Sha256.Sha256Ctx) {flash : Nat → UInt8} {conf : VmConf} {privateKey : List UInt8}
    (h : SignedBy c' flash conf privateKey) :
    Genuine (libraryCrypto c ctx) flash conf ↔
      ∃ publicKey, (loadPrivkey c' privateKey).val = some (0, publicKey) := by
  obtain ⟨hsize, ctx', image, rng, saved, hsaved, hflash⟩ := h
  obtain ⟨status, publicKey, signature, hload, hkey, hsignature, rfl, hverified⟩ :=
    ecdsaSignMain_eq_some hc.right hsaved
  obtain ⟨hkeyAt, hsignatureAt, hhash⟩ := vmFlash_parts hsize hkey hsignature hflash
  obtain ⟨-, hstatus⟩ := loadPrivkey_eq_some hload
  have hvalid := congrArg Ledger.val (validPublicKey_agree hc publicKey)
  have hgenuine : Genuine (libraryCrypto c ctx) flash conf ↔
      (validPublicKey c publicKey).val ≠ 0 ∧
        (verify c publicKey (Sha256.digest image) signature).val ≠ 0 := by
    rw [Genuine, hashVm, libraryCrypto_sha256, ← vmHash, hhash, hsignatureAt, ← copyTail_key,
      hkeyAt]
    exact Iff.rfl
  rw [hgenuine, hload, hvalid, ← hstatus]
  constructor
  · rintro ⟨rfl, -⟩
    exact ⟨publicKey, rfl⟩
  · rintro ⟨key, hzero⟩
    cases hzero
    have hne := hstatus.mp rfl
    rw [verify_agree hc (reducedKey_of_valid hc.left (hvalid ▸ hne))]
    exact ⟨rfl, hverified⟩

end PrplHypervisor
