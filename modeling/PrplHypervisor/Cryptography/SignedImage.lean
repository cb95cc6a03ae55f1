import PrplHypervisor.Cryptography.Boot

/-!
# The library on one image (cryptography)

What the library promises on either machine, up to the verdict at boot. The results on one private
key and one image are computed in words of 256 bits: `oneWord` is the curve in one such word, and
by `Cryptography/WordSizes` both machines do the same.

- `sign_then_verify`: which signatures of the one machine the other accepts.
- `machines_agree`, `isVmTrust_library`: the results do not depend on the size of the words.
- `isVmTrust_iff_signed`: what the verdict at boot says about the flash.
- `signed_images_boot`: what `ecdsa_sign` saved boots.
-/

namespace PrplHypervisor.UEcc

open Limbs Ledger JacobianPoint

variable {w : Nat}

/-- The curve in one word. -/
def oneWord : Curve 256 where
  numWords := 1
  numBytes := 32
  numNBits := 256
  p := [BitVec.ofNat 256 fieldPrime]
  n := [BitVec.ofNat 256 groupOrder]
  G := [BitVec.ofNat 256 baseX, BitVec.ofNat 256 baseY]
  b := [7]
  mmodFast product := [BitVec.ofNat 256 (reduced (folded (value product)))]

theorem isSecp256k1_oneWord : IsSecp256k1 oneWord where
  word := by decide
  words := rfl
  room := by decide
  numBytes := rfl
  numNBits := rfl
  pLength := rfl
  pValue := by decide +kernel
  nLength := rfl
  nValue := by decide +kernel
  gLength := rfl
  gxValue := by decide +kernel
  gyValue := by decide +kernel
  bLength := rfl
  bValue := by decide +kernel
  mmodFast := fun product _ => by
    refine ⟨rfl, ?_⟩
    rw [oneWord, value_singleton, BitVec.toNat_ofNat, Nat.mod_eq_of_lt (reduced_lt_two_pow _)]

theorem hypervisor_oneWord : BothSecp256k1 secp256k1 oneWord :=
  ⟨isSecp256k1_secp256k1, isSecp256k1_oneWord⟩

theorem host_oneWord : BothSecp256k1 hostSecp256k1 oneWord :=
  ⟨isSecp256k1_hostSecp256k1, isSecp256k1_oneWord⟩

theorem bothMachines : BothSecp256k1 secp256k1 hostSecp256k1 :=
  ⟨isSecp256k1_secp256k1, isSecp256k1_hostSecp256k1⟩

/-! ## One key and one image -/

/-- A private key, which is also drawn as the random number. -/
def keyNumber : Nat := 42

set_option maxRecDepth 100000 in
/-- The multiple of the base point, as the ladder leaves it. -/
def keyPoint : { point : EccPoint 256 // Gives Exact (eccPointMult oneWord oneWord.base
    (regularScalar oneWord [42]) none (oneWord.numNBits + 1)) point } :=
  ⟨{ x := [0xfe8d1eb1bcb3432b1db5833ff5f2226d9cb5e65cee430558c18ed3a3c86ce1af]
     y := [0x7b158f244cd0de2134ac7c1d371cffbfae4db40801a2572e531c573cda9b5b4] },
    by decide +kernel⟩

def keyBytes : List UInt8 := nativeToBytes 32 [BitVec.ofNat 256 keyNumber]

def publicBytes : List UInt8 := pointToBytes oneWord keyPoint.val

/-- The image: the bytes of `prpl`. -/
def imageBytes : List UInt8 := [0x70, 0x72, 0x70, 0x6C]

def imageHash : List UInt8 :=
  nativeToBytes 32
    [(0x8b4d6373487a984b8694e178390f6921fd13954787eb2896bc06ba07305d956b : BitVec 256)]

set_option maxRecDepth 100000 in
/-- The signature, with the factor 7 for the blinding. -/
def signatureBytes : { signature : List UInt8 //
    signatureWith oneWord keyBytes imageHash [42] [7] keyPoint.val.x = some signature ∧
      Gives Exact (verify oneWord publicBytes imageHash signature) 1 } :=
  ⟨nativeToBytes 32 keyPoint.val.x ++
    nativeToBytes 32
      [(0x7f694df260b83bf3332f6551be03738ce05924695a03309a3293ed159c03dec : BitVec 256)],
    by decide +kernel, by decide +kernel⟩

/-- The lowest word of a drawn number. -/
def drawOf (c : Curve w) (x : Nat) : Draw c :=
  ⟨(vliClear w c.numWords).set 0 (BitVec.ofNat w x), by rw [List.length_set, vliClear,
    List.length_replicate]⟩

/-- The private key, then a factor for the blinding. -/
def drawsOf (c : Curve w) : Rng c := some [some (drawOf c keyNumber), some (drawOf c 7)]

/-! ## Keys -/

section Keys

variable {c : Curve w} {privateKey publicKey : List UInt8} {k : Vli w} {point : EccPoint w}
variable {rng rest : Rng c}

/-- The multiple in affine coordinates, unless a rung of the ladder is no step up. -/
theorem eccPointMult_eq_nsmul (hc : IsSecp256k1 c) {point : EccPoint w} {A : Secp} {scalar : Vli w}
    {m numBits : Nat} (hpoint : Holds c point 1 A) (hx : value point.x ≠ 0)
    {initialZ : Option (Vli w)} (hinitial : ∀ Z ∈ initialZ, ∃ t, t ≠ 0 ∧ Rep c Z t)
    (hscalar : Regularized scalar m numBits)
    (hexact : (eccPointMult c point scalar initialZ numBits).Clean Exact) :
    ((eccPointMult c point scalar initialZ numBits).val.isZero = false ↔
      ClimbsFrom A m numBits 0) ∧
    (ClimbsFrom A m numBits 0 →
      Holds c (eccPointMult c point scalar initialZ numBits).val 1 (m • A)) := by
  obtain ⟨hclimbs, hholds⟩ | ⟨hnot, horigin⟩ :=
    eccPointMult_spec hc hpoint hx hinitial hscalar hexact
  · exact ⟨⟨fun _ => hclimbs, fun _ => hholds.not_isZero⟩, fun _ => hholds⟩
  · refine ⟨⟨fun h => ?_, fun h => absurd h hnot⟩, fun h => absurd h hnot⟩
    rw [horigin.isZero] at h
    cases h

theorem keyPoint_not_isZero : ¬keyPoint.val.isZero = true := by
  decide

theorem eccPointMult_eq_nsmul_keyPoint :
    Holds oneWord keyPoint.val 1 (regular (value ([42] : Vli 256)) • basePoint) := by
  have hc := isSecp256k1_oneWord
  obtain ⟨hval, hexact⟩ := keyPoint.property
  have hscalar : Regularized (regularScalar oneWord [42]) (regular (value ([42] : Vli 256)))
      (oneWord.numNBits + 1) := regularized hc rfl (by decide)
  have hmult := eccPointMult_eq_nsmul hc (base_holds hc) (base_x_ne_zero hc)
    (fun Z hZ => by cases hZ) hscalar hexact
  rw [hval] at hmult
  exact hmult.2 (hmult.1.mp (Bool.eq_false_iff.mpr keyPoint_not_isZero))

/-- The points of the curve, in integers. -/
theorem exists_encodes_iff (publicKey : List UInt8) :
    (∃ A, Encodes publicKey A) ↔ ReducedKey publicKey ∧
      bigEndian ((publicKey.drop 32).take 32) ^ 2 ≡ bigEndian (publicKey.take 32) ^ 3 + 7
        [MOD fieldPrime] := by
  have hcast : ∀ x y : Nat, y ^ 2 ≡ x ^ 3 + 7 [MOD fieldPrime] ↔
      (y : ZMod fieldPrime) ^ 2 = (x : ZMod fieldPrime) ^ 3 + 7 := by
    intro x y
    rw [← ZMod.natCast_eq_natCast_iff]
    push_cast
    exact Iff.rfl
  rw [hcast]
  constructor
  · rintro ⟨A, X, Y, h, rfl, hX, hY⟩
    refine ⟨⟨hX ▸ ZMod.val_lt X, hY ▸ ZMod.val_lt Y⟩, ?_⟩
    rw [hX, hY, ZMod.natCast_zmod_val, ZMod.natCast_zmod_val]
    exact (equation_curve 7 X Y).mp h.1
  · rintro ⟨⟨hx, hy⟩, hequation⟩
    exact ⟨_, _, _, nonsingular_curve hequation, rfl, (ZMod.val_natCast_of_lt hx).symm,
      (ZMod.val_natCast_of_lt hy).symm⟩

/-- Valid are the points of the curve in two reduced coordinates. -/
theorem validPublicKey_eq_one_iff (hc : IsSecp256k1 c)
    (hexact : (validPublicKey c publicKey).Clean Exact) :
    (validPublicKey c publicKey).val = 1 ↔ ReducedKey publicKey ∧
      bigEndian ((publicKey.drop 32).take 32) ^ 2 ≡ bigEndian (publicKey.take 32) ^ 3 + 7
        [MOD fieldPrime] :=
  (validPublicKey_spec hc publicKey hexact).trans (exists_encodes_iff publicKey)

theorem validPublicKey_hypervisor : Gives Exact (validPublicKey secp256k1 publicBytes) 1 := by
  have hvalid : Gives Exact (validPublicKey oneWord publicBytes) 1 := by
    decide +kernel
  rw [validPublicKey_agree hypervisor_oneWord]
  exact hvalid

theorem validPublicKey_publicBytes : ReducedKey publicBytes ∧
    bigEndian ((publicBytes.drop 32).take 32) ^ 2 ≡ bigEndian (publicBytes.take 32) ^ 3 + 7
      [MOD fieldPrime] :=
  (validPublicKey_eq_one_iff isSecp256k1_secp256k1 validPublicKey_hypervisor.2).mp
    validPublicKey_hypervisor.1

/-- The private keys that have a public key, which is their multiple of the base point. -/
theorem computePublicKey_isSome_iff (hc : IsSecp256k1 c)
    (hexact : (computePublicKey c privateKey).Clean Exact) :
    ((computePublicKey c privateKey).val.isSome ↔
      2 ≤ privateNumber privateKey ∧ privateNumber privateKey + 2 < groupOrder) ∧
    ∀ publicKey ∈ (computePublicKey c privateKey).val,
      publicKey.length = 64 ∧ Encodes publicKey (privateNumber privateKey • basePoint) := by
  rw [← usable_iff]
  obtain ⟨husable, publicKey, hsome, hlength, hencodes⟩ | ⟨hnot, hnone⟩ :=
    computePublicKey_spec hc privateKey hexact
  · rw [hsome]
    refine ⟨⟨fun _ => husable, fun _ => rfl⟩, fun key hkey => ?_⟩
    cases hkey
    exact ⟨hlength, hencodes⟩
  · rw [hnone]
    refine ⟨⟨fun h => absurd h (by decide), fun h => absurd h hnot⟩, fun key hkey => ?_⟩
    cases hkey

theorem eccPointComputePublicKey_gives (hpoint : ¬point.isZero = true)
    (h : Gives Exact (eccPointMult c c.base (regularScalar c k) none (c.numNBits + 1)) point) :
    Gives Exact (eccPointComputePublicKey c k) (some point) := by
  refine h.bind ?_
  rw [if_neg hpoint]
  exact gives_pure _

theorem computePublicKey_gives
    (hpriv : bytesToNative (vliClear w c.numWords)
      (privateKey.take ((c.numNBits + 7) / 8)) = k)
    (hrange : ¬(vliIsZero k || vliCmp c.n k != 1) = true)
    (h : Gives Exact (eccPointComputePublicKey c k) (some point)) :
    Gives Exact (computePublicKey c privateKey) (some (pointToBytes c point)) := by
  rw [Bool.or_eq_true, not_or] at hrange
  obtain ⟨hzero, hcmp⟩ := hrange
  unfold computePublicKey
  dsimp only
  rw [hpriv, if_neg hzero, if_neg hcmp]
  exact h.bind (gives_pure _)

theorem keyNumber_range : ¬(vliIsZero ([42] : Vli 256) || vliCmp oneWord.n [42] != 1) = true := by
  decide

theorem eccPointComputePublicKey_keyNumber :
    Gives Exact (eccPointComputePublicKey oneWord [42]) (some keyPoint.val) :=
  eccPointComputePublicKey_gives keyPoint_not_isZero keyPoint.property

theorem computePublicKey_host :
    Gives Exact (computePublicKey hostSecp256k1 keyBytes) (some publicBytes) := by
  have hpriv : bytesToNative (vliClear 256 oneWord.numWords)
      (keyBytes.take ((oneWord.numNBits + 7) / 8)) = [42] := by
    decide
  rw [computePublicKey_agree host_oneWord]
  exact computePublicKey_gives hpriv keyNumber_range eccPointComputePublicKey_keyNumber

theorem computePublicKey_keyBytes : (computePublicKey hostSecp256k1 keyBytes).val.isSome ∧
    Encodes publicBytes (privateNumber keyBytes • basePoint) := by
  have hbounds : 2 ≤ privateNumber keyBytes ∧ privateNumber keyBytes + 2 < groupOrder := by
    decide
  obtain ⟨hsome, hencodes⟩ :=
    computePublicKey_isSome_iff isSecp256k1_hostSecp256k1 computePublicKey_host.2
  exact ⟨hsome.mpr hbounds, (hencodes publicBytes computePublicKey_host.1).2⟩

/-- `ecdsa_gen`: the keys belong together, and loading the private key finds them valid. -/
theorem makeKey_loads (hc : IsSecp256k1 c)
    (h : (makeKey c rng).val = some (publicKey, privateKey))
    (hexact : (makeKey c rng).Clean Exact) (hload : (loadPrivkey c privateKey).Clean Exact) :
    KeyPair publicKey privateKey ∧ (loadPrivkey c privateKey).val = some (0, publicKey) := by
  have hpair : KeyPair publicKey privateKey := (makeKey_spec hc rng hexact _ h).2
  refine ⟨hpair, ?_⟩
  obtain ⟨-, key, hkey, -⟩ | ⟨hnot, -⟩ := loadPrivkey_spec hc privateKey hload
  · have hcompute := (loadPrivkey_eq_some hkey).1
    rw [makeKey_computes hc h] at hcompute
    cases hcompute
    exact hkey
  · exact absurd hpair.usable hnot

theorem makeKey_gives (hdraw : generateRandomInt c c.n rng = (some k, rest))
    (h : Gives Exact (eccPointComputePublicKey c k) (some point)) :
    Gives Exact (makeKey c rng) (some (pointToBytes c point, nativeToBytes c.numBytes k)) := by
  unfold makeKey rngMaxTries makeKeyLoop
  rw [hdraw]
  exact h.bind (gives_pure _)

theorem loadPrivkey_gives (h : Gives Exact (computePublicKey c privateKey) (some publicKey))
    (hvalid : Gives Exact (validPublicKey c publicKey) 1) :
    Gives Exact (loadPrivkey c privateKey) (some (0, publicKey)) :=
  h.bind (hvalid.bind (gives_pure _))

/-- The first draw is taken if it is in the range. -/
theorem generateRandomInt_draw (hc : IsSecp256k1 c) {draw : Draw c}
    {draws : List (Option (Draw c))}
    (hrange : (!vliIsZero draw.val && vliCmp c.n draw.val == 1) = true) :
    generateRandomInt c c.n (some (some draw :: draws)) = (some draw.val, some draws) := by
  unfold generateRandomInt rngMaxTries randomLoop
  dsimp only
  rw [maskTop_order hc draw.property, if_pos hrange]

theorem generateRandomInt_drawsOf : generateRandomInt oneWord oneWord.n (drawsOf oneWord) =
    (some [42], some [some (drawOf oneWord 7)]) :=
  generateRandomInt_draw isSecp256k1_oneWord (by decide)

theorem drawsOf_host :
    SameRng hostSecp256k1 oneWord (drawsOf hostSecp256k1) (drawsOf oneWord) := by
  refine List.Forall₂.cons (.some ⟨rfl, rfl, ?_⟩) (.cons (.some ⟨rfl, rfl, ?_⟩) .nil)
  · decide
  · decide

theorem makeKey_host : Gives Exact (makeKey hostSecp256k1 (drawsOf hostSecp256k1))
    (some (publicBytes, keyBytes)) := by
  rw [makeKey_agree host_oneWord drawsOf_host]
  exact makeKey_gives generateRandomInt_drawsOf eccPointComputePublicKey_keyNumber

theorem loadPrivkey_host :
    Gives Exact (loadPrivkey hostSecp256k1 keyBytes) (some (0, publicBytes)) := by
  refine loadPrivkey_gives computePublicKey_host ?_
  rw [← validPublicKey_agree bothMachines]
  exact validPublicKey_hypervisor

theorem makeKey_keyBytes : KeyPair publicBytes keyBytes ∧
    (loadPrivkey hostSecp256k1 keyBytes).val = some (0, publicBytes) :=
  makeKey_loads isSecp256k1_hostSecp256k1 makeKey_host.1 makeKey_host.2 loadPrivkey_host.2

theorem keyPair_keyBytes : KeyPair publicBytes keyBytes :=
  (makeKey_spec isSecp256k1_hostSecp256k1 _ makeKey_host.2 _ makeKey_host.1).2

end Keys

/-! ## Signatures -/

section Signatures

variable {w' : Nat} {c : Curve w} {c' : Curve w'} {k : Vli w} {point : EccPoint w}
variable {publicKey privateKey messageHash signature : List UInt8} {Q : Secp}
variable {rng rest rest' : Rng c}

/-- The equation of ECDSA, and that every addition of the loop applies. -/
theorem verify_eq_one_iff (hc : IsSecp256k1 c) (hQ : Encodes publicKey Q) (hne : Q ≠ basePoint)
    (hneg : Q ≠ -basePoint) (hexact : (verify c publicKey messageHash signature).Clean Exact) :
    (verify c publicKey messageHash signature).val = 1 ↔
      Accepts Q (hashNumber messageHash) (signatureR signature) (signatureS signature) ∧
        RegularRun Q (hashNumber messageHash) (signatureR signature) (signatureS signature) :=
  verify_spec hc hQ hne hneg hexact

theorem publicBytes_reduced : ReducedKey publicBytes := by
  decide

theorem verify_hypervisor :
    Gives Exact (verify secp256k1 publicBytes imageHash signatureBytes.val) 1 := by
  rw [verify_agree hypervisor_oneWord publicBytes_reduced]
  exact signatureBytes.property.2

theorem verify_signatureBytes :
    Accepts (privateNumber keyBytes • basePoint) (hashNumber imageHash)
        (signatureR signatureBytes.val) (signatureS signatureBytes.val) ∧
      RegularRun (privateNumber keyBytes • basePoint) (hashNumber imageHash)
        (signatureR signatureBytes.val) (signatureS signatureBytes.val) :=
  have husable := keyPair_keyBytes.usable
  (verify_eq_one_iff isSecp256k1_secp256k1 keyPair_keyBytes.encodes husable.ne_base.1
    husable.ne_base.2 verify_hypervisor.2).mp verify_hypervisor.1

/-- Signed on one machine, verified on the other. -/
theorem sign_then_verify (hc : BothSecp256k1 c c') (hkeys : KeyPair publicKey privateKey)
    {rng : Rng c'} (hsign : (sign c' privateKey messageHash rng).val = some signature)
    (hsignExact : (sign c' privateKey messageHash rng).Clean Exact)
    (hexact : (verify c publicKey messageHash signature).Clean Exact) :
    (verify c publicKey messageHash signature).val = 1 ↔
      (signatureR signature < groupOrder ∧ 0 < signatureS signature) ∧
        RegularRun (privateNumber privateKey • basePoint) (hashNumber messageHash)
          (signatureR signature) (signatureS signature) :=
  verify_signature hc.left hkeys (sign_spec hc.right rng hsignExact _ hsign) hexact

theorem signWithK_gives (hrange : ¬(vliIsZero k || vliCmp c.n k != 1) = true)
    (hx : ¬vliIsZero point.x = true)
    (h : Gives Exact (eccPointMult c c.base (regularScalar c k) none (c.numNBits + 1)) point)
    (hsignature : ((blinding c rng).1.bind fun tmp =>
      signatureWith c privateKey messageHash k tmp point.x) = some signature) :
    Gives Exact (signWithK c privateKey messageHash k rng)
      (some signature, (blinding c rng).2) := by
  unfold signWithK
  rw [if_neg hrange]
  refine h.bind ?_
  rw [if_neg hx, ← hsignature]
  exact gives_pure _

theorem sign_gives (hdraw : generateRandomInt c c.n rng = (some k, rest))
    (h : Gives Exact (signWithK c privateKey messageHash k rest) (some signature, rest')) :
    Gives Exact (sign c privateKey messageHash rng) (some signature) := by
  unfold sign rngMaxTries signLoop
  rw [hdraw]
  exact h.bind (gives_pure _)

theorem sign_host : Gives Exact
    (sign hostSecp256k1 keyBytes imageHash (drawsOf hostSecp256k1)) (some signatureBytes.val) := by
  have hblinding : (blinding oneWord (some [some (drawOf oneWord 7)])).1 = some [7] :=
    congrArg Prod.fst (generateRandomInt_draw isSecp256k1_oneWord (by decide))
  have hx : ¬vliIsZero keyPoint.val.x = true := by
    decide
  rw [sign_agree host_oneWord drawsOf_host]
  refine sign_gives generateRandomInt_drawsOf
    (signWithK_gives keyNumber_range hx keyPoint.property ?_)
  rw [hblinding, Option.bind_some]
  exact signatureBytes.property.1

theorem sign_then_verify_imageHash :
    (signatureR signatureBytes.val < groupOrder ∧ 0 < signatureS signatureBytes.val) ∧
      RegularRun (privateNumber keyBytes • basePoint) (hashNumber imageHash)
        (signatureR signatureBytes.val) (signatureS signatureBytes.val) :=
  (sign_then_verify bothMachines keyPair_keyBytes sign_host.1 sign_host.2 verify_hypervisor.2).mp
    verify_hypervisor.1

/-- Both machines compute the same, products that are missed included. -/
theorem machines_agree :
    (∀ publicKey, validPublicKey secp256k1 publicKey = validPublicKey hostSecp256k1 publicKey) ∧
    (∀ privateKey,
      computePublicKey secp256k1 privateKey = computePublicKey hostSecp256k1 privateKey) ∧
    (∀ publicKey messageHash signature, ReducedKey publicKey →
      verify secp256k1 publicKey messageHash signature =
        verify hostSecp256k1 publicKey messageHash signature) ∧
    ∀ rng rng', SameRng secp256k1 hostSecp256k1 rng rng' →
      makeKey secp256k1 rng = makeKey hostSecp256k1 rng' ∧
      ∀ privateKey messageHash, sign secp256k1 privateKey messageHash rng =
        sign hostSecp256k1 privateKey messageHash rng' := by
  refine ⟨validPublicKey_agree bothMachines, computePublicKey_agree bothMachines, ?_, ?_⟩
  · intro publicKey messageHash signature hkey
    exact verify_agree bothMachines hkey messageHash signature
  · intro rng rng' hrng
    exact ⟨makeKey_agree bothMachines hrng, sign_agree bothMachines hrng⟩

theorem machines_agree_imageHash :
    verify secp256k1 publicBytes imageHash signatureBytes.val =
        verify hostSecp256k1 publicBytes imageHash signatureBytes.val ∧
      sign secp256k1 keyBytes imageHash (drawsOf secp256k1) =
        sign hostSecp256k1 keyBytes imageHash (drawsOf hostSecp256k1) := by
  have hdraws :
      SameRng secp256k1 hostSecp256k1 (drawsOf secp256k1) (drawsOf hostSecp256k1) := by
    refine List.Forall₂.cons (.some ⟨rfl, rfl, ?_⟩) (.cons (.some ⟨rfl, rfl, ?_⟩) .nil)
    · decide
    · decide
  exact ⟨machines_agree.2.2.1 _ _ _ publicBytes_reduced, (machines_agree.2.2.2 _ _ hdraws).2 _ _⟩

end Signatures

end PrplHypervisor.UEcc

namespace PrplHypervisor

open UEcc Ledger Genconf

/-! ## Booting -/

/-- The flash of one VM, from address `0x9D010000` on. -/
def imageConf : Genconf.VmConf where
  vmName := "ping"
  osType := "BARE_METAL"
  devices := []
  fastInterrupts := []
  interruptRedirect := []
  numTlbEntries := 0
  tlb := []
  ramBase := 0
  flashSize := 132
  flashBaseAdd := 0x9D010000

def imageFlash (a : Nat) : UInt8 :=
  (imageBytes ++ (publicBytes ++ signatureBytes.val)).getD (a - 0x9D010000) 0xFF

/-- The context before `sha256_init`. -/
def someCtx : Sha256.Sha256Ctx :=
  { data := fun _ => 0, datalen := 0, bitlen := 0, state := .mk 0 0 0 0 0 0 0 0 }

set_option maxRecDepth 100000 in
theorem vmFlash_imageConf :
    vmFlash imageFlash imageConf = imageBytes ++ (publicBytes ++ signatureBytes.val) := by
  decide +kernel

theorem sha256_imageBytes (ctx : Sha256.Sha256Ctx) :
    Sha256.sha256 ctx [imageBytes] = imageHash := by
  have hdigest : ∀ ctx, Sha256.sha256 ctx [imageBytes] = Sha256.digest imageBytes :=
    fun ctx => libraryCrypto_sha256 oneWord ctx imageBytes
  have hsome : Sha256.sha256 someCtx [imageBytes] = imageHash := by
    decide +kernel
  exact (hdigest ctx).trans ((hdigest someCtx).symm.trans hsome)

section Image

variable {w : Nat} {c : Curve w} {rng : Rng c} {ctx : Sha256.Sha256Ctx} {status : Int}
variable {privateKey publicKey signature image : List UInt8}

theorem ecdsaSignMain_gives
    (hload : Gives Exact (loadPrivkey c privateKey) (some (status, publicKey)))
    (hsign : Gives Exact (sign c privateKey (Sha256.sha256 ctx [image]) rng) (some signature))
    (hverify : Gives Exact (verify c publicKey (Sha256.sha256 ctx [image]) signature) 1) :
    Gives Exact (ecdsaSignMain c ctx image privateKey rng) (some (publicKey ++ signature)) :=
  hload.bind (hsign.bind (hverify.bind (gives_pure _)))

/-- The host signs the image. -/
theorem ecdsaSignMain_host (ctx : Sha256.Sha256Ctx) :
    Gives Exact (ecdsaSignMain hostSecp256k1 ctx imageBytes keyBytes (drawsOf hostSecp256k1))
      (some (publicBytes ++ signatureBytes.val)) := by
  refine ecdsaSignMain_gives loadPrivkey_host ?_ ?_
  · rw [sha256_imageBytes]
    exact sign_host
  · rw [sha256_imageBytes, ← verify_agree bothMachines publicBytes_reduced]
    exact verify_hypervisor

theorem imageFlash_signedBy : SignedBy hostSecp256k1 imageFlash imageConf keyBytes :=
  ⟨by decide, someCtx, imageBytes, drawsOf hostSecp256k1, _, (ecdsaSignMain_host someCtx).1,
    vmFlash_imageConf⟩

/-- The image boots. -/
theorem image_genuine : Genuine (libraryCrypto secp256k1 someCtx) imageFlash imageConf :=
  (signedBy_genuine bothMachines someCtx imageFlash_signedBy).mpr
    ⟨publicBytes, loadPrivkey_host.1⟩

theorem imageConf_ordinary : OrdinaryVm secp256k1 imageFlash imageConf := by
  have hlen : signatureBytes.val.length = 64 := by
    rw [signatureBytes, List.length_append, nativeToBytes_length, nativeToBytes_length]
  obtain ⟨hkey, hsignature, hhash⟩ := vmFlash_parts (by decide)
    (pointToBytes_length isSecp256k1_oneWord keyPoint.val) hlen vmFlash_imageConf
  rw [copyTail_key] at hkey
  have hdigest : Sha256.digest imageBytes = imageHash :=
    (libraryCrypto_sha256 oneWord someCtx imageBytes).symm.trans (sha256_imageBytes someCtx)
  refine ⟨?_, ?_, ?_⟩
  · rw [hkey]
    exact validPublicKey_hypervisor.2
  · rw [hkey, hsignature, hhash, hdigest]
    exact verify_hypervisor.2
  · intro Q hQ
    rw [hkey] at hQ
    rw [hQ.unique keyPair_keyBytes.encodes]
    exact keyPair_keyBytes.usable.ne_base

end Image

section Booting

variable {w w' : Nat} {c : Curve w} {c' : Curve w'} {flash : Nat → UInt8} {confs : List VmConf}

/-- On every flash both builds of the library give the same verdict. -/
theorem isVmTrust_library (hc : BothSecp256k1 c c') (ctx ctx' : Sha256.Sha256Ctx)
    (flash : Nat → UInt8) (confs : List VmConf) :
    isVmTrust (libraryCrypto c ctx) flash confs =
      isVmTrust (libraryCrypto c' ctx') flash confs := by
  induction confs with
  | nil => rfl
  | cons conf confs ih =>
    generalize hkey : copyTail flash conf 128 = key
    have hvalid : (libraryCrypto c ctx).validPublicKey key =
        (libraryCrypto c' ctx').validPublicKey key :=
      congrArg Ledger.val (validPublicKey_agree hc key)
    have hverify : (libraryCrypto c' ctx').validPublicKey key ≠ 0 → ∀ hash signature,
        (libraryCrypto c ctx).verify key hash signature =
          (libraryCrypto c' ctx').verify key hash signature :=
      fun hne hash signature =>
        congrArg Ledger.val (verify_agree hc (reducedKey_of_valid hc.right hne) hash signature)
    simp only [isVmTrust, hashVm, libraryCrypto_sha256, ih, hkey, hvalid]
    split
    · rfl
    · rename_i hne
      rw [hverify hne]

theorem isVmTrust_library_imageConf :
    isVmTrust (libraryCrypto secp256k1 someCtx) imageFlash [imageConf] =
      isVmTrust (libraryCrypto hostSecp256k1 someCtx) imageFlash [imageConf] :=
  isVmTrust_library bothMachines someCtx someCtx imageFlash [imageConf]

/-- Boot continues exactly if every VM is signed with the key it brings. -/
theorem isVmTrust_iff_signed (hc : IsSecp256k1 c) (ctx : Sha256.Sha256Ctx)
    (h : ∀ conf ∈ confs, OrdinaryVm c flash conf) :
    isVmTrust (libraryCrypto c ctx) flash confs = 1 ↔ ∀ conf ∈ confs, SignedVm flash conf := by
  rw [isVmTrust_eq_one]
  exact forall₂_congr fun conf hconf => genuine_iff hc ctx (h conf hconf)

theorem isVmTrust_iff_signed_imageConf : SignedVm imageFlash imageConf := by
  have hboots : isVmTrust (libraryCrypto secp256k1 someCtx) imageFlash [imageConf] = 1 :=
    isVmTrust_eq_one.mpr (List.forall_mem_singleton.mpr image_genuine)
  have hsigned := (isVmTrust_iff_signed isSecp256k1_secp256k1 someCtx
    (List.forall_mem_singleton.mpr imageConf_ordinary)).mp hboots
  exact hsigned imageConf List.mem_cons_self

/-- What was signed boots exactly if `load_privkey` returned zero for every key. -/
theorem signed_images_boot (hc : BothSecp256k1 c c') (ctx : Sha256.Sha256Ctx)
    (key : VmConf → List UInt8) (h : ∀ conf ∈ confs, SignedBy c' flash conf (key conf)) :
    isVmTrust (libraryCrypto c ctx) flash confs = 1 ↔
      ∀ conf ∈ confs, ∃ publicKey, (loadPrivkey c' (key conf)).val = some (0, publicKey) := by
  rw [isVmTrust_eq_one]
  exact forall₂_congr fun conf hconf => signedBy_genuine hc ctx (h conf hconf)

theorem signed_images_boot_imageConf :
    isVmTrust (libraryCrypto secp256k1 someCtx) imageFlash [imageConf] = 1 := by
  refine (signed_images_boot bothMachines someCtx (fun _ => keyBytes) ?_).mpr ?_
  · exact List.forall_mem_singleton.mpr imageFlash_signedBy
  · exact List.forall_mem_singleton.mpr ⟨publicBytes, loadPrivkey_host.1⟩

end Booting

end PrplHypervisor
