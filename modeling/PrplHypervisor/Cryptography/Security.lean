import PrplHypervisor.Kernel.Vm
import PrplHypervisor.Lib.Word32

/-!
# Verification of the VMs at boot (cryptography/security.c)

The flash region of a VM ends with a public key and a signature of 64 bytes each; the
signature is of the hash of everything before them.

- `Crypto`: the functions of the cryptographic library on secp256k1.
- `isVmTrust`: the loop over `VMCONF`, which returns at the first VM it cannot verify.
- `Genuine`: what the loop checks of one VM; `isVmTrust_eq_one`: all VMs pass.

Offsets are 32-bit words, as the `long`s of the source are.
-/

namespace PrplHypervisor

open Word32 Genconf

/-- `uECC_valid_public_key`, `uECC_verify` and the hash, as functions of their inputs. -/
structure Crypto where
  validPublicKey : List UInt8 → Int
  verify : List UInt8 → List UInt8 → List UInt8 → Int
  sha256 : List UInt8 → List UInt8

/-- `lAddrVm[offset]`. -/
def lAddrVm (flash : Nat → UInt8) (conf : VmConf) (offset : Nat) : UInt8 :=
  flash (add32 conf.flashBaseAdd offset)

/-- The 64 bytes copied from `sizeVm - back`. -/
def copyTail (flash : Nat → UInt8) (conf : VmConf) (back : Nat) : List UInt8 :=
  (List.range 64).map fun i => lAddrVm flash conf (add32 (sub32 conf.flashSize back) i)

/-- The hash of the first `sizeHash` bytes. -/
def hashVm (c : Crypto) (flash : Nat → UInt8) (conf : VmConf) : List UInt8 :=
  c.sha256 ((List.range (sub32 conf.flashSize 128)).map (lAddrVm flash conf))

/-- `isVmTrust`. -/
def isVmTrust (c : Crypto) (flash : Nat → UInt8) : List VmConf → Int
  | [] => 1
  | conf :: confs =>
    let publicKey := copyTail flash conf 128
    if c.validPublicKey publicKey = 0 then 0
    else
      let sigReceived := copyTail flash conf 64
      let buf := hashVm c flash conf
      if c.verify publicKey buf sigReceived = 0 then 0 else isVmTrust c flash confs

/-! ## What one VM has to pass -/

/-- The 64 bytes at `flash_base_add + flash_size - 128`. -/
def embeddedKey (flash : Nat → UInt8) (conf : VmConf) : List UInt8 :=
  (List.range 64).map fun i =>
    flash (add32 (sub32 (add32 conf.flashBaseAdd conf.flashSize) 128) i)

/-- The key is valid and the signature is the key's for the hash. -/
def Genuine (c : Crypto) (flash : Nat → UInt8) (conf : VmConf) : Prop :=
  c.validPublicKey (embeddedKey flash conf) ≠ 0 ∧
    c.verify (embeddedKey flash conf) (hashVm c flash conf) (copyTail flash conf 64) ≠ 0

instance (c : Crypto) (flash : Nat → UInt8) (conf : VmConf) : Decidable (Genuine c flash conf) :=
  inferInstanceAs (Decidable (_ ∧ _))

theorem lAddrVm_key (flash : Nat → UInt8) (conf : VmConf) (i : Nat) :
    lAddrVm flash conf (add32 (sub32 conf.flashSize 128) i) =
      flash (add32 (sub32 (add32 conf.flashBaseAdd conf.flashSize) 128) i) := by
  refine congrArg flash ?_
  simp only [add32, sub32, u32]
  omega

theorem copyTail_key (flash : Nat → UInt8) (conf : VmConf) :
    copyTail flash conf 128 = embeddedKey flash conf :=
  List.map_congr_left fun i _ => lAddrVm_key flash conf i

/-- Boot continues exactly if every VM is genuine. -/
theorem isVmTrust_eq_one {c : Crypto} {flash : Nat → UInt8} {confs : List VmConf} :
    isVmTrust c flash confs = 1 ↔ ∀ conf ∈ confs, Genuine c flash conf := by
  induction confs with
  | nil =>
    refine ⟨fun _ _ h => ?_, fun _ => rfl⟩
    cases h
  | cons conf confs ih =>
    rw [List.forall_mem_cons, ← ih]
    simp only [isVmTrust, copyTail_key]
    by_cases hvalid : c.validPublicKey (embeddedKey flash conf) = 0
    · rw [if_pos hvalid]
      exact ⟨fun h => absurd h (by decide), fun ⟨hgen, _⟩ => absurd hvalid hgen.1⟩
    · rw [if_neg hvalid]
      by_cases hsig : c.verify (embeddedKey flash conf) (hashVm c flash conf)
          (copyTail flash conf 64) = 0
      · rw [if_pos hsig]
        exact ⟨fun h => absurd h (by decide), fun ⟨hgen, _⟩ => absurd hsig hgen.2⟩
      · rw [if_neg hsig]
        exact ⟨fun h => ⟨⟨hvalid, hsig⟩, h⟩, And.right⟩

end PrplHypervisor
