import PrplHypervisor.Cryptography.Security
import PrplHypervisor.Drivers.Mapping

/-!
# VMs of a key (drivers/pic32mz-remote-connection.c, drivers/pic32mz-vm-update.c)

Two hypercalls count the VMs that belong to a public key. Both walk the list of VMs and
repeat for each what `isVmTrust` did at boot, but compare the key first and leave at the
first byte that differs.

- `verifyVm`: the check, of which the two drivers have a copy each.
- `getOwnedList`, `getAllowedVm`: the hypercalls; one counts, the other adds up.
- `verification_paths_agree`: after a successful boot both return the number of VMs in
  whose flash the key is found.
-/

namespace PrplHypervisor

open Word32 Genconf

/-- The copy of the key from flash, given up at the first byte that is not the caller's. -/
def copyKey (flash : Nat → UInt8) (conf : VmConf) (publicKey : Nat → UInt8) :
    Option (List UInt8) :=
  (List.range 64).foldlM (fun testkey i =>
    let byte := lAddrVm flash conf (add32 (sub32 conf.flashSize 128) i)
    if publicKey i ≠ byte then none else some (testkey ++ [byte])) []

/-- The body of `verifyPublicKey` and of `verifyPublicKey3`. -/
def verifyVm (c : Crypto) (flash : Nat → UInt8) (vm : Vm) (publicKey : Nat → UInt8) : Nat :=
  match copyKey flash vm.vmconf publicKey with
  | none => 0
  | some testkey =>
    if c.validPublicKey testkey = 0 then 0
    else
      let sigReceived := copyTail flash vm.vmconf 64
      let buf := hashVm c flash vm.vmconf
      let verified := c.verify testkey buf sigReceived
      if verified = 0 then 0 else 1

/-- `verifyPublicKey` of the remote connection. -/
def verifyPublicKey (c : Crypto) (flash : Nat → UInt8) (vm : Vm) (publicKey : Nat → UInt8) : Nat :=
  verifyVm c flash vm publicKey

/-- `verifyPublicKey3` of the VM update. -/
def verifyPublicKey3 (c : Crypto) (flash : Nat → UInt8) (vm : Vm) (publicKey : Nat → UInt8) :
    Nat :=
  verifyVm c flash vm publicKey

/-- The guest's key: its pointer is mapped, and `load` is what the hypervisor reads
through the TLB. -/
def receivedKey (load : RootTlb → Nat → UInt8) (tlb : RootTlb) (vmExecuting : Vm) (a0 : Nat) :
    Nat → UInt8 :=
  let (tlb', testkey) := tlbCreateEntry tlb a0 vmExecuting.baseAddr 64 hypercallSlot cacheable
  fun i => load tlb' (add32 testkey i)

/-- `get_owned_list`: the value left in `v0`. -/
def getOwnedList (c : Crypto) (flash : Nat → UInt8) (load : RootTlb → Nat → UInt8) (tlb : RootTlb)
    (vmExecuting : Vm) (virtualMachinesList : List Vm) (a0 : Nat) : Nat :=
  let testkey := receivedKey load tlb vmExecuting a0
  virtualMachinesList.foldl (fun ret vm =>
    if verifyPublicKey c flash vm testkey ≠ 0 then ret + 1 else ret) 0

/-- `get_allowed_vm`: the value left in `v0`. -/
def getAllowedVm (c : Crypto) (flash : Nat → UInt8) (load : RootTlb → Nat → UInt8) (tlb : RootTlb)
    (vmExecuting : Vm) (virtualMachinesList : List Vm) (a0 : Nat) : Nat :=
  let testkey := receivedKey load tlb vmExecuting a0
  virtualMachinesList.foldl (fun ret vm =>
    let valid := verifyPublicKey3 c flash vm testkey
    ret + valid) 0

/-! ## The check of one VM -/

section Check

variable (c : Crypto) (flash : Nat → UInt8)

/-- A copy that gives up at a difference is a comparison. -/
theorem foldlM_copy (key source : Nat → UInt8) (len : Nat) :
    (List.range len).foldlM (fun copied i =>
      if key i ≠ source i then none else some (copied ++ [source i])) [] =
      if (List.range len).map source = (List.range len).map key then
        some ((List.range len).map source) else none := by
  induction len with
  | zero => rfl
  | succ len ih =>
    rw [List.range_succ, List.foldlM_append, ih, List.map_append, List.map_append]
    by_cases heq : (List.range len).map source = (List.range len).map key
    · rw [if_pos heq, heq]
      by_cases hlast : key len = source len
      · simp [hlast]
      · simp [hlast, Ne.symm hlast]
    · -- the first `len` bytes differ already, and the lists are equally long
      have hne : ¬ ((List.range len).map source ++ [len].map source =
          (List.range len).map key ++ [len].map key) := fun h =>
        heq (List.append_inj_left h (by simp))
      rw [if_neg heq, if_neg hne]
      rfl

theorem copyKey_eq (conf : VmConf) (publicKey : Nat → UInt8) :
    copyKey flash conf publicKey =
      if embeddedKey flash conf = (List.range 64).map publicKey then
        some (embeddedKey flash conf) else none := by
  simp only [copyKey, lAddrVm_key]
  exact foldlM_copy publicKey _ 64

/-- The check accepts a VM exactly if the key is the VM's and the VM is genuine. -/
theorem verifyVm_eq (vm : Vm) (publicKey : Nat → UInt8) :
    verifyVm c flash vm publicKey =
      if embeddedKey flash vm.vmconf = (List.range 64).map publicKey ∧ Genuine c flash vm.vmconf
      then 1 else 0 := by
  rw [verifyVm, copyKey_eq]
  by_cases hkey : embeddedKey flash vm.vmconf = (List.range 64).map publicKey
  · rw [if_pos hkey]
    show (if _ then 0 else if _ then 0 else 1) = _
    by_cases hvalid : c.validPublicKey (embeddedKey flash vm.vmconf) = 0
    · rw [if_pos hvalid, if_neg fun h => h.2.1 hvalid]
    · rw [if_neg hvalid]
      by_cases hsig : c.verify (embeddedKey flash vm.vmconf) (hashVm c flash vm.vmconf)
          (copyTail flash vm.vmconf 64) = 0
      · rw [if_pos hsig, if_neg fun h => h.2.2 hsig]
      · rw [if_neg hsig, if_pos ⟨hkey, hvalid, hsig⟩]
  · rw [if_neg hkey, if_neg fun h => hkey h.1]

/-- Counting with an addend of one or zero. -/
theorem foldl_count {α : Type} (p : α → Prop) [DecidablePred p] (l : List α) (start : Nat) :
    l.foldl (fun ret x => ret + if p x then 1 else 0) start = start + l.countP (p ·) := by
  induction l generalizing start with
  | nil => rfl
  | cons x l ih =>
    rw [List.foldl_cons, ih, List.countP_cons]
    simp only [decide_eq_true_eq]
    omega

/-- VMs the key belongs to. -/
def ownedVms (confs : List VmConf) (k : List UInt8) : Nat :=
  confs.countP fun conf => embeddedKey flash conf = k ∧ Genuine c flash conf

variable (load : RootTlb → Nat → UInt8) (tlb : RootTlb) (vmExecuting : Vm) (vms : List Vm)
  (a0 : Nat)

theorem getAllowedVm_eq : getAllowedVm c flash load tlb vmExecuting vms a0 =
    ownedVms c flash (vms.map (·.vmconf))
      ((List.range 64).map (receivedKey load tlb vmExecuting a0)) := by
  simp only [getAllowedVm, verifyPublicKey3, verifyVm_eq, foldl_count, ownedVms, List.countP_map,
    Nat.zero_add]
  rfl

/-- The two hypercalls always agree, also on VMs that are not genuine. -/
theorem getOwnedList_eq : getOwnedList c flash load tlb vmExecuting vms a0 =
    getAllowedVm c flash load tlb vmExecuting vms a0 := by
  have hbody : (fun (ret : Nat) vm =>
      if verifyPublicKey c flash vm (receivedKey load tlb vmExecuting a0) ≠ 0 then ret + 1
      else ret) = fun ret vm =>
        ret + verifyPublicKey3 c flash vm (receivedKey load tlb vmExecuting a0) := by
    funext ret vm
    simp only [verifyPublicKey, verifyPublicKey3, verifyVm_eq]
    split <;> simp
  simp only [getOwnedList, getAllowedVm, hbody]

end Check

/-- **The three verifications agree.** If boot accepts the VMs, both hypercalls answer
every key with the number of VMs in whose flash it is. -/
theorem verification_paths_agree (c : Crypto) (flash : Nat → UInt8) (confs : List VmConf)
    (htrust : isVmTrust c flash confs = 1) (load : RootTlb → Nat → UInt8) (tlb : RootTlb)
    (vmExecuting : Vm) (a0 : Nat) (k : List UInt8)
    (hk : (List.range 64).map (receivedKey load tlb vmExecuting a0) = k) :
    getOwnedList c flash load tlb vmExecuting (initializeMachines confs).machines a0 =
        confs.countP (embeddedKey flash · = k) ∧
      getAllowedVm c flash load tlb vmExecuting (initializeMachines confs).machines a0 =
        confs.countP (embeddedKey flash · = k) := by
  have hcount : ownedVms c flash confs k = confs.countP (embeddedKey flash · = k) := by
    refine List.countP_congr ?_
    intro conf hconf
    have hgen := isVmTrust_eq_one.mp htrust conf hconf
    simp only [hgen, and_true]
  rw [getOwnedList_eq, getAllowedVm_eq, initializeMachines_vmconf, hk, hcount]
  exact ⟨rfl, rfl⟩

/-- Byte `i` of a number of 64 bytes, the first being the highest. -/
def byteOf (x i : Nat) : UInt8 := UInt8.ofNat (x >>> (8 * (63 - i)))

/-- The public key of the secret key 42. -/
def sampleKey : Nat :=
  0xfe8d1eb1bcb3432b1db5833ff5f2226d9cb5e65cee430558c18ed3a3c86ce1af * 2 ^ 256 +
    0x07b158f244cd0de2134ac7c1d371cffbfae4db40801a2572e531c573cda9b5b4

/-- Its signature of an erased region of 32 KB. -/
def sampleSignature : Nat :=
  0x5cbdf0646e5db4eaa398f365f2ea7a0e3d419b7e0330e39ce92bddedcac4f9bc * 2 ^ 256 +
    0x6f955728a9865289209f7891f7c59874446406826c545fae10f8fca8418699a9

/-- The hash of that region. -/
def sampleHash : List UInt8 :=
  (List.range 32).map fun i =>
    UInt8.ofNat (0xd5ebf1a2874c93410d445d43ebef24c74cd9e29b56f9690cf34b4cbd191e8b14 >>>
      (8 * (31 - i)))

/-- Erased regions of 32 KB, each with the key and the signature at its end. -/
def sampleFlash (a : Nat) : UInt8 :=
  let offset := a % 0x8000
  if offset < 0x7F80 then 0xFF
  else if offset < 0x7FC0 then byteOf sampleKey (offset - 0x7F80)
  else byteOf sampleSignature (offset - 0x7FC0)

/-- The library on the sample's inputs. -/
def sampleCrypto : Crypto where
  validPublicKey key := if key = (List.range 64).map (byteOf sampleKey) then 1 else 0
  verify key hash signature :=
    if key = (List.range 64).map (byteOf sampleKey) ∧ hash = sampleHash ∧
      signature = (List.range 64).map (byteOf sampleSignature) then 1 else 0
  sha256 _ := sampleHash

/-- Two VMs of one owner: the owner's key is found twice. -/
theorem verification_paths_agree_pingPong :
    ∃ mach, (initializeMachines (pingPongRows.map Prod.fst)).machines[0]? = some mach ∧
      getOwnedList sampleCrypto sampleFlash (fun _ a => byteOf sampleKey (a % 64)) (fun _ => none)
        mach (initializeMachines (pingPongRows.map Prod.fst)).machines 0x80000000 = 2 ∧
      getAllowedVm sampleCrypto sampleFlash (fun _ a => byteOf sampleKey (a % 64)) (fun _ => none)
        mach (initializeMachines (pingPongRows.map Prod.fst)).machines 0x80000000 = 2 := by
  have htrust : isVmTrust sampleCrypto sampleFlash (pingPongRows.map Prod.fst) = 1 := by
    decide +kernel
  have hcount : (pingPongRows.map Prod.fst).countP
      (embeddedKey sampleFlash · = (List.range 64).map (byteOf sampleKey)) = 2 := by
    decide +kernel
  refine ⟨_, rfl, ?_⟩
  rw [← hcount]
  exact verification_paths_agree _ _ _ htrust _ _ _ _ _ (by decide +kernel)

end PrplHypervisor
