import PrplHypervisor.Drivers.Ethernet
import PrplHypervisor.Drivers.Usb
import PrplHypervisor.System.Cases

/-!
# Hypercalls that take a guest pointer

Every handler that maps guest memory, as the transfer it asks for in a given state of
the machine and its drivers. None of them looks at the pointer before mapping it, and
few look at the size before copying.

- `PointerCall.transfer`: the eleven handlers.
- `pointer_calls_confined`: exactly which calls stay in the RAM of the calling VM.
- `sized_calls_bounded`: exactly which calls keep to the buffer on the hypervisor's
  side, or to the size the guest has declared.
-/

namespace PrplHypervisor

open Machine Genconf Layout Word32

variable {n : Nat}

/-- Guest registers a hypercall reads. -/
structure Regs where
  a0 : Word
  a1 : Word
  a2 : Word
  deriving Repr, DecidableEq

/-- State of the drivers, with the addresses the linker and the heap give their
buffers. -/
structure Devices where
  eth : EthPort
  usb : UsbTransferState
  macaddr : Nat
  txBuf : Nat
  bufferTx : Nat
  descriptorData : Nat
  /-- The payload of the message slot in use. -/
  messageSlot : Nat

/-- The hypercalls that call `tlbCreateEntry`. -/
inductive PointerCall where
  | intervmSendMsg | intervmRecvMsg
  | enGetMac
  /-- Followed for a number of iterations of its copying loop. -/
  | receiveFrame (iterations : Nat)
  | sendFrame
  | usbSendData | getDescriptor
  | flashRead | flashWrite
  | getOwnedList | getAllowedVm
  deriving Repr, DecidableEq

/-! ## The handlers -/

/-- `intervm_send_msg` copies after all its checks have passed. -/
def sendTransfer (m : Machine n) (self : Fin n) (slot : Nat) (r : Regs) : Option Transfer :=
  if r.a2.toNat > messageSz then none
  else
    match getVcpuFromId m r.a0.toNat with
    | none => none
    | some t =>
      if (m.vcpu t).init then none
      else if (m.vcpu t).messages.numMessages = messagelistSz then none
      else
        some {
          address := r.a1.toNat
          size := r.a2.toNat
          bytes := memcpyBytes slot (mappedAt r.a1.toNat (m.vm self).baseAddr) r.a2.toNat
          toGuest := false }

/-- `intervm_recv_msg` copies the whole message. -/
def recvTransfer (m : Machine n) (self : Fin n) (slot : Nat) (r : Regs) : Option Transfer :=
  let q := (m.vcpu self).messages
  if q.numMessages = 0 then none
  else
    let messagesz := (q.messageList q.outIdx).size
    some {
      address := r.a0.toNat
      size := messagesz
      bytes := memcpyBytes (mappedAt r.a0.toNat (m.vm self).baseAddr) slot messagesz
      toGuest := true }

/-- `flash_read1Kbuffer` and `flash_write1Kbuffer` move words: a misaligned buffer stops
them at the first one. -/
def flashTransfer (toGuest : Bool) (baseaddr a0 : Nat) : Transfer where
  address := a0
  size := 1024
  bytes := if mappedAt a0 baseaddr % 4 = 0 then 1024 else 0
  toGuest := toGuest

/-- The public key `get_owned_list` and `get_allowed_vm` print and compare. -/
def publicKeyTransfer (a0 : Nat) : Transfer where
  address := a0
  size := 64
  bytes := 64
  toGuest := false

/-- The transfer a call asks for; `none` when it returns without one. -/
def PointerCall.transfer (m : Machine n) (self : Fin n) (d : Devices) (r : Regs) :
    PointerCall → Option Transfer
  | .intervmSendMsg => sendTransfer m self d.messageSlot r
  | .intervmRecvMsg => recvTransfer m self d.messageSlot r
  | .enGetMac => some (PrplHypervisor.enGetMac d.macaddr (m.vm self).baseAddr r.a0.toNat)
  | .receiveFrame iterations =>
    some (PrplHypervisor.receiveFrame d.eth iterations r.a0.toNat)
  | .sendFrame =>
    some (PrplHypervisor.sendFrame d.eth d.txBuf (m.vm self).baseAddr r.a0.toNat r.a1.toNat).2.2
  | .usbSendData =>
    some (PrplHypervisor.usbSendData d.usb d.bufferTx (m.vm self).baseAddr r.a0.toNat
      r.a1.toNat).2.2
  | .getDescriptor =>
    some (PrplHypervisor.getDescriptor d.descriptorData (m.vm self).baseAddr r.a0.toNat
      r.a1.toNat).2
  | .flashRead => some (flashTransfer true (m.vm self).baseAddr r.a0.toNat)
  | .flashWrite => some (flashTransfer false (m.vm self).baseAddr r.a0.toNat)
  | .getOwnedList => some (publicKeyTransfer r.a0.toNat)
  | .getAllowedVm => some (publicKeyTransfer r.a0.toNat)

/-- The send handler copies exactly when the send succeeds. -/
theorem sendTransfer_isSome (m : Machine n) (self : Fin n) (slot : Nat) (r : Regs)
    (src : Nat → UInt8) : (sendTransfer m self slot r).isSome = true ↔
      0 ≤ (intervmSendMsg m self r.a0.toNat r.a2.toNat src).2.1 := by
  unfold sendTransfer intervmSendMsg
  by_cases hsize : r.a2.toNat > messageSz
  · simp [hsize, messageTooBig]
  · rw [if_neg hsize, if_neg hsize]
    cases getVcpuFromId m r.a0.toNat with
    | none => simp [messageVcpuNotFound]
    | some t =>
      dsimp only
      by_cases hinit : (m.vcpu t).init
      · simp [hinit, messageVcpuNotInit]
      · rw [if_neg hinit, if_neg hinit]
        by_cases hfull : (m.vcpu t).messages.numMessages = messagelistSz
        · simp [hfull, messageFull]
        · simp [hfull]

/-! ## A call in progress -/

/-- A hypercall is being handled: the machine of a configuration the generator has
accepted is in a reachable state, VM `i` executes, its row is `row`, and the root TLB
is what startup and earlier hypercalls have left. -/
structure Calling (rows : List (VmConf × VmInfo))
    (m : Machine (initializeMachines (rows.map Prod.fst)).machines.length)
    (i : Fin (initializeMachines (rows.map Prod.fst)).machines.length)
    (row : VmConf × VmInfo) (tlb : RootTlb) : Prop where
  accepted : ∃ vms, genConfVms (some vms) = .ok rows
  reached : ∃ p hlen cpu table tr,
    Reaches p Lts.anyEvent (boot (initializeMachines (rows.map Prod.fst)) hlen cpu table) tr m
  executing : m.executing = some i
  row_eq : rows[i.val]? = some row
  tlb : HypercallTlb (initializeMachines (rows.map Prod.fst)) tlb

section Calling

variable {rows : List (VmConf × VmInfo)}
  {m : Machine (initializeMachines (rows.map Prod.fst)).machines.length}
  {i : Fin (initializeMachines (rows.map Prod.fst)).machines.length}
  {row : VmConf × VmInfo} {tlb : RootTlb}

theorem Calling.isRam (h : Calling rows m i row tlb) : IsRam row.1.ramBase row.2.ramSize := by
  obtain ⟨vms, hacc⟩ := h.accepted
  exact isRam_of_row hacc (List.mem_of_getElem? h.row_eq)

theorem Calling.guestTagged (h : Calling rows m i row tlb) : GuestTagged tlb := by
  obtain ⟨vms, hacc⟩ := h.accepted
  exact h.tlb.guestTagged (genConfVms_built hacc).guestTagged

/-- The VM in execution is the one of its row. -/
theorem Calling.baseAddr (h : Calling rows m i row tlb) :
    (m.vm i).baseAddr = row.1.ramBase := by
  obtain ⟨vms, hacc⟩ := h.accepted
  obtain ⟨p, hlen, cpu, table, tr, hrun⟩ := h.reached
  have hbuilt := genConfVms_built hacc
  have hconf : (rows.map Prod.fst)[i.val]? = some row.1 := by
    rw [List.getElem?_map, h.row_eq]
    rfl
  rw [hrun.vm (boot_initial hbuilt hlen cpu table)]
  exact (hbuilt.machine i.val _ row.1 (List.getElem?_eq_getElem i.isLt) hconf).2.2.1

/-! ## Confinement to the VM's RAM -/

/-- **Which pointer calls are confined.** A call reaches only bytes of the calling VM's
RAM if and only if its transfer fits, which no handler checks. -/
theorem pointer_calls_confined (h : Calling rows m i row tlb) (d : Devices) (r : Regs)
    (call : PointerCall) :
    (∀ t ∈ call.transfer m i d r, ∀ pa ∈ t.physical tlb (m.vm i).baseAddr,
      (physicalRegion (ramRegion row)).Contains pa) ↔
    ∀ t ∈ call.transfer m i d r, t.Fits row.1.ramBase row.2.ramSize := by
  rw [h.baseAddr]
  exact forall₂_congr fun t _ => t.inRam_iff h.isRam h.guestTagged

/-! ## Buffers and declared sizes -/

/-- Bytes a call may move at most: the buffer it copies to in the hypervisor, or the
size the guest has declared for its own. -/
def PointerCall.capacity (r : Regs) : PointerCall → Option Nat
  | .intervmSendMsg => some messageSz
  | .sendFrame => some mtu
  | .usbSendData => some bufferTxSize
  | .getDescriptor => some r.a1.toNat
  | _ => none

/-- A copy of `size` bytes from a mapped pointer into a buffer at `buffer` keeps to
`capacity`: the size does, or `memcpy` takes it for negative, or the mapping ends
before the buffer does. -/
def SizeFits (capacity buffer baseaddr address size : Nat) : Prop :=
  size ≤ capacity ∨
    (0x80000000 ≤ size ∧ (buffer ||| mappedAt address baseaddr ||| size) &&& 3 ≠ 0) ∨
    mappedBytes address size baseaddr ≤ capacity

/-- The condition under which a call keeps to its capacity. -/
def PointerCall.Bounded (d : Devices) (r : Regs) (baseaddr : Nat) : PointerCall → Prop
  | .sendFrame => SizeFits mtu d.txBuf baseaddr r.a0.toNat r.a1.toNat
  | .usbSendData => SizeFits bufferTxSize d.bufferTx baseaddr r.a0.toNat r.a1.toNat
  | .getDescriptor => descriptorReceiveSize ≤ r.a1.toNat ∨
      mappedBytes r.a0.toNat r.a1.toNat baseaddr ≤ r.a1.toNat
  | _ => True

theorem memcpyBytes_le_iff {dst src bytes limit : Nat} (h : bytes < 2 ^ 32) :
    memcpyBytes dst src bytes ≤ limit ↔
      bytes ≤ limit ∨ (0x80000000 ≤ bytes ∧ (dst ||| src ||| bytes) &&& 3 ≠ 0) := by
  by_cases hsmall : bytes < 0x80000000
  · rw [memcpyBytes_of_lt hsmall]
    constructor
    · exact Or.inl
    · rintro (hle | ⟨hbig, -⟩)
      · exact hle
      · omega
  · unfold memcpyBytes signedCount
    by_cases hal : (dst ||| src ||| bytes) &&& 3 ≠ 0
    · rw [if_pos hal, if_neg hsmall]
      exact iff_of_true (Nat.zero_le _) (Or.inr ⟨Nat.le_of_not_lt hsmall, hal⟩)
    · rw [if_neg hal, Nat.shiftRight_eq_div_pow, if_pos (by omega)]
      have hmod : bytes % 4 = 0 := by
        rw [not_not, Nat.and_or_distrib_right, Nat.or_eq_zero_iff] at hal
        rw [← hal.2]
        exact (Nat.and_two_pow_sub_one_eq_mod bytes 2).symm
      rw [show 4 * (bytes / 2 ^ 2) = bytes by omega]
      simp [hal]

/-- A send that copies has a size that fits the slot. -/
theorem sendTransfer_bytes {slot : Nat} {r : Regs} {t : Transfer}
    (ht : sendTransfer m i slot r = some t) : t.bytes ≤ messageSz := by
  unfold sendTransfer at ht
  by_cases hsize : r.a2.toNat > messageSz
  · rw [if_pos hsize] at ht
    cases ht
  · rw [if_neg hsize] at ht
    split at ht
    case h_1 => cases ht
    case h_2 v _ =>
      have hle : r.a2.toNat ≤ messageSz := Nat.le_of_not_gt hsize
      by_cases hinit : (m.vcpu v).init
      · rw [if_pos hinit] at ht
        cases ht
      · rw [if_neg hinit] at ht
        by_cases hfull : (m.vcpu v).messages.numMessages = messagelistSz
        · rw [if_pos hfull] at ht
          cases ht
        · rw [if_neg hfull] at ht
          obtain rfl := Option.some.inj ht
          exact (memcpyBytes_le_iff r.a2.isLt).mpr (Or.inl hle)

/-- **Which sized calls keep to their buffers.** A call that takes a size from the guest
moves no more bytes than it may if and only if it is bounded: of the four, only
`intervm_send_msg` checks the size before it copies. -/
theorem sized_calls_bounded (h : Calling rows m i row tlb) (d : Devices) (r : Regs)
    (call : PointerCall) (capacity : Nat) (hcap : call.capacity r = some capacity) :
    (∀ t ∈ call.transfer m i d r,
      (t.physical tlb (m.vm i).baseAddr).length ≤ capacity) ↔
    call.Bounded d r (m.vm i).baseAddr := by
  rw [h.baseAddr]
  have hlength : ∀ t : Transfer, (t.physical tlb row.1.ramBase).length ≤ capacity ↔
      t.bytes ≤ capacity ∨ mappedBytes t.address t.size row.1.ramBase ≤ capacity := by
    intro t
    rw [t.length_physical h.isRam h.guestTagged]
    omega
  -- each call with its own buffer
  simp only [hlength]
  cases call with
  | intervmSendMsg =>
    obtain rfl := Option.some.inj hcap
    exact iff_of_true (fun t ht => Or.inl (sendTransfer_bytes ht)) trivial
  | sendFrame =>
    obtain rfl := Option.some.inj hcap
    simp only [PointerCall.transfer, Option.mem_some_iff, forall_eq', h.baseAddr, sendFrame,
      sendFrameTransfer, PointerCall.Bounded, SizeFits, memcpyBytes_le_iff r.a1.isLt, or_assoc]
  | usbSendData =>
    obtain rfl := Option.some.inj hcap
    simp only [PointerCall.transfer, Option.mem_some_iff, forall_eq', h.baseAddr, usbSendData,
      usbSendTransfer, PointerCall.Bounded, SizeFits, memcpyBytes_le_iff r.a1.isLt, or_assoc]
  | getDescriptor =>
    obtain rfl := Option.some.inj hcap
    have hsize : descriptorReceiveSize < 0x80000000 := by decide
    simp only [PointerCall.transfer, Option.mem_some_iff, forall_eq', h.baseAddr, getDescriptor,
      PointerCall.Bounded, memcpyBytes_of_lt hsize]
  | intervmRecvMsg | enGetMac | receiveFrame | flashRead | flashWrite | getOwnedList
  | getAllowedVm => cases hcap

end Calling

/-! ## Two VMs of 32 KB -/

/-- `ping` in execution for the first time. -/
def pingPongRunning : Machine 2 :=
  ((Lts.exec (step ⟨1, 30000⟩) Lts.anyEvent pingPongMachine [.timer 0 0 0]).get (by decide)).1

/-- Drivers at rest. -/
def idleDevices : Devices where
  eth := { isUp := false, rxDesc := fun _ => ⟨0, 0, 0, 0⟩, txDesc := ⟨0, 0, 0, 0⟩,
           receiveIndex := 0, transmitting := false }
  usb := .idle
  macaddr := 0x80001000
  txBuf := 0x80002000
  bufferTx := 0x80003000
  descriptorData := 0x80003100
  messageSlot := 0x80004000

/-- The TLB built for `pingPong`. -/
def pingPongTlb : RootTlb := (initializeMachines (pingPongRows.map Prod.fst)).tlb

theorem calling_pingPong :
    Calling pingPongRows pingPongRunning (0 : Fin 2) (pingPongRows.get ⟨0, by decide⟩)
      pingPongTlb where
  accepted := ⟨pingPong, pingPong_accepted⟩
  reached := ⟨_, rfl, _, [], _, Lts.exec_run (by decide)⟩
  executing := by decide
  row_eq := rfl
  tlb := .startup

/-- A message `ping` sends to itself from just above its RAM is read from the RAM of
`pong`. -/
theorem pointer_escapes_pingPong :
    Calling pingPongRows pingPongRunning (0 : Fin 2) (pingPongRows.get ⟨0, by decide⟩)
      pingPongTlb ∧
    ∃ t ∈ PointerCall.intervmSendMsg.transfer pingPongRunning 0 idleDevices ⟨1, 0x80008000, 4⟩,
      ∃ pa ∈ t.physical pingPongTlb (pingPongRunning.vm 0).baseAddr,
        ¬ (physicalRegion (ramRegion (pingPongRows.get ⟨0, by decide⟩))).Contains pa ∧
        (physicalRegion (ramRegion (pingPongRows.get ⟨1, by decide⟩))).Contains pa :=
  ⟨calling_pingPong, _, rfl, 0x10000, by decide, by decide, by decide⟩

/-- From the start of its RAM it is read from its own. -/
theorem pointer_calls_confined_pingPong :
    (PointerCall.intervmSendMsg.transfer pingPongRunning 0 idleDevices
      ⟨1, 0x80000000, 4⟩).isSome = true ∧
    ∀ t ∈ PointerCall.intervmSendMsg.transfer pingPongRunning 0 idleDevices ⟨1, 0x80000000, 4⟩,
      ∀ pa ∈ t.physical pingPongTlb (pingPongRunning.vm 0).baseAddr,
        (physicalRegion (ramRegion (pingPongRows.get ⟨0, by decide⟩))).Contains pa := by
  have hsent := (sendTransfer_isSome pingPongRunning 0 idleDevices.messageSlot ⟨1, 0x80000000, 4⟩
    fun _ => 0).mpr (by decide)
  refine ⟨hsent, (pointer_calls_confined calling_pingPong idleDevices ⟨1, 0x80000000, 4⟩
    .intervmSendMsg).mpr fun t ht => ?_⟩
  obtain rfl := Option.some.inj ht
  decide

/-- A frame of 2000 bytes overruns `tx_buf`. -/
theorem frame_overruns_pingPong :
    Calling pingPongRows pingPongRunning (0 : Fin 2) (pingPongRows.get ⟨0, by decide⟩)
      pingPongTlb ∧
    ∃ t ∈ PointerCall.sendFrame.transfer pingPongRunning 0 idleDevices ⟨0x80000000, 2000, 0⟩,
      mtu < (t.physical pingPongTlb (pingPongRunning.vm 0).baseAddr).length := by
  refine ⟨calling_pingPong, _, rfl, ?_⟩
  rw [calling_pingPong.baseAddr,
    Transfer.length_physical calling_pingPong.isRam calling_pingPong.guestTagged]
  decide

/-- One of 100 bytes does not. -/
theorem sized_calls_bounded_pingPong :
    (PointerCall.sendFrame.transfer pingPongRunning 0 idleDevices
      ⟨0x80000000, 100, 0⟩).isSome = true ∧
    ∀ t ∈ PointerCall.sendFrame.transfer pingPongRunning 0 idleDevices ⟨0x80000000, 100, 0⟩,
      (t.physical pingPongTlb (pingPongRunning.vm 0).baseAddr).length ≤ mtu :=
  ⟨rfl, (sized_calls_bounded calling_pingPong idleDevices ⟨0x80000000, 100, 0⟩ .sendFrame mtu
    rfl).mpr (Or.inl (by decide))⟩

end PrplHypervisor
