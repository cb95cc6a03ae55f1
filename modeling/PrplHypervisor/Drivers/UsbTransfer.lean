import PrplHypervisor.Drivers.UsbHost

/-!
# Sending data to the device (drivers/pic32mz-usb.c)

`usb_send_data` tells a guest that the driver is busy and goes on to copy the guest's bytes
over those of the transfer in progress, which it starts again. The driver sends three
bytes whatever has been submitted.

- `UsbSendCall`, `usbSendCall`: the hypercall with its registers.
- `Refused`: what a busy call ought to do.
- `Transferring`, `transferStep`: the driver with the bytes of the accepted call and those
  sent since.
- `FaithfulTransfer`: what has been sent is what was submitted.
- `busy_transfer_kept`: a busy call is refused only where the size it passes happens to be
  the code; without others, and with three bytes a call, every run is faithful.
-/

namespace PrplHypervisor

open Word32

/-- A call of `usb_send_data`: the base address of its VM, `a0` and `a1`, and the memory at
the guest's buffer. -/
structure UsbSendCall where
  baseaddr : Nat
  buf : Nat
  size : Nat
  size_lt : size < 2 ^ 32
  data : Nat → UInt8

/-- The bytes submitted by a call. -/
def UsbSendCall.submitted (c : UsbSendCall) : List UInt8 := (List.range c.size).map c.data

/-- `usb_send_data` with `buffer_tx` at address `bufferTx`, and what it writes to `v0`. -/
def usbSendCall (bufferTx : Nat) (s : UsbHost) (c : UsbSendCall) : UsbHost × List Int :=
  let (transfer, v0, copy) := usbSendData s.transfer bufferTx c.baseaddr c.buf c.size
  ({ s with
      bufferTx := fun a => if a < copy.bytes then c.data a else s.bufferTx a
      transfer := transfer }, v0)

/-- Below 2 GB the whole buffer is copied, and the call is that of the port. -/
theorem usbSendCall_eq (bufferTx : Nat) (s : UsbHost) (c : UsbSendCall) (h : c.size < 0x80000000) :
    s.usbSendData c.size c.data =
      ((usbSendCall bufferTx s c).1, (usbSendCall bufferTx s c).2.map .v0) := by
  refine Prod.ext ?_ ?_
  · simp only [usbSendCall, usbSendData, usbSendTransfer, memcpyBytes_of_lt h, UsbHost.usbSendData]
  · by_cases hidle : s.transfer = .idle <;>
      simp [usbSendCall, usbSendData, UsbHost.usbSendData, hidle]

/-- A register with the value `v`. -/
def registerOf (v : Int) : Nat := (v % 2 ^ 32).toNat

/-- The call returns `HCALL_USB_BUSY` and leaves the transfer alone. -/
structure Refused (bufferTx : Nat) (s : UsbHost) (c : UsbSendCall) : Prop where
  v0 : (usbSendCall bufferTx s c).2.getLast?.map registerOf = some (registerOf hcallUsbBusy)
  buffer : (usbSendCall bufferTx s c).1.bufferTx = s.bufferTx
  transfer : (usbSendCall bufferTx s c).1.transfer = s.transfer
  sentSz : (usbSendCall bufferTx s c).1.sentSz = s.sentSz

/-- `HCALL_USB_BUSY` as a size. -/
def busySize : Nat := 0xfffffffb

/-- The driver, the bytes of the call accepted last, and those sent since. -/
structure Transferring where
  host : UsbHost
  submitted : List UInt8
  sent : List UInt8

inductive TransferEvent where
  | polling (r : UsbReadings)
  | interrupt (f : UsbFlags)
  | sendData (c : UsbSendCall)

/-- The data a poll sends. -/
def dataSent : List UsbObs → List UInt8
  | [] => []
  | .dataSent _ bytes :: os => bytes ++ dataSent os
  | _ :: os => dataSent os

/-- One event. A call is accepted when no transfer is in progress. -/
def transferStep (bufferTx : Nat) (s : Transferring) :
    TransferEvent → Option (Transferring × List Unit)
  | .polling r =>
    let p := s.host.usbPolling r
    some ({ s with host := p.1, sent := s.sent ++ dataSent p.2 }, [])
  | .interrupt f => some ({ s with host := s.host.usbIntHandler f }, [])
  | .sendData c =>
    let host := (usbSendCall bufferTx s.host c).1
    if s.host.transfer = .idle then some (⟨host, c.submitted, []⟩, [])
    else some ({ s with host := host }, [])

/-- What has been sent is the beginning of what was submitted, and in the end all of it. -/
structure FaithfulTransfer (s : Transferring) : Prop where
  beginning : s.sent <+: s.submitted
  complete : s.host.transfer = .done → s.sent = s.submitted

/-- No call disturbs a transfer, and every call accepted has three bytes. -/
def Orderly (s : Transferring) : TransferEvent → Prop
  | .sendData c =>
    if s.host.transfer = .idle then c.size = 3
    else s.host.transfer = .start ∧ c.size = busySize
  | .polling _ | .interrupt _ => True

instance : DecidableRel Orderly := fun s e =>
  match e with
  | .sendData c =>
    inferInstanceAs (Decidable (if s.host.transfer = .idle then c.size = 3
      else s.host.transfer = .start ∧ c.size = busySize))
  | .polling _ | .interrupt _ => .isTrue trivial

/-! ## A busy call -/

section Busy

variable {bufferTx : Nat} {s : UsbHost} {c : UsbSendCall}

/-- Nothing is copied for the size that looks like the code. -/
theorem usbSendCall_busySize (h : c.size = busySize) :
    (usbSendCall bufferTx s c).1.bufferTx = s.bufferTx := by
  have hbytes : memcpyBytes bufferTx (mappedAt c.buf c.baseaddr) busySize = 0 := by
    -- the size is odd, so that the signed count of bytes is tested
    have hodd : (bufferTx ||| mappedAt c.buf c.baseaddr ||| busySize) &&& 3 ≠ 0 := by
      rw [Nat.and_or_distrib_right]
      intro hzero
      exact absurd (Nat.or_eq_zero_iff.mp hzero).2 (by decide)
    rw [memcpyBytes, if_pos hodd]
    rfl
  funext a
  show (if a < memcpyBytes bufferTx (mappedAt c.buf c.baseaddr) c.size then c.data a
    else s.bufferTx a) = s.bufferTx a
  rw [h, hbytes, if_neg (Nat.not_lt_zero a)]

theorem refused_iff : Refused bufferTx s c ↔ s.transfer = .start ∧ c.size = busySize := by
  have hv0 : (usbSendCall bufferTx s c).2.getLast?.map registerOf = some c.size := by
    have hsize : registerOf c.size = c.size := by
      have hlt := c.size_lt
      unfold registerOf
      omega
    rw [usbSendCall, usbSendData, List.getLast?_concat, Option.map_some, hsize]
  constructor
  · intro h
    have hsize := h.v0
    rw [hv0] at hsize
    exact ⟨h.transfer.symm, Option.some.inj hsize⟩
  · rintro ⟨hstart, hsize⟩
    refine ⟨?_, usbSendCall_busySize hsize, hstart.symm, rfl⟩
    rw [hv0, hsize]
    rfl

end Busy

/-! ## Runs -/

/-- What is known about the bytes in each state of a transfer. -/
def Sound (s : Transferring) : Prop :=
  match s.host.transfer with
  | .idle => s.sent <+: s.submitted
  | .start => s.sent = [] ∧ s.submitted = (List.range 3).map s.host.bufferTx
  | .sending => s.sent = [] ∧ s.submitted = (List.range 3).map s.host.bufferTx ∧
      s.host.sentSz = 0
  | .done => s.sent = s.submitted
  | .waitTxInt | .intVm => False

theorem Sound.faithful {s : Transferring} (h : Sound s) : FaithfulTransfer s := by
  unfold Sound at h
  cases hstate : s.host.transfer with
  | idle =>
    rw [hstate] at h
    exact ⟨h, fun hdone => by rw [hstate] at hdone; cases hdone⟩
  | start | sending =>
    rw [hstate] at h
    exact ⟨h.1 ▸ List.nil_prefix, fun hdone => by rw [hstate] at hdone; cases hdone⟩
  | done =>
    rw [hstate] at h
    exact ⟨h ▸ List.prefix_rfl, fun _ => h⟩
  | waitTxInt | intVm =>
    rw [hstate] at h
    exact h.elim

section Step

variable {bufferTx : Nat} {s s' : Transferring} {e : TransferEvent} {r : UsbReadings}

theorem dataSent_append (os os' : List UsbObs) :
    dataSent (os ++ os') = dataSent os ++ dataSent os' := by
  induction os with
  | nil => rfl
  | cons o os ih => cases o <;> simp [dataSent, ih]

/-- Bringing a device up has nothing to do with transfers. -/
theorem updateStateMachine_transfer (s : UsbHost) (r : UsbReadings) :
    (s.updateStateMachine r).1.transfer = s.transfer ∧
      (s.updateStateMachine r).1.bufferTx = s.bufferTx ∧
      (s.updateStateMachine r).1.sentSz = s.sentSz ∧
      dataSent (s.updateStateMachine r).2 = [] := by
  have hadv : (s.advance r).1.transfer = s.transfer ∧ (s.advance r).1.bufferTx = s.bufferTx ∧
      (s.advance r).1.sentSz = s.sentSz ∧ dataSent (s.advance r).2 = [] := by
    unfold UsbHost.advance
    cases s.state with
    | waitDescriptor =>
      dsimp only
      split
      · split <;> exact ⟨rfl, rfl, rfl, rfl⟩
      · exact ⟨rfl, rfl, rfl, rfl⟩
    | debounce | usbReset | afterResetDelay | readDescriptor =>
      dsimp only
      split <;> exact ⟨rfl, rfl, rfl, rfl⟩
    | idle =>
      refine ⟨rfl, rfl, rfl, ?_⟩
      dsimp only
      split <;> rfl
    | requestDescriptor | waitTxInt | handshake | running | vbusError | generalError =>
      exact ⟨rfl, rfl, rfl, rfl⟩
  unfold UsbHost.updateStateMachine
  split
  · refine ⟨hadv.1, hadv.2.1, hadv.2.2.1, ?_⟩
    rw [dataSent_append, hadv.2.2.2]
    rfl
  · exact hadv

/-- Only the transfer, its buffer and its progress matter. -/
theorem Sound.congr (hs : Sound s) {host : UsbHost} (ht : host.transfer = s.host.transfer)
    (hb : host.bufferTx = s.host.bufferTx) (hz : host.sentSz = s.host.sentSz) :
    Sound { s with host := host } := by
  unfold Sound at hs ⊢
  rw [ht, hb, hz]
  exact hs

/-- A poll moves a transfer on, and sends its three bytes in one packet. -/
theorem Sound.polling (hs : Sound s) (r : UsbReadings) :
    Sound { s with
      host := (s.host.usbPolling r).1, sent := s.sent ++ dataSent (s.host.usbPolling r).2 } := by
  unfold UsbHost.usbPolling
  dsimp only
  rw [dataSent_append]
  by_cases hrun : s.host.state = .running
  · rw [if_pos hrun, UsbHost.updateTransferStateMachine]
    cases htransfer : s.host.transfer with
    | idle =>
      simp only [dataSent, List.append_nil]
      exact hs
    | start =>
      simp only [Sound, htransfer] at hs
      simp only [dataSent, List.append_nil]
      exact ⟨hs.1, hs.2, rfl⟩
    | sending =>
      simp only [Sound, htransfer] at hs
      obtain ⟨hsent, hsubmitted, hzero⟩ := hs
      have hthree : (s.host.dataPacketSent 3).1.sentSz > 2 := by
        rw [UsbHost.dataPacketSent, hzero]
        show 0 + min 8 (3 - 0) > 2
        decide
      dsimp only
      rw [if_pos hthree]
      show s.sent ++ _ = s.submitted
      rw [hsent, hsubmitted, UsbHost.dataPacketSent, hzero]
      simp [dataSent]
    | done =>
      simp only [Sound, htransfer] at hs
      simp only [dataSent, List.append_nil]
      exact hs ▸ List.prefix_rfl
    | waitTxInt | intVm =>
      simp only [Sound, htransfer] at hs
  · obtain ⟨ht, hb, hz, hnone⟩ := updateStateMachine_transfer s.host r
    rw [if_neg hrun, hnone]
    simp only [dataSent, List.append_nil]
    exact hs.congr ht hb hz

theorem usbIntHandler_transfer {s : UsbHost} (hwait : s.transfer ≠ .waitTxInt) (f : UsbFlags) :
    ((s.usbIntHandler f).transfer = s.transfer ∨ (s.usbIntHandler f).transfer = .idle) ∧
      (s.usbIntHandler f).bufferTx = s.bufferTx ∧ (s.usbIntHandler f).sentSz = s.sentSz := by
  have hconnect : (s.onConnect f).transfer = s.transfer ∧
      (s.onConnect f).bufferTx = s.bufferTx ∧ (s.onConnect f).sentSz = s.sentSz := by
    unfold UsbHost.onConnect
    split <;> exact ⟨rfl, rfl, rfl⟩
  have hdisconnect : (((s.onConnect f).onDisconnect f).transfer = s.transfer ∨
      ((s.onConnect f).onDisconnect f).transfer = .idle) ∧
      ((s.onConnect f).onDisconnect f).bufferTx = s.bufferTx ∧
      ((s.onConnect f).onDisconnect f).sentSz = s.sentSz := by
    unfold UsbHost.onDisconnect
    split
    · exact ⟨Or.inr rfl, hconnect.2⟩
    · exact ⟨Or.inl hconnect.1, hconnect.2⟩
  have hvbus : ((((s.onConnect f).onDisconnect f).onVbusError f).transfer = s.transfer ∨
      (((s.onConnect f).onDisconnect f).onVbusError f).transfer = .idle) ∧
      (((s.onConnect f).onDisconnect f).onVbusError f).bufferTx = s.bufferTx ∧
      (((s.onConnect f).onDisconnect f).onVbusError f).sentSz = s.sentSz := by
    unfold UsbHost.onVbusError
    split <;> exact hdisconnect
  rw [UsbHost.usbIntHandler]
  rcases UsbHost.onEndpoint0_cases (s := ((s.onConnect f).onDisconnect f).onVbusError f) (f := f)
    with h | ⟨-, h⟩ | ⟨-, h⟩ | ⟨hsends, -⟩
  · rw [h]
    exact hvbus
  · rw [h]
    exact hvbus
  · rw [h]
    exact hvbus
  · rcases hvbus.1 with ht | ht
    · exact absurd (ht.symm.trans hsends) hwait
    · rw [ht] at hsends
      cases hsends

/-- An interrupt ends a transfer or leaves it alone; nobody waits for the endpoint. -/
theorem Sound.interrupt (hs : Sound s) (f : UsbFlags) :
    Sound { s with host := s.host.usbIntHandler f } := by
  have hwait : s.host.transfer ≠ .waitTxInt := by
    intro hcon
    simp only [Sound, hcon] at hs
  obtain ⟨ht | ht, hb, hz⟩ := usbIntHandler_transfer hwait f
  · exact hs.congr ht hb hz
  · have hbeginning := hs.faithful.beginning
    simp only [Sound, ht]
    exact hbeginning

/-- A call that meets the condition starts a transfer of its bytes or is refused. -/
theorem Sound.sendData (hs : Sound s) {c : UsbSendCall} (hok : Orderly s (.sendData c))
    {os : List Unit} (h : transferStep bufferTx s (.sendData c) = some (s', os)) : Sound s' := by
  unfold Orderly at hok
  unfold transferStep at h
  dsimp only at hok h
  by_cases hidle : s.host.transfer = .idle
  · rw [if_pos hidle] at hok h
    obtain ⟨rfl, -⟩ := Prod.mk.inj (Option.some.inj h)
    refine ⟨rfl, ?_⟩
    have hthree := congrArg Prod.fst (usbSendCall_eq bufferTx s.host c (by rw [hok]; decide))
    dsimp only at hthree ⊢
    rw [← hthree, UsbSendCall.submitted, hok]
    rfl
  · rw [if_neg hidle] at hok h
    obtain ⟨rfl, -⟩ := Prod.mk.inj (Option.some.inj h)
    obtain ⟨-, hbuffer, htransfer, hsent⟩ := refused_iff.mpr hok
    exact hs.congr htransfer hbuffer hsent

end Step

/-- The driver at startup, with nothing submitted. -/
def Transferring.start : Transferring := ⟨.start, [], []⟩

/-- **A busy transfer.** A call during a transfer is refused and leaves the transfer alone
if and only if the size it passes is the code itself and the transfer has not begun. In every
run in which no other call comes during a transfer, and those accepted submit three bytes,
what is sent for a call is what it has submitted. -/
theorem busy_transfer_kept (bufferTx : Nat) :
    (∀ (s : UsbHost) (c : UsbSendCall), s.transfer ≠ .idle →
      (Refused bufferTx s c ↔ s.transfer = .start ∧ c.size = busySize)) ∧
    ∀ tr s, Lts.Run (transferStep bufferTx) Orderly Transferring.start tr s →
      FaithfulTransfer s := by
  refine ⟨fun _ _ _ => refused_iff, fun tr s hrun => ?_⟩
  have hsound : Sound s := by
    refine hrun.invariant (fun _ s => Sound s) ?_ fun _ s e s' _ hs hok hstep => ?_
    · exact List.prefix_rfl
    cases e with
    | polling r =>
      obtain ⟨rfl, -⟩ := Prod.mk.inj (Option.some.inj hstep)
      exact hs.polling r
    | interrupt f =>
      obtain ⟨rfl, -⟩ := Prod.mk.inj (Option.some.inj hstep)
      exact hs.interrupt f
    | sendData c => exact hs.sendData hok hstep
  exact hsound.faithful

/-- The events of `plugIn`. -/
def devicePlugged : List TransferEvent := plugIn.filterMap fun
  | .polling r => some (.polling r)
  | .interrupt f => some (.interrupt f)
  | .sendData .. => none

def pollOnce : TransferEvent :=
  .polling ⟨0, 0, true, false, false, false, true, ⟨18, by decide⟩, fun _ => 0⟩

/-- A call that submits three times the byte `b`. -/
def sendThree (b : UInt8) : UsbSendCall := ⟨0x80010000, 0x80000000, 3, by decide, fun _ => b⟩

/-- A device is plugged in and three bytes are sent to it. -/
theorem busy_transfer_kept_plugIn : ∃ tr s,
    Lts.Run (transferStep 0) Orderly Transferring.start tr s ∧ FaithfulTransfer s ∧
      s.sent = [7, 7, 7] := by
  have hrun := Lts.exec_run (show (Lts.exec (transferStep 0) Orderly Transferring.start
    (devicePlugged ++ [.sendData (sendThree 7), pollOnce, pollOnce])).isSome = true
    by decide +kernel)
  exact ⟨_, _, hrun, (busy_transfer_kept 0).2 _ _ hrun, by decide +kernel⟩

/-- A second call comes before the first transfer has begun: it is not refused, and the
device gets its bytes for those of the first. -/
theorem busy_transfer_overwritten :
    (∃ tr s, Lts.Run (transferStep 0) Lts.anyEvent Transferring.start tr s ∧
      s.host.transfer ≠ .idle ∧ ¬ Refused 0 s.host (sendThree 9)) ∧
    ∃ tr s, Lts.Run (transferStep 0) Lts.anyEvent Transferring.start tr s ∧
      s.submitted = [7, 7, 7] ∧ s.sent = [9, 9, 9] ∧ ¬ FaithfulTransfer s := by
  have hfirst := Lts.exec_run (show (Lts.exec (transferStep 0) Lts.anyEvent Transferring.start
    (devicePlugged ++ [.sendData (sendThree 7)])).isSome = true by decide +kernel)
  have hboth := Lts.exec_run (show (Lts.exec (transferStep 0) Lts.anyEvent Transferring.start
    (devicePlugged ++ [.sendData (sendThree 7), .sendData (sendThree 9), pollOnce,
      pollOnce])).isSome = true by decide +kernel)
  refine ⟨⟨_, _, hfirst, by decide +kernel, fun h => ?_⟩,
    _, _, hboth, by decide +kernel, by decide +kernel, fun h => ?_⟩
  · exact absurd (refused_iff.mp h).2 (by decide)
  · exact absurd h.beginning (by decide +kernel)

end PrplHypervisor
