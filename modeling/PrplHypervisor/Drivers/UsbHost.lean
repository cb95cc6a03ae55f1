import PrplHypervisor.Lib.Lts
import PrplHypervisor.Drivers.Usb

/-!
# The USB host driver (drivers/pic32mz-usb.c)

Two state machines share the status of the port: one brings a device up until its
descriptor has been read, the other one moves data once the device runs. They are
advanced by the guest's polling; the interrupt handler and `usb_send_data` write the
same fields.

- `UsbHost`: the static variables; `UsbHost.step`: a poll, an interrupt or a call of
  `usb_send_data`, with what the registers read as part of the event.
- `UsbHost.Consistent`: the descriptor on offer is that of a device in use, and there is
  no transfer without a device.
- `usb_consistent`: what keeps this, for each event exactly.

Control bits of the endpoint are left out, apart from those that send or request a packet.
-/

namespace PrplHypervisor

open Word32

/-- `enum USB_DEVICE_STATE`. -/
inductive UsbDeviceState where
  | idle | debounce | usbReset | afterResetDelay | handshake | requestDescriptor | waitTxInt
  | waitDescriptor | readDescriptor | running | vbusError | generalError
  deriving Repr, DecidableEq

/-- `enum USB_SPEED`. -/
inductive UsbSpeed where
  | full | high | low
  deriving Repr, DecidableEq

structure UsbSetupPacket where
  bmRequestType : UInt8
  bRequest : UInt8
  wValue : UInt16
  wIndex : UInt16
  wLength : UInt16
  deriving Repr, DecidableEq

/-- Ticks of the Count register in a millisecond, with `CPU_FREQ` at 200 MHz. -/
def milisecond : Nat := 200000000 / 2 / 1000

def debounceMs : Nat := 500

def resetMs : Nat := 100

def postResetDelayMs : Nat := 100

/-- `struct descriptor_receive`: 18 bytes, two of padding, and three words. -/
def receivedOffset : Nat := 20

def descrSzOffset : Nat := 24

def tranferSzOffset : Nat := 28

/-- The static variables of the driver. `descriptorData` is the memory from the address
of the structure on, which `read_descriptor` indexes without a bound. -/
structure UsbHost where
  state : UsbDeviceState
  descriptorAvailable : Bool
  connected : Bool
  waitDebounce : Nat
  speed : UsbSpeed
  transfer : UsbTransferState
  requestCount : Nat
  sentSz : Nat
  bufferTx : Nat → UInt8
  descriptorData : Nat → UInt8

/-- The variables after `usb_start`. -/
def UsbHost.start : UsbHost where
  state := .idle
  descriptorAvailable := false
  connected := false
  waitDebounce := 0
  speed := .full
  transfer := .idle
  requestCount := 0
  sentSz := 0
  bufferTx _ := 0
  descriptorData _ := 0

/-- What one poll reads from the registers. The Count register is read once or twice. -/
structure UsbReadings where
  now : Nat
  later : Nat
  hsFsDevice : Bool
  lsDevice : Bool
  overcurrent : Bool
  bMode : Bool
  validVbus : Bool
  rxcnt : Fin 128
  fifo : Nat → UInt8

/-- What the interrupt handler finds in the registers. -/
structure UsbFlags where
  devConn : Bool
  devDisconn : Bool
  vbusErr : Bool
  ep0if : Bool
  count : Nat

inductive UsbEvent where
  | polling (r : UsbReadings)
  | interrupt (f : UsbFlags)
  | sendData (size : Nat) (data : Nat → UInt8)

inductive UsbObs where
  | v0 (value : Int)
  | busReset (on : Bool)
  | setupSent (speed : UsbSpeed) (packet : UsbSetupPacket)
  | packetRequested
  | dataSent (speed : UsbSpeed) (bytes : List UInt8)
  | sessionRestarted
  | powerOff
  | puts (text : String)
  deriving DecidableEq

/-- More than `ms` milliseconds have passed since `time`. -/
def calcWaitTime (time ms now : Nat) : Bool := decide (sub32 now time > ms * milisecond)

/-! ## The descriptor -/

/-- One byte of a packet stored at index `received++`. -/
def pushDescriptor (d : Nat → UInt8) (b : UInt8) : Nat → UInt8 :=
  Function.update (storeWord d receivedOffset (add32 (wordAt d receivedOffset) 1))
    (wordAt d receivedOffset) b

/-- `read_descriptor`: the packet appended, its sizes taken from the first one, and
`descr_sz` cut to what has come once the transfer is finished. -/
def readDescriptor (d : Nat → UInt8) (rxsz : Nat) (fifo : Nat → UInt8) : Nat → UInt8 :=
  let d := (List.range rxsz).foldl (fun d i => pushDescriptor d (fifo i)) d
  let d := if wordAt d descrSzOffset = 0 then
      storeWord (storeWord d descrSzOffset (d 0).toNat) tranferSzOffset (d 7).toNat
    else d
  if rxsz < wordAt d tranferSzOffset ∨ wordAt d receivedOffset = wordAt d descrSzOffset then
    storeWord d descrSzOffset (wordAt d receivedOffset)
  else d

namespace UsbHost

/-- The structure after the packet of `r` has been read. -/
def descriptorRead (s : UsbHost) (r : UsbReadings) : Nat → UInt8 :=
  readDescriptor s.descriptorData r.rxcnt r.fifo

/-- The whole descriptor has been received. -/
def Complete (s : UsbHost) (r : UsbReadings) : Prop :=
  wordAt (s.descriptorRead r) descrSzOffset ≤ wordAt (s.descriptorRead r) receivedOffset

instance (s : UsbHost) (r : UsbReadings) : Decidable (s.Complete r) :=
  inferInstanceAs (Decidable (_ ≤ _))

/-! ## The state machines -/

/-- `switch (usb_status.state)`. -/
def advance (s : UsbHost) (r : UsbReadings) : UsbHost × List UsbObs :=
  match s.state with
  | .debounce =>
    if calcWaitTime s.waitDebounce debounceMs r.now then
      ({ s with state := .usbReset }, [.busReset true])
    else (s, [])
  | .usbReset =>
    if calcWaitTime s.waitDebounce resetMs r.now then
      ({ s with
          state := .afterResetDelay
          speed := if r.hsFsDevice then .full else if r.lsDevice then .low else .low
          waitDebounce := r.later }, [.busReset false])
    else (s, [])
  | .afterResetDelay =>
    if calcWaitTime s.waitDebounce postResetDelayMs r.now then
      ({ s with state := .requestDescriptor }, [])
    else (s, [])
  | .requestDescriptor =>
    ({ s with
        descriptorData := fun a => if a < descriptorReceiveSize then 0 else s.descriptorData a
        state := .waitTxInt
        waitDebounce := r.now }, [.setupSent s.speed ⟨0x80, 6, 0x0100, 0, 18⟩])
  | .waitTxInt => (s, [])
  | .handshake =>
    ({ s with state := .waitDescriptor, waitDebounce := r.now }, [.packetRequested])
  | .waitDescriptor =>
    if calcWaitTime s.waitDebounce 500 r.now then
      if s.requestCount < 5 then
        ({ s with requestCount := s.requestCount + 1, state := .requestDescriptor }, [])
      else ({ s with state := .generalError }, [])
    else (s, [])
  | .readDescriptor =>
    if s.Complete r then
      ({ s with
          descriptorData := s.descriptorRead r
          state := .running
          descriptorAvailable := true }, [])
    else
      ({ s with
          descriptorData := s.descriptorRead r
          state := .waitDescriptor
          waitDebounce := r.now }, [.packetRequested])
  | .running => (s, [])
  | .idle => (s, if r.bMode && r.validVbus then [.sessionRestarted] else [])
  | .vbusError => (s, [])
  | .generalError => ({ s with requestCount := 0 }, [.puts "\nFailed"])

def updateStateMachine (s : UsbHost) (r : UsbReadings) : UsbHost × List UsbObs :=
  let p := s.advance r
  if r.overcurrent then
    ({ p.1 with state := .generalError, connected := false }, p.2 ++ [.powerOff])
  else p

/-- `data_packet_sent(buffer_tx, size)`: up to eight of the bytes not sent yet. -/
def dataPacketSent (s : UsbHost) (size : Nat) : UsbHost × List UsbObs :=
  let count := min 8 (size - s.sentSz)
  ({ s with sentSz := s.sentSz + count },
    [.dataSent s.speed ((List.range count).map fun i => s.bufferTx (s.sentSz + i))])

def updateTransferStateMachine (s : UsbHost) (r : UsbReadings) : UsbHost × List UsbObs :=
  match s.transfer with
  | .intVm | .idle | .waitTxInt => (s, [])
  | .start => ({ s with transfer := .sending, sentSz := 0 },
      [.setupSent s.speed ⟨0x40, 6, 256, 0, 3⟩])
  | .sending =>
    let p := s.dataPacketSent 3
    if p.1.sentSz > 2 then ({ p.1 with waitDebounce := r.now, transfer := .done }, p.2)
    else ({ p.1 with transfer := .waitTxInt }, p.2)
  | .done => ({ s with transfer := .idle }, [])

/-- The hypercall returns `descriptor_available`. -/
def usbPolling (s : UsbHost) (r : UsbReadings) : UsbHost × List UsbObs :=
  let p := if s.state = .running then s.updateTransferStateMachine r else s.updateStateMachine r
  (p.1, p.2 ++ [.v0 (if p.1.descriptorAvailable then 1 else 0)])

/-! ## The interrupt handler -/

def onConnect (s : UsbHost) (f : UsbFlags) : UsbHost :=
  if f.devConn then { s with connected := true, state := .debounce, waitDebounce := f.count } else s

def onDisconnect (s : UsbHost) (f : UsbFlags) : UsbHost :=
  if f.devDisconn then
    { s with state := .idle, transfer := .idle, connected := false, descriptorAvailable := false }
  else s

def onVbusError (s : UsbHost) (f : UsbFlags) : UsbHost :=
  if f.vbusErr then
    { s with state := .vbusError, connected := false, descriptorAvailable := false }
  else s

def onEndpoint0 (s : UsbHost) (f : UsbFlags) : UsbHost :=
  if f.ep0if then
    if s.state = .waitTxInt then { s with state := .handshake }
    else if s.state = .waitDescriptor then { s with state := .readDescriptor }
    else if s.transfer = .waitTxInt then { s with transfer := .sending }
    else s
  else s

def usbIntHandler (s : UsbHost) (f : UsbFlags) : UsbHost :=
  (((s.onConnect f).onDisconnect f).onVbusError f).onEndpoint0 f

/-- `usb_send_data`; `data` are the bytes at the guest's buffer. -/
def usbSendData (s : UsbHost) (size : Nat) (data : Nat → UInt8) : UsbHost × List UsbObs :=
  ({ s with
      bufferTx := fun a => if a < size then data a else s.bufferTx a
      transfer := .start },
    (if s.transfer ≠ .idle then [.v0 hcallUsbBusy] else []) ++ [.v0 size])

def step (s : UsbHost) : UsbEvent → Option (UsbHost × List UsbObs)
  | .polling r => some (s.usbPolling r)
  | .interrupt f => some (s.usbIntHandler f, [])
  | .sendData size data => some (s.usbSendData size data)

/-! ## What is promised about the port -/

/-- The descriptor on offer is that of a device in use, and there is no transfer
without a device. -/
structure Consistent (s : UsbHost) : Prop where
  available : s.descriptorAvailable = true → s.connected = true ∧ s.state = .running
  quiet : s.connected = false → s.transfer = .idle

/-- The states the port rests in without a device. -/
def Parked (s : UsbHost) : Prop :=
  s.connected = false → s.state = .idle ∨ s.state = .vbusError ∨ s.state = .generalError

/-- The event does not hit one of the gaps of the driver. -/
def Harmless (s : UsbHost) : UsbEvent → Prop
  | .polling r => r.overcurrent = true → s.state ≠ .running →
      s.transfer = .idle ∧ ¬ (s.state = .readDescriptor ∧ s.Complete r)
  | .interrupt f =>
      (f.devConn = true → s.descriptorAvailable = true → f.devDisconn = true ∨ f.vbusErr = true) ∧
      (f.vbusErr = true → f.devDisconn = true ∨ s.transfer = .idle)
  | .sendData _ _ => s.connected = true

instance : DecidableRel Harmless := fun s e =>
  match e with
  | .polling r => inferInstanceAs (Decidable (r.overcurrent = true → s.state ≠ .running →
      s.transfer = .idle ∧ ¬ (s.state = .readDescriptor ∧ s.Complete r)))
  | .interrupt f => inferInstanceAs (Decidable (
      (f.devConn = true → s.descriptorAvailable = true → f.devDisconn = true ∨ f.vbusErr = true) ∧
      (f.vbusErr = true → f.devDisconn = true ∨ s.transfer = .idle)))
  | .sendData _ _ => inferInstanceAs (Decidable (s.connected = true))

variable {s : UsbHost} {r : UsbReadings} {f : UsbFlags}

/-! ### Polling -/

/-- Bringing a device up leaves the connection and the transfer alone. -/
theorem advance_frame : (s.advance r).1.connected = s.connected ∧
    (s.advance r).1.transfer = s.transfer := by
  unfold advance
  constructor <;> split <;> (try split) <;> (try split) <;> rfl

/-- A device starts to run when its whole descriptor has been read, and it is then that
the descriptor is put on offer. -/
theorem advance_cases (hrun : s.state ≠ .running) :
    (s.state = .readDescriptor ∧ s.Complete r ∧ (s.advance r).1.state = .running ∧
      (s.advance r).1.descriptorAvailable = true) ∨
    (¬ (s.state = .readDescriptor ∧ s.Complete r) ∧ (s.advance r).1.state ≠ .running ∧
      (s.advance r).1.descriptorAvailable = s.descriptorAvailable) := by
  by_cases hread : s.state = .readDescriptor ∧ s.Complete r
  · exact Or.inl ⟨hread.1, hread.2, by simp [advance, hread], by simp [advance, hread]⟩
  · refine Or.inr ⟨hread, ?_⟩
    unfold advance
    cases hstate : s.state with
    | running => exact absurd hstate hrun
    | readDescriptor =>
      have hpart : ¬ s.Complete r := fun hc => hread ⟨hstate, hc⟩
      simp [hpart]
    | debounce | usbReset | afterResetDelay =>
      dsimp only
      split <;> simp [hstate]
    | waitDescriptor =>
      dsimp only
      split
      · split <;> simp
      · simp [hstate]
    | requestDescriptor | waitTxInt | handshake | idle | vbusError | generalError => simp [hstate]

theorem advance_parked (hp : s.Parked) : (s.advance r).1.Parked := by
  intro hconn
  rw [advance_frame.1] at hconn
  rcases hp hconn with h | h | h
  · exact Or.inl (by simp [advance, h])
  · exact Or.inr (Or.inl (by simp [advance, h]))
  · exact Or.inr (Or.inr (by simp [advance, h]))

/-- Moving data leaves the device alone, and starts nothing. -/
theorem updateTransferStateMachine_frame :
    (s.updateTransferStateMachine r).1.connected = s.connected ∧
    (s.updateTransferStateMachine r).1.state = s.state ∧
    (s.updateTransferStateMachine r).1.descriptorAvailable = s.descriptorAvailable ∧
    (s.transfer = .idle → (s.updateTransferStateMachine r).1.transfer = .idle) := by
  unfold updateTransferStateMachine
  cases htransfer : s.transfer with
  | intVm | idle | waitTxInt | start | done => simp [htransfer]
  | sending =>
    dsimp only
    split <;> simp [dataPacketSent]

theorem polling_parked (hp : s.Parked) : (s.usbPolling r).1.Parked := by
  intro hconn
  unfold usbPolling at hconn ⊢
  split at hconn
  case isTrue hrun =>
    obtain ⟨hc, hs, -, -⟩ := updateTransferStateMachine_frame (s := s) (r := r)
    rw [if_pos hrun, hs]
    exact hp (hc ▸ hconn)
  case isFalse hrun =>
    rw [if_neg hrun]
    unfold updateStateMachine at hconn ⊢
    split at hconn
    · rw [if_pos ‹_›]
      exact Or.inr (Or.inr rfl)
    · rw [if_neg ‹_›]
      exact advance_parked hp hconn

theorem polling_consistent_iff (h : s.Consistent) (hp : s.Parked) :
    (s.usbPolling r).1.Consistent ↔ s.Harmless (.polling r) := by
  unfold usbPolling
  by_cases hrun : s.state = .running
  · -- moving data
    obtain ⟨hc, hs, ha, ht⟩ := updateTransferStateMachine_frame (s := s) (r := r)
    rw [if_pos hrun]
    constructor
    · intro _ _ hne
      exact absurd hrun hne
    · intro _
      constructor
      · intro havail
        rw [hc, hs]
        exact h.available (ha ▸ havail)
      · intro hconn
        exact ht (h.quiet (hc ▸ hconn))
  · -- bringing a device up: until now there was no descriptor
    rw [if_neg hrun]
    have havail : s.descriptorAvailable = false := by
      by_contra hcon
      exact hrun (h.available (by simpa using hcon)).2
    obtain ⟨hc, ht⟩ := advance_frame (s := s) (r := r)
    unfold updateStateMachine
    split
    case isTrue hover =>
      -- overcurrent: the device is given up
      constructor
      · intro hcons _ _
        refine ⟨ht ▸ hcons.quiet rfl, fun hread => ?_⟩
        rcases advance_cases (r := r) hrun with ⟨-, -, -, ha⟩ | ⟨hno, -⟩
        · exact absurd (hcons.available ha).1 (by simp)
        · exact hno hread
      · intro hok
        obtain ⟨hidle, hread⟩ := hok hover hrun
        constructor
        · intro ha
          rcases advance_cases (r := r) hrun with ⟨h1, h2, -⟩ | ⟨-, -, heq⟩
          · exact absurd ⟨h1, h2⟩ hread
          · exact absurd (heq.symm.trans ha) (by simp [havail])
        · intro _
          exact ht.trans hidle
    case isFalse hover =>
      refine ⟨fun _ hcon => absurd hcon hover, fun _ => ?_⟩
      constructor
      · intro ha
        rcases advance_cases (r := r) hrun with ⟨hread, -, hrunning, -⟩ | ⟨-, -, heq⟩
        · -- the port is not parked, so there is a device
          refine ⟨?_, hrunning⟩
          rw [hc]
          by_contra hcon
          rcases hp (by simpa using hcon) with hs | hs | hs <;> simp [hread] at hs
        · exact absurd (heq.symm.trans ha) (by simp [havail])
      · intro hconn
        exact ht.trans (h.quiet (hc ▸ hconn))

/-! ### Interrupts -/

/-- An endpoint interrupt takes at most one of the machines out of a waiting state. -/
theorem onEndpoint0_cases : s.onEndpoint0 f = s ∨
    (s.state = .waitTxInt ∧ s.onEndpoint0 f = { s with state := .handshake }) ∨
    (s.state = .waitDescriptor ∧ s.onEndpoint0 f = { s with state := .readDescriptor }) ∨
    (s.transfer = .waitTxInt ∧ s.onEndpoint0 f = { s with transfer := .sending }) := by
  unfold onEndpoint0
  by_cases hep : f.ep0if = true
  · rw [if_pos hep]
    by_cases htx : s.state = .waitTxInt
    · exact Or.inr (Or.inl ⟨htx, if_pos htx⟩)
    · rw [if_neg htx]
      by_cases hdescr : s.state = .waitDescriptor
      · exact Or.inr (Or.inr (Or.inl ⟨hdescr, if_pos hdescr⟩))
      · rw [if_neg hdescr]
        by_cases htransfer : s.transfer = .waitTxInt
        · exact Or.inr (Or.inr (Or.inr ⟨htransfer, if_pos htransfer⟩))
        · exact Or.inl (if_neg htransfer)
  · exact Or.inl (if_neg hep)

/-- No descriptor is on offer in either of two states that are not `RUNNING`. -/
theorem setState_consistent {st : UsbDeviceState} (hs : s.state ≠ .running) (hst : st ≠ .running) :
    { s with state := st }.Consistent ↔ s.Consistent := by
  constructor
  · intro h
    exact ⟨fun ha => absurd (h.available ha).2 hst, h.quiet⟩
  · intro h
    exact ⟨fun ha => absurd (h.available ha).2 hs, h.quiet⟩

/-- Endpoint interrupts move neither machine to or from its idle state or `RUNNING`. -/
theorem onEndpoint0_consistent : (s.onEndpoint0 f).Consistent ↔ s.Consistent := by
  rcases onEndpoint0_cases (s := s) (f := f) with h | ⟨hs, h⟩ | ⟨hs, h⟩ | ⟨ht, h⟩
  · rw [h]
  · rw [h]
    exact setState_consistent (by simp [hs]) (by decide)
  · rw [h]
    exact setState_consistent (by simp [hs]) (by decide)
  · -- a transfer is under way before and after
    rw [h]
    constructor
    · intro hcons
      exact ⟨hcons.available, fun hc => absurd (hcons.quiet hc) (by simp)⟩
    · intro hcons
      exact ⟨hcons.available, fun hc => absurd (hcons.quiet hc) (by simp [ht])⟩

theorem interrupt_consistent_iff (h : s.Consistent) :
    (s.usbIntHandler f).Consistent ↔ s.Harmless (.interrupt f) := by
  rw [usbIntHandler, onEndpoint0_consistent]
  cases hv : f.vbusErr with
  | true =>
    -- the port is without a device: what counts is the transfer
    have htransfer : ((s.onConnect f).onDisconnect f).transfer = .idle ↔
        f.devDisconn = true ∨ s.transfer = .idle := by
      cases hd : f.devDisconn <;> cases hc : f.devConn <;> simp [onConnect, onDisconnect, hd, hc]
    simp only [Harmless, hv, onVbusError, if_true]
    constructor
    · intro hcons
      exact ⟨fun _ _ => Or.inr trivial, fun _ => htransfer.mp (hcons.quiet rfl)⟩
    · rintro ⟨-, hok⟩
      exact ⟨fun ha => by simp at ha, fun _ => htransfer.mpr (hok trivial)⟩
  | false =>
    cases hd : f.devDisconn with
    | true =>
      -- disconnected: everything is given up
      refine ⟨fun _ => by simp [Harmless, hv, hd], fun _ => ?_⟩
      simp only [onVbusError, onDisconnect, hv, hd, if_true, Bool.false_eq_true, if_false]
      exact ⟨fun ha => by simp at ha, fun _ => rfl⟩
    | false =>
      cases hc : f.devConn with
      | true =>
        -- connected again: a descriptor on offer is that of the device before
        simp only [Harmless, onVbusError, onDisconnect, onConnect, hv, hd, hc, if_true,
          Bool.false_eq_true, if_false]
        constructor
        · intro hcons
          exact ⟨fun _ ha => absurd (hcons.available ha).2 (by simp), fun hcon => hcon.elim⟩
        · rintro ⟨hok, -⟩
          exact ⟨fun ha => ((hok trivial ha).elim id id).elim, fun hcon => by simp at hcon⟩
      | false =>
        simpa [Harmless, onVbusError, onDisconnect, onConnect, hv, hd, hc] using h

/-- The handler leaves the waiting states only, which a parked port is not in. -/
theorem onEndpoint0_parked (hp : s.Parked) : (s.onEndpoint0 f).Parked := by
  intro hconn
  rcases onEndpoint0_cases (s := s) (f := f) with h | ⟨hs, h⟩ | ⟨hs, h⟩ | ⟨-, h⟩
  · rw [h] at hconn ⊢
    exact hp hconn
  · rw [h] at hconn
    rcases hp hconn with h | h | h <;> simp [hs] at h
  · rw [h] at hconn
    rcases hp hconn with h | h | h <;> simp [hs] at h
  · rw [h] at hconn ⊢
    exact hp hconn

theorem interrupt_parked (hp : s.Parked) : (s.usbIntHandler f).Parked := by
  have hconnect : (s.onConnect f).Parked := by
    unfold onConnect
    split
    · intro hcon
      cases hcon
    · exact hp
  have hdisconnect : ((s.onConnect f).onDisconnect f).Parked := by
    unfold onDisconnect
    split
    · exact fun _ => Or.inl rfl
    · exact hconnect
  have hvbus : (((s.onConnect f).onDisconnect f).onVbusError f).Parked := by
    unfold onVbusError
    split
    · exact fun _ => Or.inr (Or.inl rfl)
    · exact hdisconnect
  exact onEndpoint0_parked hvbus

/-! ### Runs -/

theorem sendData_consistent_iff (h : s.Consistent) (size : Nat) (data : Nat → UInt8) :
    (s.usbSendData size data).1.Consistent ↔ s.connected = true := by
  constructor
  · intro hcons
    cases hc : s.connected with
    | true => rfl
    | false => cases hcons.quiet hc
  · intro hconn
    exact ⟨h.available, fun hcon => absurd (hconn.symm.trans hcon) (by simp)⟩

variable {s' : UsbHost} {e : UsbEvent} {os : List UsbObs}

/-- What one event does to the promise: it is kept exactly by the harmless ones. -/
theorem step_consistent_iff (h : s.Consistent) (hp : s.Parked) (hstep : s.step e = some (s', os)) :
    s'.Consistent ↔ s.Harmless e := by
  cases e with
  | polling r =>
    obtain rfl := congrArg Prod.fst (Option.some.inj hstep)
    exact polling_consistent_iff h hp
  | interrupt f =>
    obtain rfl := congrArg Prod.fst (Option.some.inj hstep)
    exact interrupt_consistent_iff h
  | sendData size data =>
    obtain rfl := congrArg Prod.fst (Option.some.inj hstep)
    exact sendData_consistent_iff h size data

theorem step_parked (hp : s.Parked) (hstep : s.step e = some (s', os)) : s'.Parked := by
  cases e with
  | polling r =>
    obtain rfl := congrArg Prod.fst (Option.some.inj hstep)
    exact polling_parked hp
  | interrupt f =>
    obtain rfl := congrArg Prod.fst (Option.some.inj hstep)
    exact interrupt_parked hp
  | sendData size data =>
    obtain rfl := congrArg Prod.fst (Option.some.inj hstep)
    exact hp

theorem start_consistent : start.Consistent :=
  ⟨fun h => absurd h (by decide), fun _ => rfl⟩

end UsbHost

/-- **USB host state.** In every run of harmless events the descriptor on offer is that of
a connected device that runs, and there is no transfer without a device. From there an
event keeps this exactly if it is harmless. -/
theorem usb_consistent {tr : List UsbObs} {s : UsbHost}
    (hrun : Lts.Run UsbHost.step UsbHost.Harmless UsbHost.start tr s) :
    s.Consistent ∧ ∀ e s' os, s.step e = some (s', os) → (s'.Consistent ↔ s.Harmless e) := by
  obtain ⟨hcons, hparked⟩ : s.Consistent ∧ s.Parked :=
    hrun.invariant (fun _ s => s.Consistent ∧ s.Parked)
      ⟨UsbHost.start_consistent, fun _ => Or.inl rfl⟩
      fun _ _ _ _ _ ⟨hcons, hparked⟩ hok hstep =>
        ⟨(UsbHost.step_consistent_iff hcons hparked hstep).mpr hok,
          UsbHost.step_parked hparked hstep⟩
  exact ⟨hcons, fun _ _ _ hstep => UsbHost.step_consistent_iff hcons hparked hstep⟩

/-! ## A device is plugged in -/

/-- A poll at time `now` with nothing special in the registers; a packet of 18 bytes, the
descriptor of a device that takes packets of 64 bytes, is in the buffer. -/
def pollAt (now : Nat) : UsbEvent :=
  .polling ⟨now, now, true, false, false, false, true, 18,
    fun i => if i = 0 then 18 else if i = 7 then 64 else 1⟩

/-- Connect, wait for the phases of the reset, and read the descriptor. -/
def plugIn : List UsbEvent :=
  [.interrupt ⟨true, false, false, false, 0⟩, pollAt 60000000, pollAt 60000001, pollAt 80000000,
    pollAt 80000001, .interrupt ⟨false, false, false, true, 80000002⟩, pollAt 80000003,
    .interrupt ⟨false, false, false, true, 80000004⟩, pollAt 80000005]

/-- The device is brought up, data is sent to it, and it is unplugged. -/
theorem usb_consistent_plugIn : ∃ tr s,
    Lts.Run UsbHost.step UsbHost.Harmless UsbHost.start tr s ∧ s.Consistent ∧ .v0 1 ∈ tr := by
  have hrun := Lts.exec_run (show (Lts.exec UsbHost.step UsbHost.Harmless UsbHost.start
    (plugIn ++ [.sendData 3 fun _ => 7, pollAt 0,
      .interrupt ⟨false, true, false, false, 0⟩])).isSome = true by decide +kernel)
  exact ⟨_, _, hrun, (usb_consistent hrun).1, by decide +kernel⟩

/-- A second connect interrupt starts to bring up another device while the descriptor of
the first one stays on offer, and polling reports it. -/
theorem stale_descriptor : ∃ tr s, Lts.Run UsbHost.step Lts.anyEvent UsbHost.start tr s ∧
    s.descriptorAvailable = true ∧ s.state = .debounce ∧ ¬ s.Consistent := by
  have hrun := Lts.exec_run (show (Lts.exec UsbHost.step Lts.anyEvent UsbHost.start
    (plugIn ++ [.interrupt ⟨true, false, false, false, 90000000⟩])).isSome = true
    by decide +kernel)
  refine ⟨_, _, hrun, by decide +kernel, by decide +kernel, fun hcons => ?_⟩
  exact absurd (hcons.available (by decide +kernel)).2 (by decide +kernel)

end PrplHypervisor
