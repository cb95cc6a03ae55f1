import PrplHypervisor.Drivers.Mapping

/-!
# The Ethernet driver's hypercalls (drivers/pic32mz-ethernet.c)

Descriptor rings are what the driver reads of the controller; their contents and the
link state may be anything the hardware leaves there.

- `enGetMac`, `receiveFrame`, `sendFrame`: the hypercalls that take a guest pointer,
  as the transfers they ask for.
- `enLlInput`, `enLlOutput`: the low level routines behind the last two.
-/

namespace PrplHypervisor

open Word32

def mtu : Nat := 1536
def rxPackets : Nat := 4
def rxBytesPerDesc : Nat := 128
def rxDescriptors : Nat := rxPackets * mtu / rxBytesPerDesc

/-- `eth_desc_t`. -/
structure EthDesc where
  hdr : Word
  paddr : Nat
  ctl : Word
  status : Word

namespace EthDesc

def sop (d : EthDesc) : Bool := d.hdr &&& 0x80000000 != 0
def eop (d : EthDesc) : Bool := d.hdr &&& 0x40000000 != 0
def eown (d : EthDesc) : Bool := d.hdr &&& 0x80 != 0
def bytecnt (d : EthDesc) : Nat := ((d.hdr >>> 16) &&& 0x7ff).toNat
def framesz (d : EthDesc) : Nat := (d.status &&& 0xffff).toNat

end EthDesc

/-- `eth_port` and the statics of the driver that live from one call to the next. -/
structure EthPort where
  isUp : Bool
  rxDesc : Nat → EthDesc
  txDesc : EthDesc
  receiveIndex : Nat
  /-- `ETHCON1.TXRTS`. -/
  transmitting : Bool

def incrRxIndex (i : Nat) : Nat := (i + 1) % rxDescriptors

/-! ## Receiving -/

/-- Variables of the copying loop of `en_ll_input`. -/
structure RxLoop where
  readIndex : Nat
  descOffset : Nat
  readNbytes : Nat
  frameSize : Nat

/-- The copying loop of `en_ll_input`, for at most `iterations`. Each iteration moves
`cb` bytes to the frame and advances by as many, so `readNbytes` bytes from the start
of the frame have been written. -/
def rxLoop (rxDesc : Nat → EthDesc) : Nat → RxLoop → RxLoop
  | 0, s => s
  | iterations + 1, s =>
    let d := rxDesc s.readIndex
    if s.frameSize = 0 ∨ d.eown then s
    else
      let cb := min (sub32 d.bytecnt s.descOffset) s.frameSize
      let s' : RxLoop := { s with
        descOffset := add32 s.descOffset cb
        readNbytes := add32 s.readNbytes cb
        frameSize := s.frameSize - cb }
      if s'.descOffset = d.bytecnt then
        let s'' : RxLoop := { s' with descOffset := 0, readIndex := incrRxIndex s'.readIndex }
        -- compared with what is left of the frame, not with its size
        if d.eop ∨ s''.readNbytes = s''.frameSize then s'' else rxLoop rxDesc iterations s''
      else rxLoop rxDesc iterations s'

/-- Give the descriptors of a frame back: set EOWN up to the end of the packet. The
loop ends after one round, when it meets the first descriptor again. -/
def freeDescriptors : Nat → (Nat → EthDesc) → Nat → (Nat → EthDesc) × Nat
  | 0, rxDesc, i => (rxDesc, i)
  | rounds + 1, rxDesc, i =>
    let d := rxDesc i
    if d.eown then (rxDesc, i)
    else
      let rxDesc' := Function.update rxDesc i { d with hdr := d.hdr ||| 0x80 }
      if d.eop then (rxDesc', incrRxIndex i)
      else freeDescriptors rounds rxDesc' (incrRxIndex i)

/-- `en_ll_input` with its copying loop followed for `iterations`: the port after it,
the size it returns and the bytes written to the frame. -/
def enLlInput (e : EthPort) (iterations : Nat) : EthPort × Nat × Nat :=
  let d := e.rxDesc e.receiveIndex
  if !e.isUp ∨ d.eown ∨ d.framesz = 0 then (e, 0, 0)
  else
    let s := rxLoop e.rxDesc iterations {
      readIndex := e.receiveIndex, descOffset := 0, readNbytes := 0, frameSize := d.framesz }
    let (rxDesc, receiveIndex) := freeDescriptors (rxDescriptors + 1) e.rxDesc e.receiveIndex
    ({ e with rxDesc := rxDesc, receiveIndex := receiveIndex }, d.framesz, s.readNbytes)

/-- The mapping is made for a whole MTU, whatever the frame's size. -/
def receiveFrame (e : EthPort) (iterations a0 : Nat) : Transfer where
  address := a0
  size := mtu
  bytes := (enLlInput e iterations).2.2
  toGuest := true

/-! ## The MAC address -/

/-- Copy the six bytes at `macaddr`. -/
def enGetMac (macaddr baseaddr a0 : Nat) : Transfer where
  address := a0
  size := 6
  bytes := memcpyBytes (mappedAt a0 baseaddr) macaddr 6
  toGuest := true

/-! ## Sending -/

/-- `en_ll_output`: the size arrives in 16 bits, and only then is it compared with the
MTU. -/
def enLlOutput (e : EthPort) (frame size : Nat) : EthPort :=
  let size16 := size % 2 ^ 16
  if 0 < size16 ∧ size16 ≤ mtu then
    { e with
      txDesc := { e.txDesc with
        paddr := frame &&& 0x1fffffff
        hdr := 0x80000000 ||| 0x40000000 ||| 0x80 ||| BitVec.ofNat 32 (size16 <<< 16) }
      transmitting := true }
  else e

/-- The transfer of `send_frame` into the `mtu` bytes of `tx_buf`. -/
def sendFrameTransfer (txBuf baseaddr a0 a1 : Nat) : Transfer where
  address := a0
  size := a1
  bytes := memcpyBytes txBuf (mappedAt a0 baseaddr) a1
  toGuest := false

/-- `send_frame`: copy, return the size in `v0`, transmit. -/
def sendFrame (e : EthPort) (txBuf baseaddr a0 a1 : Nat) : EthPort × Nat × Transfer :=
  (enLlOutput e txBuf a1, a1, sendFrameTransfer txBuf baseaddr a0 a1)

end PrplHypervisor
