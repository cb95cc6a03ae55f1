import PrplHypervisor.Drivers.Mapping

/-!
# The USB driver's hypercalls (drivers/pic32mz-usb.c)

- `usbSendData`: copies the guest's data into the 64 bytes of `buffer_tx` and starts
  a transfer. A transfer in progress sets the busy code and goes on.
- `getDescriptor`: copies a whole `struct descriptor_receive` to the guest, whatever
  size the guest has declared.
-/

namespace PrplHypervisor

/-- `enum USB_TRANSFER_STATE`. -/
inductive UsbTransferState where
  | intVm | idle | start | sending | waitTxInt | done
  deriving Repr, DecidableEq

def hcallUsbBusy : Int := -5

/-- Size of `buffer_tx`. -/
def bufferTxSize : Nat := 64

/-- Size of `struct descriptor_receive`: 18 bytes, padding, three words. -/
def descriptorReceiveSize : Nat := 18 + 2 + 3 * 4

/-- The transfer of `usb_send_data` into `buffer_tx`. -/
def usbSendTransfer (bufferTx baseaddr a0 a1 : Nat) : Transfer where
  address := a0
  size := a1
  bytes := memcpyBytes bufferTx (mappedAt a0 baseaddr) a1
  toGuest := false

/-- `usb_send_data`: the new transfer state, the values written to `v0` in order, and
the copy. A busy driver says so and carries on. -/
def usbSendData (state : UsbTransferState) (bufferTx baseaddr a0 a1 : Nat) :
    UsbTransferState × List Int × Transfer :=
  let busy : List Int := if state ≠ .idle then [hcallUsbBusy] else []
  (.start, busy ++ [(a1 : Int)], usbSendTransfer bufferTx baseaddr a0 a1)

/-- `get_descriptor`: `v0` and the copy. -/
def getDescriptor (descriptorData baseaddr a0 a1 : Nat) : Nat × Transfer :=
  (a1, {
    address := a0
    size := a1
    bytes := memcpyBytes (mappedAt a0 baseaddr) descriptorData descriptorReceiveSize
    toGuest := true })

end PrplHypervisor
