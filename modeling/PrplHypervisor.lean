import PrplHypervisor.Lib.Word32
import PrplHypervisor.Lib.Layout
import PrplHypervisor.Lib.Lts
import PrplHypervisor.Lib.RingBuffer
import PrplHypervisor.Lib.Segments
import PrplHypervisor.Lib.PendingLine
import PrplHypervisor.Arch.Tlb
import PrplHypervisor.Config.Genconf
import PrplHypervisor.Config.StringsCat
import PrplHypervisor.Config.Buffers
import PrplHypervisor.Config.BuffersFit
import PrplHypervisor.Kernel.Vm
import PrplHypervisor.Kernel.Partition
import PrplHypervisor.Kernel.Machine
import PrplHypervisor.Kernel.Context
import PrplHypervisor.Kernel.Scheduler
import PrplHypervisor.Drivers.InterVm
import PrplHypervisor.Drivers.InterruptRedirect
import PrplHypervisor.Guest.Network
import PrplHypervisor.Arch.Timer
import PrplHypervisor.System.Step
import PrplHypervisor.System.Cases
import PrplHypervisor.System.Interrupts
import PrplHypervisor.System.ContextIsolation
import PrplHypervisor.System.Messaging
import PrplHypervisor.System.Wakeup
import PrplHypervisor.Drivers.Mapping
import PrplHypervisor.Drivers.Ethernet
import PrplHypervisor.Drivers.Usb
import PrplHypervisor.System.PointerCalls
import PrplHypervisor.Lib.LinkedRing
import PrplHypervisor.Lib.Parcels
import PrplHypervisor.Heap.Malloc
import PrplHypervisor.Heap.FreeList
import PrplHypervisor.Heap.Calls
import PrplHypervisor.Heap.Integrity
import PrplHypervisor.Heap.GuestMalloc
import PrplHypervisor.Heap.Bytes
import PrplHypervisor.Heap.Sizes
import PrplHypervisor.Heap.Realloc
import PrplHypervisor.Heap.GuestRealloc
import PrplHypervisor.Guest.SecureConnection
import PrplHypervisor.Drivers.PufFlash
import PrplHypervisor.Drivers.UsbHost
import PrplHypervisor.Kernel.MemoryMaps
import PrplHypervisor.Drivers.GuestPointers
import PrplHypervisor.Drivers.VirtualIo
import PrplHypervisor.System.DeviceAccess
import PrplHypervisor.Drivers.RemoteConnection
import PrplHypervisor.Drivers.Transmit
import PrplHypervisor.Scripts.Genhex
import PrplHypervisor.Scripts.TrustedImage
import PrplHypervisor.System.Dispatch
import PrplHypervisor.System.Quanta
import PrplHypervisor.Arch.Vectors
import PrplHypervisor.Lib.LinkedList
import PrplHypervisor.Kernel.Lists
import PrplHypervisor.Kernel.ListCalls
import PrplHypervisor.Drivers.RedirectInit
import PrplHypervisor.Drivers.Injection
import PrplHypervisor.Drivers.UsbTiming
import PrplHypervisor.Drivers.UsbDescriptor
import PrplHypervisor.Drivers.UsbTransfer
import PrplHypervisor.Drivers.Receive
import PrplHypervisor.System.Turns
import PrplHypervisor.System.FastSwitch
import PrplHypervisor.Lib.While
import PrplHypervisor.Lib.Cells
import PrplHypervisor.Lib.Format
import PrplHypervisor.Lib.CString
import PrplHypervisor.Libc.Printf
import PrplHypervisor.Libc.Directives
import PrplHypervisor.Libc.Memcpy
import PrplHypervisor.Lib.Text
import PrplHypervisor.Lib.FirstDifference
import PrplHypervisor.Guest.SoftMultiply
import PrplHypervisor.Guest.SoftDivision
import PrplHypervisor.Guest.SoftShift
import PrplHypervisor.Guest.NumberText
import PrplHypervisor.Guest.Clock
import PrplHypervisor.Guest.Password
import PrplHypervisor.Guest.Compare
import PrplHypervisor.Drivers.FlashRoundTrip
import PrplHypervisor.Lib.Blocks
import PrplHypervisor.Cryptography.Sha256
import PrplHypervisor.Cryptography.Digest
import PrplHypervisor.Lib.Limbs
import PrplHypervisor.Cryptography.Vli
import PrplHypervisor.Cryptography.VliMult
import PrplHypervisor.Cryptography.VliMod
import PrplHypervisor.Lib.BinaryInverse
import PrplHypervisor.Cryptography.VliInverse
import PrplHypervisor.Lib.Primality
import PrplHypervisor.Cryptography.CurvePrimes
import PrplHypervisor.Cryptography.Secp256k1
import PrplHypervisor.Lib.Ledger
import PrplHypervisor.Lib.JacobianPoint
import PrplHypervisor.Cryptography.FieldWords
import PrplHypervisor.Cryptography.EccPoint
import PrplHypervisor.Cryptography.NativeBytes
import PrplHypervisor.Cryptography.PublicKey
import PrplHypervisor.Lib.DoubleScalar
import PrplHypervisor.Cryptography.Shamir
import PrplHypervisor.Cryptography.Ecdsa
import PrplHypervisor.Lib.MontgomeryLadder
import PrplHypervisor.Cryptography.Ladder
import PrplHypervisor.Cryptography.GroupOrder
import PrplHypervisor.Cryptography.KeyGeneration
import PrplHypervisor.Cryptography.Signing
import PrplHypervisor.Cryptography.Boot
import PrplHypervisor.Cryptography.SignedImage
