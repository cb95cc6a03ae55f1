import PrplHypervisor.Heap.GuestMalloc
import PrplHypervisor.Drivers.Mapping
import PrplHypervisor.Lib.Cells

/-!
# The heaps as bytes: `calloc` and `realloc`

Both allocators see the memory as headers, their users see bytes. `memset` and
`memcpy` write bytes into the cells of either view; with them `calloc` and
`realloc` of the two libraries are what their sources say.

The hypervisor's `memset` and `memcpy` count in a signed integer and write nothing
from 2 GB on (`signedCount`, `memcpyBytes`); the word loop of `memcpy` moves the
same bytes in the same order, four at a time. Those of the guest count to the end.
-/

namespace PrplHypervisor

open Word32 Layout

/-- A header as eight bytes. -/
def headerCell : Cell MemHeader where
  width := 8
  grid := by decide
  get c k := if k < 4 then byteOfWord c.ptr k else byteOfWord c.size (k - 4)
  put c k v := if k < 4 then ⟨putByte c.ptr k v, c.size⟩ else ⟨c.ptr, putByte c.size (k - 4) v⟩
  get_put c v {j k} hj hk := by
    by_cases hj4 : j < 4 <;> by_cases hk4 : k < 4
    · simp only [hj4, hk4, if_true, byteOfWord_putByte]
    · have hne : j ≠ k := by omega
      simp only [hj4, hk4, if_true, if_false, hne]
    · have hne : j ≠ k := by omega
      simp only [hj4, hk4, if_true, if_false, hne]
    · have hiff : j - 4 = k - 4 ↔ j = k := by omega
      simp only [hj4, hk4, if_false, byteOfWord_putByte c.size v (show j - 4 < 4 by omega), hiff]

/-! ## The hypervisor (sys/lib/malloc.c, sys/lib/libc.c) -/

namespace Heap

/-- The bytes behind the header of the block at `ptr`. -/
def usable (h : Heap) (ptr : Nat) : Nat := 8 * (h.size (sub32 ptr 8) - 1)

/-- Byte `i` from `p` on. -/
def byte (h : Heap) (p i : Nat) : UInt8 := headerCell.byte h.mem p i

/-- `memset`. -/
def memset (h : Heap) (dst : Nat) (c : UInt8) (bytes : Nat) : Heap :=
  { h with mem := headerCell.fill h.mem dst c (signedCount bytes) }

/-- `memcpy`. -/
def memcpy (h : Heap) (dst src bytes : Nat) : Heap :=
  { h with mem := headerCell.copy h.mem dst src (memcpyBytes dst src bytes) }

/-- `calloc`. -/
def calloc (h : Heap) (qty typeSize : Nat) : Option (Heap × Nat) :=
  (h.malloc (u32 (qty * typeSize))).map fun r =>
    (if r.2 = 0 then r.1 else r.1.memset r.2 0 (u32 (qty * typeSize)), r.2)

/-- `realloc`. -/
def realloc (h : Heap) (ptr size : Nat) : Option (Heap × Nat) :=
  if ptr = 0 then h.malloc size
  else if size = 0 then (h.free ptr).map fun h => (h, 0)
  else
    match h.malloc size with
    | none => none
    | some (h, buf) =>
      if buf = 0 then some (h, 0) else ((h.memcpy buf ptr size).free ptr).map fun h => (h, buf)

/-- The bytes of the block at `ptr` that its holder may use. -/
def payload (h : Heap) (ptr : Nat) : Region := ⟨ptr, h.usable ptr⟩

/-- The bytes `memcpy` reads. -/
def copied (dst src bytes : Nat) : Region := ⟨src, memcpyBytes dst src bytes⟩

end Heap

/-! ## The guest (bare-metal-apps/lib/malloc.c, bare-metal-apps/lib/libc.c) -/

namespace GuestHeap

/-- The bytes behind the header of the block at `ptr`. -/
def usable (h : GuestHeap) (ptr : Nat) : Nat := h.size (sub32 ptr 8) / 2 * 2

/-- Byte `i` from `p` on. -/
def byte (h : GuestHeap) (p i : Nat) : UInt8 := wordCell.byte h.mem p i

/-- `memset`. -/
def memset (h : GuestHeap) (s : Nat) (c : UInt8) (n : Nat) : GuestHeap :=
  { h with mem := wordCell.fill h.mem s c n }

/-- `memcpy`. -/
def memcpy (h : GuestHeap) (dst src n : Nat) : GuestHeap :=
  { h with mem := wordCell.copy h.mem dst src n }

/-- `calloc`. -/
def calloc (h : GuestHeap) (qty typeSize : Nat) : Option (GuestHeap × Nat) :=
  (h.malloc (u32 (qty * typeSize))).map fun r =>
    (if r.2 = 0 then r.1 else r.1.memset r.2 0 (u32 (qty * typeSize)), r.2)

/-- `realloc`. -/
def realloc (h : GuestHeap) (ptr size : Nat) : Option (GuestHeap × Nat) :=
  if 0x80000000 ≤ size then some (h, 0)
  else if ptr = 0 then h.malloc size
  else
    (h.malloc size).map fun r =>
      (if r.2 = 0 then r.1 else (r.1.memcpy r.2 ptr size).free ptr, r.2)

/-- The bytes of the block at `ptr` that its holder may use. -/
def payload (h : GuestHeap) (ptr : Nat) : Region := ⟨ptr, h.usable ptr⟩

/-- The bytes `memcpy` reads. -/
def copied (src n : Nat) : Region := ⟨src, n⟩

end GuestHeap

end PrplHypervisor
