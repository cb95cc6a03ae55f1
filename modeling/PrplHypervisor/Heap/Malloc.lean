import PrplHypervisor.Lib.Word32
import PrplHypervisor.Lib.Layout
import Mathlib.Logic.Function.Basic

/-!
# The hypervisor heap (`sys/lib/malloc.c`)

A circular free list in address order with a roving start pointer. Every block
begins with a `mem_header` of two words; sizes are in units of one header.

- `Heap`: the memory as seen through `mem_header` pointers and the three statics.
- `heapInit`, `initMem`: `HeapInit` and `init_mem`.
- `malloc`, `free`: the two loops take `rounds` as fuel, one round for each value
  of their pointer, so `none` means that the call does not return.

Every address `malloc` and `free` reach lies a multiple of `sizeof(mem_header)`
from the first block, so headers never overlap in part and the memory is a map
from addresses to headers.
-/

namespace PrplHypervisor

open Word32 Layout

/-- `union header`: next block if on the free list, size of this block in units. -/
structure MemHeader where
  ptr : Nat
  size : Nat
  deriving DecidableEq

/-- The memory of the heap and the statics `freep`, `sfreep` and `sfree`. -/
structure Heap where
  mem : Nat → MemHeader
  freep : Nat
  sfreep : Nat
  sfree : MemHeader

/-- `_heap_start` and `_heap_size`, as `pic32mz.ld` sets them: the heap is aligned
and is followed by the stack, `_stack_size` bytes up to the end of RAM. -/
structure HeapSymbols where
  start : Nat
  size : Nat
  aligned : start % 4 = 0
  inRam : start + size + 1024 ≤ 2 ^ 32

namespace Heap

/-- `p->s.ptr` -/
def next (h : Heap) (p : Nat) : Nat := (h.mem p).ptr

/-- `p->s.size` -/
def size (h : Heap) (p : Nat) : Nat := (h.mem p).size

/-- `p->s.ptr = v` -/
def setPtr (h : Heap) (p v : Nat) : Heap :=
  { h with mem := Function.update h.mem p ⟨v, h.size p⟩ }

/-- `p->s.size = v` -/
def setSize (h : Heap) (p v : Nat) : Heap :=
  { h with mem := Function.update h.mem p ⟨h.next p, v⟩ }

/-- `freep = p` -/
def setFreep (h : Heap) (p : Nat) : Heap := { h with freep := p }

/-- The program writes the two words at `a`. -/
def write (h : Heap) (a : Nat) (v : MemHeader) : Heap :=
  { h with mem := Function.update h.mem a v }

/-- The bytes of the block whose header is at `p`. -/
def block (h : Heap) (p : Nat) : Region := ⟨p, 8 * h.size p⟩

section Fields

variable (h : Heap) (p q v : Nat)

theorem next_setPtr : (h.setPtr p v).next q = if q = p then v else h.next q := by
  unfold setPtr next
  by_cases hq : q = p <;> simp [hq]

@[simp] theorem next_setPtr_self : (h.setPtr p v).next p = v := by rw [next_setPtr, if_pos rfl]

theorem next_setPtr_of_ne {p q : Nat} (hq : q ≠ p) : (h.setPtr p v).next q = h.next q := by
  rw [next_setPtr, if_neg hq]

@[simp] theorem size_setPtr : (h.setPtr p v).size q = h.size q := by
  unfold setPtr size
  by_cases hq : q = p
  · subst hq
    simp
  · simp [hq]

@[simp] theorem next_setSize : (h.setSize p v).next q = h.next q := by
  unfold setSize next
  by_cases hq : q = p
  · subst hq
    simp
  · simp [hq]

theorem size_setSize : (h.setSize p v).size q = if q = p then v else h.size q := by
  unfold setSize size
  by_cases hq : q = p <;> simp [hq]

@[simp] theorem size_setSize_self : (h.setSize p v).size p = v := by rw [size_setSize, if_pos rfl]

theorem size_setSize_of_ne {p q : Nat} (hq : q ≠ p) : (h.setSize p v).size q = h.size q := by
  rw [size_setSize, if_neg hq]

@[simp] theorem next_setFreep : (h.setFreep p).next q = h.next q := rfl

@[simp] theorem size_setFreep : (h.setFreep p).size q = h.size q := rfl

@[simp] theorem freep_setFreep : (h.setFreep p).freep = p := rfl

@[simp] theorem block_start : (h.block p).start = p := rfl

@[simp] theorem block_size : (h.block p).size = 8 * h.size p := rfl

theorem block_contains {p x : Nat} : (h.block p).Contains x ↔ p ≤ x ∧ x < p + 8 * h.size p :=
  Iff.rfl

end Fields

/-- Units for `size` bytes and their header, in `uint32_t`:
`((size+sizeof(mem_header)-1)/sizeof(mem_header))+1`. -/
def nunits (size : Nat) : Nat := add32 (add32 size 7 / 8) 1

/-- `HeapInit`. The second branch restores the header saved by the first call. -/
def heapInit (h : Heap) (heap len : Nat) : Heap :=
  if h.freep = 0 then
    { mem := Function.update h.mem heap ⟨heap, sub32 (nunits len) 1⟩
      freep := heap
      sfreep := heap
      sfree := ⟨heap, sub32 (nunits len) 1⟩ }
  else
    { h with
      mem := Function.update h.mem h.sfreep h.sfree
      freep := h.sfreep }

/-- `init_mem`. -/
def initMem (sym : HeapSymbols) (h : Heap) : Heap :=
  h.heapInit (add32 sym.start 8 &&& 0xFFFFFFFC) (sub32 sym.size 8 &&& 0xFFFFFFFC)

/-- The heap before `init_mem`: any memory contents and zeroed statics. -/
def reset (mem : Nat → MemHeader) : Heap := ⟨mem, 0, 0, ⟨0, 0⟩⟩

/-- A loop over 32-bit pointers that has not stopped by then never stops. -/
def rounds : Nat := 2 ^ 32

/-- Handing out `nunits` units of `p`, the block behind `prevp`: all of it, or its tail. -/
def take (h : Heap) (nunits prevp p : Nat) : Heap × Nat :=
  if h.size p = nunits then ((h.setPtr prevp (h.next p)).setFreep prevp, add32 p 8)
  else
    let rest := h.size p - nunits
    let tail := add32 p (8 * rest)
    (((h.setSize p rest).setSize tail nunits).setFreep prevp, add32 tail 8)

/-- The loop of `malloc`: the first block behind `prevp` with `nunits` units. -/
def mallocLoop (h : Heap) (nunits : Nat) : Nat → Nat → Nat → Option (Heap × Nat)
  | 0, _, _ => none
  | fuel + 1, prevp, p =>
    if nunits ≤ h.size p then some (h.take nunits prevp p)
    else if p = h.freep then some (h, 0)
    else mallocLoop h nunits fuel p (h.next p)

/-- `malloc`. -/
def malloc (h : Heap) (size : Nat) : Option (Heap × Nat) :=
  if h.freep = 0 then some (h, 0)
  else mallocLoop h (nunits size) rounds h.freep (h.next h.freep)

/-- The loop of `free`: the block behind which `bp` belongs. -/
def freeLoop (h : Heap) (bp : Nat) : Nat → Nat → Option Nat
  | 0, _ => none
  | fuel + 1, p =>
    if p < bp ∧ bp < h.next p then some p
    else if h.next p ≤ p ∧ (p < bp ∨ bp < h.next p) then some p
    else freeLoop h bp fuel (h.next p)

/-- `bp` takes over the block behind `p` when it touches it, else points to it. -/
def joinNext (h : Heap) (bp p : Nat) : Heap :=
  if add32 bp (8 * h.size bp) = h.next p then
    (h.setSize bp (add32 (h.size bp) (h.size (h.next p)))).setPtr bp (h.next (h.next p))
  else h.setPtr bp (h.next p)

/-- `p` takes over `bp` when it touches it, else points to it. -/
def joinPrev (h : Heap) (bp p : Nat) : Heap :=
  if add32 p (8 * h.size p) = bp then
    (h.setSize p (add32 (h.size p) (h.size bp))).setPtr p (h.next bp)
  else h.setPtr p bp

/-- `free` from the header on. -/
def freeBlock (h : Heap) (bp : Nat) : Option Heap :=
  (h.freeLoop bp rounds h.freep).map fun p => ((h.joinNext bp p).joinPrev bp p).setFreep p

/-- `free`. -/
def free (h : Heap) (ptr : Nat) : Option Heap := h.freeBlock (sub32 ptr 8)

end Heap

end PrplHypervisor
