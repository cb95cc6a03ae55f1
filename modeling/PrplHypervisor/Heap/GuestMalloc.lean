import PrplHypervisor.Heap.Integrity

/-!
# The guest heap (`bare-metal-apps/lib/malloc.c`)

A first-fit allocator over one list of used and free blocks. A block header is a
`next` pointer and a size whose lowest bit says that the block is used; headers
may lie at any word, so the memory is a map from word addresses to words.

`init_mem` means to put a sentinel at the end of the heap, but adds the size of
the pointer `krnl_heap` instead of the length: the sentinel lands four bytes in
front of the first block, and its zero size overwrites that block's `next`.

- `GuestHeap.initMem`, `GuestHeap.malloc`, `GuestHeap.free`: the three functions.
  Loops take `Heap.rounds` as fuel.
- `GuestState.Integrity`: what the library's users rely on.
- `guest_heap_never`: no state of any run has it, and on every heap the first
  `malloc` hands out a block however large the request is.
-/

namespace PrplHypervisor

open Word32 Layout

/-- `_heap_start` and `_heap_size` of a guest. The last word of RAM and the stack lie
behind the heap, and there is room for two headers. -/
structure GuestHeapSymbols where
  start : Nat
  size : Nat
  headers : 24 ≤ size
  inRam : start + size + 4 ≤ 2 ^ 32

/-- The words of the memory and the statics `krnl_free` and `krnl_heap`. -/
structure GuestHeap where
  mem : Nat → Nat
  krnlFree : Nat
  krnlHeap : Nat

/-- `((((x) + 3) >> 2) << 2)` -/
def align4 (x : Nat) : Nat := u32 ((add32 x 3 >>> 2) <<< 2)

namespace GuestHeap

/-- `p->next` -/
def next (h : GuestHeap) (p : Nat) : Nat := h.mem p

/-- `p->size` -/
def size (h : GuestHeap) (p : Nat) : Nat := h.mem (add32 p 4)

/-- `p->next = v` -/
def setNext (h : GuestHeap) (p v : Nat) : GuestHeap :=
  { h with mem := Function.update h.mem p v }

/-- `p->size = v` -/
def setSize (h : GuestHeap) (p v : Nat) : GuestHeap :=
  { h with mem := Function.update h.mem (add32 p 4) v }

/-- `p->size & 1` -/
def used (h : GuestHeap) (p : Nat) : Prop := h.size p % 2 = 1

instance (h : GuestHeap) (p : Nat) : Decidable (h.used p) := by
  unfold used
  infer_instance

/-- Where `init_mem` puts the sentinel: `krnl_heap + sizeof(krnl_heap) - sizeof(struct mem_block)`,
with `krnl_heap` a pointer. -/
def sentinel (krnlHeap : Nat) : Nat := sub32 (add32 krnlHeap 4) 8

/-- The usable length of the heap. -/
def heapLen (sym : GuestHeapSymbols) : Nat := align4 (sub32 sym.size 8 &&& 0xFFFFFFFC)

/-- `krnl_heap` after `init_mem`. -/
def heapBase (sym : GuestHeapSymbols) : Nat := add32 sym.start 8 &&& 0xFFFFFFFC

/-- `init_mem`. -/
def initMem (sym : GuestHeapSymbols) (h : GuestHeap) : GuestHeap :=
  let p := heapBase sym
  let q := sentinel p
  let h₁ := (h.setNext p q).setSize p (sub32 (sub32 (heapLen sym) 8) 8)
  let h₂ := (h₁.setNext q 0).setSize q 0
  { h₂ with krnlFree := h₂.size p, krnlHeap := p }

/-- `while (p->size & 1) { p = p->next; q = p; }` -/
def skipUsed (h : GuestHeap) : Nat → Nat → Option Nat
  | 0, _ => none
  | fuel + 1, p => if h.used p then skipUsed h fuel (h.next p) else some p

/-- `while (!(p->size & 1) && p->next) p = p->next;` -/
def skipFree (h : GuestHeap) : Nat → Nat → Option Nat
  | 0, _ => none
  | fuel + 1, p => if ¬ h.used p ∧ h.next p ≠ 0 then skipFree h fuel (h.next p) else some p

/-- One round of the sweep: the next run of free blocks becomes the block `q`, which
ends at `p`. -/
def coalesce (h : GuestHeap) (p : Nat) : Option (GuestHeap × Nat × Nat) :=
  match skipUsed h Heap.rounds p with
  | none => none
  | some q =>
    match skipFree h Heap.rounds q with
    | none => none
    | some p =>
      if p = 0 then some (h, p, q)
      else some ((h.setSize q (sub32 (sub32 p q) 8)).setNext q p, p, q)

/-- The outer loop of `malloc`: the block to split, or `none` in its place for
`return 0`. -/
def sweep (size : Nat) : Nat → GuestHeap → Nat → Option (GuestHeap × Option Nat)
  | 0, _, _ => none
  | fuel + 1, h, p =>
    if h.next p = 0 then some (h, some p)
    else
      match h.coalesce p with
      | none => none
      | some (h, p, q) =>
        if h.next p = 0 ∧ h.size q < add32 size 8 then some (h, none)
        else if add32 size 8 ≤ h.size q then some (h, some q)
        else sweep size fuel h p

/-- A round of the sweep, opened up. -/
theorem coalesce_some {h h' : GuestHeap} {p p' q : Nat} (heq : h.coalesce p = some (h', p', q)) :
    skipUsed h Heap.rounds p = some q ∧ skipFree h Heap.rounds q = some p' ∧
      h' = if p' = 0 then h else (h.setSize q (sub32 (sub32 p' q) 8)).setNext q p' := by
  unfold coalesce at heq
  cases hq : skipUsed h Heap.rounds p with
  | none => simp [hq] at heq
  | some q₀ =>
    cases hp : skipFree h Heap.rounds q₀ with
    | none => simp [hq, hp] at heq
    | some p₀ =>
      simp only [hq, hp] at heq
      split_ifs at heq with h0
      · obtain ⟨rfl, rfl, rfl⟩ := heq
        exact ⟨rfl, hp, (if_pos h0).symm⟩
      · obtain ⟨rfl, rfl, rfl⟩ := heq
        exact ⟨rfl, hp, (if_neg h0).symm⟩

/-- What one round of the outer loop can do. -/
theorem sweep_cases {size fuel p : Nat} {h h₁ : GuestHeap} {found : Option Nat}
    (heq : sweep size (fuel + 1) h p = some (h₁, found)) :
    (h.next p = 0 ∧ h₁ = h ∧ found = some p) ∨
    h.next p ≠ 0 ∧ ∃ h' p' q, h.coalesce p = some (h', p', q) ∧
      ((h'.next p' = 0 ∧ h'.size q < add32 size 8 ∧ h₁ = h' ∧ found = none) ∨
       (add32 size 8 ≤ h'.size q ∧ h₁ = h' ∧ found = some q) ∨
       (h'.next p' ≠ 0 ∧ h'.size q < add32 size 8 ∧
          sweep size fuel h' p' = some (h₁, found))) := by
  rw [sweep] at heq
  split_ifs at heq with hnull
  · cases heq
    exact Or.inl ⟨hnull, rfl, rfl⟩
  · cases hc : h.coalesce p with
    | none => simp [hc] at heq
    | some r =>
      obtain ⟨h', p', q⟩ := r
      simp only [hc] at heq
      refine Or.inr ⟨hnull, h', p', q, rfl, ?_⟩
      split_ifs at heq with hnone hfit
      · cases heq
        exact Or.inl ⟨hnone.1, hnone.2, rfl, rfl⟩
      · cases heq
        exact Or.inr (Or.inl ⟨hfit, rfl, rfl⟩)
      · have hshort := Nat.lt_of_not_le hfit
        exact Or.inr (Or.inr ⟨fun hnext => hnone ⟨hnext, hshort⟩, hshort, heq⟩)

/-- Cutting `size` bytes off the front of block `p`. -/
def splitBlock (h : GuestHeap) (size p : Nat) : GuestHeap :=
  let psize := sub32 (sub32 (h.size p / 2 * 2) size) 8
  let r := h.next p
  let p' := add32 (add32 p size) 8
  let h₁ := (h.setNext p p').setSize p (size ||| 1)
  let h₂ := (h₁.setNext p' r).setSize p' psize
  { h₂ with krnlFree := sub32 h₂.krnlFree (add32 size 8) }

/-- `malloc`. -/
def malloc (h : GuestHeap) (size : Nat) : Option (GuestHeap × Nat) :=
  (sweep (align4 size) Heap.rounds h h.krnlHeap).map fun r =>
    match r.2 with
    | none => (r.1, 0)
    | some p => (r.1.splitBlock (align4 size) p, add32 p 8)

/-- `free`. -/
def free (h : GuestHeap) (ptr : Nat) : GuestHeap :=
  let p := sub32 ptr 8
  let h₁ := h.setSize p (h.size p / 2 * 2)
  { h₁ with krnlFree := add32 h₁.krnlFree (add32 (h₁.size p) 8) }

end GuestHeap

/-! ## Runs -/

/-- The heap and the blocks the program holds. -/
structure GuestState where
  heap : GuestHeap
  live : List Live

/-- The two calls. -/
inductive GuestCall
  | malloc (size : Nat)
  | free (ptr : Nat)

namespace GuestState

/-- The heap after `init_mem`. -/
def boot (sym : GuestHeapSymbols) (mem : Nat → Nat) : GuestState :=
  ⟨GuestHeap.initMem sym ⟨mem, 0, 0⟩, []⟩

/-- One call; only held blocks are freed. -/
def step (s : GuestState) : GuestCall → Option (GuestState × List Nat)
  | .malloc size => (s.heap.malloc size).map fun r =>
      (⟨r.1, if r.2 = 0 then s.live else ⟨r.2, size⟩ :: s.live⟩, [r.2])
  | .free ptr =>
    if ∃ b ∈ s.live, b.ptr = ptr then
      some (⟨s.heap.free ptr, s.live.eraseP fun b => b.ptr = ptr⟩, [])
    else none

/-- The bytes a program may use of a block. -/
def payload (b : Live) : Region := ⟨b.ptr, b.requested⟩

/-- What the users of the library rely on: blocks are inside the heap, apart from
each other and from every header, and large enough; the block list is finite, in
address order, and ends at the sentinel, which `init_mem` put at the heap's end. -/
structure Integrity (sym : GuestHeapSymbols) (s : GuestState) : Prop where
  inside : ∀ b ∈ s.live, sym.start ≤ b.ptr ∧ (payload b).stop ≤ sym.start + sym.size
  holds : ∀ b ∈ s.live, b.requested ≤ s.heap.size (sub32 b.ptr 8)
  apart : s.live.Pairwise fun b c => (payload b).Disjoint (payload c)
  blocks : ∃ ps : List Nat, ps.head? = some s.heap.krnlHeap ∧
    ps.IsChain (fun p q => s.heap.next p = q) ∧ ps.Pairwise (· < ·) ∧
    ps.getLast? = some (GuestHeap.sentinel (GuestHeap.heapBase sym)) ∧
    s.heap.next (GuestHeap.sentinel (GuestHeap.heapBase sym)) = 0 ∧
    ∀ p ∈ ps, ∀ b ∈ s.live, (⟨p, 8⟩ : Region).Disjoint (payload b)
  atEnd : GuestHeap.sentinel (GuestHeap.heapBase sym) + 8 =
    GuestHeap.heapBase sym + GuestHeap.heapLen sym

end GuestState

/-! ## The misplaced sentinel -/

section Boot

open GuestHeap

variable (sym : GuestHeapSymbols) (mem : Nat → Nat)

theorem heapBase_eq : heapBase sym = (sym.start + 8) / 4 * 4 := by
  have hin := sym.inRam
  have hsize := sym.headers
  rw [heapBase, add32, mask_low_two (u32_lt _), u32_of_lt (by omega)]

theorem sentinel_eq : sentinel (heapBase sym) + 4 = heapBase sym := by
  have hin := sym.inRam
  have hsize := sym.headers
  have hbase := heapBase_eq sym
  rw [sentinel, add32, u32_of_lt (by omega), sub32_of_le (by omega) (by omega)]
  omega

/-- The size of the sentinel is written over the first block's `next`. -/
theorem next_boot : (GuestState.boot sym mem).heap.next (heapBase sym) = 0 := by
  have hin := sym.inRam
  have hsize := sym.headers
  have hbase := heapBase_eq sym
  have haddr : add32 (sentinel (heapBase sym)) 4 = heapBase sym := by
    rw [add32, sentinel_eq, u32_of_lt (by omega)]
  unfold GuestState.boot initMem
  simp only [GuestHeap.next, setSize, haddr, Function.update_self]

@[simp] theorem krnlHeap_boot : (GuestState.boot sym mem).heap.krnlHeap = heapBase sym := rfl

/-- The first `malloc` takes the first block without looking at its size. -/
theorem malloc_boot_guest (size : Nat) : (GuestState.boot sym mem).heap.malloc size =
    some ((GuestState.boot sym mem).heap.splitBlock (align4 size) (heapBase sym),
      heapBase sym + 8) := by
  have hin := sym.inRam
  have hsize := sym.headers
  have hbase := heapBase_eq sym
  obtain ⟨k, hk⟩ := Nat.exists_eq_succ_of_ne_zero (show Heap.rounds ≠ 0 by decide)
  have hsweep : sweep (align4 size) Heap.rounds (GuestState.boot sym mem).heap (heapBase sym) =
      some ((GuestState.boot sym mem).heap, some (heapBase sym)) := by
    rw [hk, sweep, if_pos (next_boot sym mem)]
  have hptr : add32 (heapBase sym) 8 = heapBase sym + 8 := u32_of_lt (by omega)
  rw [GuestHeap.malloc, krnlHeap_boot, hsweep, Option.map_some, ← hptr]

theorem heapLen_eq : heapLen sym = (sym.size - 8) / 4 * 4 := by
  have hin := sym.inRam
  have hsize := sym.headers
  have hlt : sub32 sym.size 8 < 2 ^ 32 := u32_lt _
  have hround : u32 ((sym.size - 8) / 4 * 4 + 3) = (sym.size - 8) / 4 * 4 + 3 :=
    u32_of_lt (by omega)
  rw [heapLen, mask_low_two hlt, sub32_of_le (by omega) (by omega), align4, add32, hround,
    Nat.shiftRight_eq_div_pow, Nat.shiftLeft_eq, u32_of_lt (by omega)]
  omega

end Boot

theorem GuestState.step_malloc {s : GuestState} {size r : Nat} {h : GuestHeap}
    (heq : s.heap.malloc size = some (h, r)) : s.step (.malloc size) =
      some (⟨h, if r = 0 then s.live else ⟨r, size⟩ :: s.live⟩, [r]) := by
  rw [GuestState.step, heq, Option.map_some]

/-- **The guest heap never has its integrity.** On no heap and in no state of any run
does the block list end at a sentinel at the end of the heap, because `init_mem`
puts the sentinel in front of it; and the first request is always granted, a block
longer than the whole heap included. -/
theorem guest_heap_never (sym : GuestHeapSymbols) (mem : Nat → Nat) :
    (∀ tr s, Lts.Run GuestState.step Lts.anyEvent (GuestState.boot sym mem) tr s →
      ¬ s.Integrity sym) ∧
    ∀ size, sym.size ≤ size →
      ∃ s' r, (GuestState.boot sym mem).step (.malloc size) = some (s', [r]) ∧ r ≠ 0 ∧
        ∃ b ∈ s'.live, b.ptr = r ∧ sym.start + sym.size < (GuestState.payload b).stop := by
  have hbase := heapBase_eq sym
  refine ⟨fun tr s _ hint => ?_, fun size hlarge => ?_⟩
  · have hend := hint.atEnd
    have hsent := sentinel_eq sym
    have hlen := heapLen_eq sym
    have hsize := sym.headers
    omega
  · have hne : GuestHeap.heapBase sym + 8 ≠ 0 := Nat.succ_ne_zero _
    refine ⟨_, _, GuestState.step_malloc (malloc_boot_guest sym mem size), hne,
      ⟨GuestHeap.heapBase sym + 8, size⟩, ?_, rfl, ?_⟩
    · rw [if_neg hne]
      exact List.mem_cons_self
    · unfold Region.stop GuestState.payload
      dsimp only
      omega

/-- A page of heap has no integrity after `init_mem` and grants 5000 bytes. -/
theorem guest_heap_never_page :
    ¬ (GuestState.boot ⟨0x80001000, 4096, by decide, by decide⟩ fun _ => 0).Integrity
        ⟨0x80001000, 4096, by decide, by decide⟩ ∧
      ∃ s' r, (GuestState.boot ⟨0x80001000, 4096, by decide, by decide⟩ fun _ => 0).step
        (.malloc 5000) = some (s', [r]) ∧ r ≠ 0 ∧
          ∃ b ∈ s'.live, b.ptr = r ∧ 0x80002000 < (GuestState.payload b).stop := by
  have h := guest_heap_never ⟨0x80001000, 4096, by decide, by decide⟩ fun _ => 0
  exact ⟨h.1 _ _ Lts.Run.nil, h.2 5000 (by decide)⟩

/-- A page of heap grants 5000 bytes and then another 5000, with one block list entry
pointing behind the heap. -/
theorem guest_malloc_oversized :
    ∃ s, Lts.Run GuestState.step Lts.anyEvent
        (GuestState.boot ⟨0x80001000, 4096, by decide, by decide⟩ fun _ => 0)
        [0x80001010, 0x800023a0] s ∧
      ¬ s.Integrity ⟨0x80001000, 4096, by decide, by decide⟩ := by
  have hrun := Lts.exec_run (show (Lts.exec GuestState.step Lts.anyEvent
    (GuestState.boot ⟨0x80001000, 4096, by decide, by decide⟩ fun _ => 0)
    [.malloc 5000, .malloc 5000]).isSome = true by decide)
  refine ⟨_, hrun, fun hint => ?_⟩
  have hin := (hint.inside ⟨0x80001010, 5000⟩ (by decide)).2
  exact absurd hin (by decide)

end PrplHypervisor
