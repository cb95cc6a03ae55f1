import PrplHypervisor.Heap.Bytes

/-!
# Sizes near the end of the address space

The rounding of `malloc`, the product of `calloc` and the alignment of the guest are
32-bit arithmetic and are never checked.

- The hypervisor's `malloc` rounds the last seven sizes down to an empty block.
- The product of `calloc` is cut to 32 bits; from 2 GB on the hypervisor's `memset`
  writes nothing.
- The guest's `malloc` places the header of the rest `size + 8` behind the block; a
  size from `2^32 - 11` on places it over the block's own header, or is rounded to 0.

`allocationSizes_iff` says for which sizes blocks are as long as they should be.
-/

namespace PrplHypervisor

open Word32

/-- The block at `ptr` has `n` bytes, all of them zero. -/
def Heap.Zeroed (h : Heap) (ptr n : Nat) : Prop := n ≤ h.usable ptr ∧ ∀ i < n, h.byte ptr i = 0

/-- The block at `ptr` has `n` bytes, all of them zero. -/
def GuestHeap.Zeroed (h : GuestHeap) (ptr n : Nat) : Prop :=
  n ≤ h.usable ptr ∧ ∀ i < n, h.byte ptr i = 0

/-- What `calloc` hands out is long enough and cleared. -/
def Heap.CallocServes (h : Heap) (qty typeSize : Nat) : Prop :=
  ∀ h' r, h.calloc qty typeSize = some (h', r) → r ≠ 0 → h'.Zeroed r (qty * typeSize)

/-- What `calloc` hands out is long enough and cleared. -/
def GuestHeap.CallocServes (h : GuestHeap) (qty typeSize : Nat) : Prop :=
  ∀ h' r, h.calloc qty typeSize = some (h', r) → r ≠ 0 → h'.Zeroed r (qty * typeSize)

theorem sub32_add32 {a k : Nat} (ha : a < 2 ^ 32) (hk : k < 2 ^ 32) : sub32 (add32 a k) k = a := by
  unfold sub32 add32 u32
  omega

/-- A step that is made for pointers other than `NULL` only. -/
theorem exists_of_map_eq {σ : Type} {m : Option (σ × Nat)} (f : σ → Nat → σ) {s' : σ} {r : Nat}
    (heq : (m.map fun p => (if p.2 = 0 then p.1 else f p.1 p.2, p.2)) = some (s', r))
    (hr : r ≠ 0) : ∃ s, m = some (s, r) ∧ s' = f s r := by
  rw [Option.map_eq_some_iff] at heq
  obtain ⟨⟨s, p⟩, hm, hres⟩ := heq
  obtain ⟨hstate, rfl⟩ := Prod.mk.inj hres
  rw [if_neg hr] at hstate
  exact ⟨s, hm, hstate.symm⟩

/-! ## The hypervisor -/

namespace Heap

/-- Pointers and sizes have 32 bits. -/
structure Words (h : Heap) : Prop where
  freep : h.freep < 2 ^ 32
  next : ∀ a, h.next a < 2 ^ 32
  size : ∀ a, h.size a < 2 ^ 32

variable {h h' : Heap}

theorem OnFreeList.next {a : Nat} (hon : h.OnFreeList a) : h.OnFreeList (h.next a) := by
  obtain ⟨k, rfl⟩ := hon
  exact ⟨k + 1, Function.iterate_succ_apply' _ _ _⟩

theorem OnFreeList.lt (hw : h.Words) {a : Nat} (hon : h.OnFreeList a) : a < 2 ^ 32 := by
  obtain ⟨k, rfl⟩ := hon
  cases k with
  | zero => exact hw.freep
  | succ k =>
    rw [Function.iterate_succ_apply']
    exact hw.next _

/-- The loop of `malloc` hands out a block of the free list that is large enough. -/
theorem mallocLoop_some {n fuel prevp p r : Nat} (hp : h.OnFreeList p)
    (heq : mallocLoop h n fuel prevp p = some (h', r)) :
    (h', r) = (h, 0) ∨ ∃ pr q, h.OnFreeList q ∧ n ≤ h.size q ∧ (h', r) = h.take n pr q := by
  induction fuel generalizing prevp p with
  | zero => cases heq
  | succ fuel ih =>
    rw [mallocLoop] at heq
    split_ifs at heq with hfit
    · exact Or.inr ⟨prevp, p, hp, hfit, (Option.some.inj heq).symm⟩
    · exact Or.inl (Option.some.inj heq).symm
    · exact ih hp.next heq

/-- The header of a block that is handed out holds its units. -/
theorem take_size (h : Heap) (n pr : Nat) {q : Nat} (hq : q < 2 ^ 32) :
    (h.take n pr q).1.size (sub32 (h.take n pr q).2 8) = n := by
  unfold take
  split_ifs with hexact
  · rw [sub32_add32 hq (by decide)]
    simpa using hexact
  · have htail : add32 q (8 * (h.size q - n)) < 2 ^ 32 := u32_lt _
    simp [sub32_add32 htail]

theorem malloc_some {size r : Nat} (heq : h.malloc size = some (h', r)) (hr : r ≠ 0) :
    ∃ pr q, h.OnFreeList q ∧ nunits size ≤ h.size q ∧ (h', r) = h.take (nunits size) pr q := by
  rw [malloc] at heq
  split_ifs at heq
  · cases heq
    exact absurd rfl hr
  · have hfirst : h.OnFreeList (h.next h.freep) := ⟨1, rfl⟩
    obtain hnull | hfound := mallocLoop_some hfirst heq
    · cases hnull
      exact absurd rfl hr
    · exact hfound

/-- A block has the bytes that its units make, less the header. -/
theorem malloc_usable (hw : h.Words) {size r : Nat} (heq : h.malloc size = some (h', r))
    (hr : r ≠ 0) : h'.usable r = 8 * (nunits size - 1) := by
  obtain ⟨pr, q, hq, -, htake⟩ := malloc_some heq hr
  have hsize := take_size h (nunits size) pr (hq.lt hw)
  rw [← htake] at hsize
  rw [usable, hsize]

/-- `malloc` rounds up, the last seven sizes apart. -/
theorem le_units_iff {size : Nat} (hs : size < 2 ^ 32) :
    size ≤ 8 * (nunits size - 1) ↔ size ≤ 2 ^ 32 - 8 := by
  unfold nunits add32 u32
  omega

theorem units_le (size : Nat) : 8 * (nunits size - 1) ≤ 2 ^ 32 - 8 := by
  unfold nunits add32 u32
  omega

/-- The header is not among the bytes in front of the wrap. -/
theorem header_ne_addr {ptr i : Nat} (hi : i < 2 ^ 32 - 8) :
    sub32 ptr 8 ≠ headerCell.addr ptr i := by
  have hle : i / 8 * 8 ≤ i := Nat.div_mul_le_self i 8
  intro heq
  unfold Cell.addr at heq
  rw [show headerCell.width = 8 from rfl] at heq
  unfold sub32 add32 u32 at heq
  omega

theorem signedCount_lt (bytes : Nat) : signedCount bytes < 2 ^ 31 := by
  unfold signedCount
  split_ifs <;> omega

theorem usable_memset {ptr bytes : Nat} (c : UInt8) :
    (h.memset ptr c bytes).usable ptr = h.usable ptr := by
  have hcount := signedCount_lt bytes
  have hcell : (h.memset ptr c bytes).mem (sub32 ptr 8) = h.mem (sub32 ptr 8) :=
    Cell.fill_apply_of_ne fun i hi => header_ne_addr (by omega)
  rw [usable, usable, size, size, hcell]

/-- `calloc`, opened up. -/
theorem calloc_some {qty typeSize r : Nat} (heq : h.calloc qty typeSize = some (h', r))
    (hr : r ≠ 0) : ∃ h₁, h.malloc (u32 (qty * typeSize)) = some (h₁, r) ∧
      h' = h₁.memset r 0 (u32 (qty * typeSize)) :=
  exists_of_map_eq (fun (h : Heap) p => h.memset p 0 (u32 (qty * typeSize))) heq hr

/-- A product below 2 GB is served. -/
theorem callocServes_of_lt (hw : h.Words) {qty typeSize : Nat} (hlt : qty * typeSize < 2 ^ 31) :
    h.CallocServes qty typeSize := by
  rintro h' r heq hr
  obtain ⟨h₁, hm, rfl⟩ := calloc_some heq hr
  generalize qty * typeSize = product at hlt hm
  have hu : u32 product = product := u32_of_lt (by omega)
  have hcount : signedCount product = product := if_pos hlt
  rw [hu] at hm ⊢
  rw [Zeroed, usable_memset, malloc_usable hw hm hr, le_units_iff (by omega)]
  exact ⟨by omega, fun i hi => Cell.byte_fill (by omega) (by rw [hcount]; exact hi)⟩

/-- No block is as long as a product of the last seven sizes or more. -/
theorem le_of_zeroed (hw : h.Words) {qty typeSize r : Nat}
    (heq : h.calloc qty typeSize = some (h', r)) (hr : r ≠ 0)
    (hz : h'.Zeroed r (qty * typeSize)) : qty * typeSize ≤ 2 ^ 32 - 8 := by
  obtain ⟨h₁, hm, rfl⟩ := calloc_some heq hr
  have hle := hz.1
  rw [usable_memset, malloc_usable hw hm hr] at hle
  exact Nat.le_trans hle (units_le _)

/-- Where no free block is longer than 2 GB, `calloc` serves all other products. -/
theorem zeroed_iff (hw : h.Words) (hshort : ∀ a, h.OnFreeList a → (h.block a).size ≤ 2 ^ 31)
    {qty typeSize r : Nat} (heq : h.calloc qty typeSize = some (h', r)) (hr : r ≠ 0) :
    h'.Zeroed r (qty * typeSize) ↔ qty * typeSize ≤ 2 ^ 32 - 8 := by
  refine ⟨le_of_zeroed hw heq hr, fun hle => ?_⟩
  by_cases hlt : qty * typeSize < 2 ^ 31
  · exact callocServes_of_lt hw hlt h' r heq hr
  -- a block for such a product would be longer
  · obtain ⟨h₁, hm, -⟩ := calloc_some heq hr
    obtain ⟨pr, q, hq, hfit, -⟩ := malloc_some hm hr
    have hq31 := hshort q hq
    have hunits := (le_units_iff (u32_lt (qty * typeSize))).mpr (by rwa [u32_of_lt (by omega)])
    rw [u32_of_lt (by omega)] at hfit hunits
    rw [block_size] at hq31
    omega

theorem words_boot (sym : HeapSymbols) (mem : Nat → MemHeader)
    (hmem : ∀ a, (mem a).ptr < 2 ^ 32 ∧ (mem a).size < 2 ^ 32) :
    (HeapState.boot sym mem).heap.Words := by
  have hin := sym.inRam
  have hunits : sym.units < 2 ^ 32 := u32_lt _
  have hcell : ∀ a, ((HeapState.boot sym mem).heap.mem a).ptr < 2 ^ 32 ∧
      ((HeapState.boot sym mem).heap.mem a).size < 2 ^ 32 := by
    intro a
    rw [boot_heap]
    by_cases ha : a = sym.start + 8
    · subst ha
      simp only [Function.update_self]
      exact ⟨by omega, hunits⟩
    · simp only [Function.update_of_ne ha]
      exact hmem a
  refine ⟨?_, fun a => (hcell a).1, fun a => (hcell a).2⟩
  rw [boot_freep]
  omega

/-- A heap with one block of `n` units, in a memory full of headers. -/
def filled (n : Nat) : Heap := ⟨fun _ => ⟨8, n⟩, 8, 8, ⟨8, n⟩⟩

theorem words_filled {n : Nat} (hn : n < 2 ^ 32) : (filled n).Words where
  freep := show 8 < 2 ^ 32 by decide
  next _ := show 8 < 2 ^ 32 by decide
  size _ := hn

theorem malloc_filled (size : Nat) :
    (filled (nunits size)).malloc size = some ((filled (nunits size)).setPtr 8 8, 16) := by
  obtain ⟨k, hk⟩ := Nat.exists_eq_succ_of_ne_zero (show rounds ≠ 0 by decide)
  have hfreep : (filled (nunits size)).freep ≠ 0 := Nat.succ_ne_zero 7
  have hfirst : (filled (nunits size)).size ((filled (nunits size)).next
      (filled (nunits size)).freep) = nunits size := rfl
  rw [malloc, if_neg hfreep, hk, mallocLoop, if_pos (Nat.le_of_eq hfirst.symm), take,
    if_pos hfirst]
  rfl

/-- From 2 GB on `memset` clears nothing. -/
theorem not_callocServes {qty typeSize : Nat} (hlarge : 2 ^ 31 ≤ qty * typeSize) :
    ¬ (filled (nunits (u32 (qty * typeSize)))).CallocServes qty typeSize := by
  intro hserves
  have hunits : nunits (u32 (qty * typeSize)) < 2 ^ 32 := u32_lt _
  have hne : (16 : Nat) ≠ 0 := by decide
  have heq : (filled (nunits (u32 (qty * typeSize)))).calloc qty typeSize =
      some (((filled (nunits (u32 (qty * typeSize)))).setPtr 8 8).memset 16 0
        (u32 (qty * typeSize)), 16) := by
    rw [calloc, malloc_filled]
    rfl
  have hz := hserves _ 16 heq hne
  have hle := le_of_zeroed (words_filled hunits) heq hne hz
  have hcount : signedCount (u32 (qty * typeSize)) = 0 := by
    rw [u32_of_lt (by omega)]
    exact if_neg (by omega)
  have hzero := hz.2 0 (by omega)
  rw [memset, hcount] at hzero
  -- the memory still holds the pointer
  have hbyte : byteOfWord 8 0 = 0 := hzero
  exact absurd hbyte (by decide)

end Heap

/-! ## The guest -/

namespace GuestHeap

/-- The memory holds 32-bit words. -/
structure Words (h : GuestHeap) : Prop where
  mem : ∀ a, h.mem a < 2 ^ 32
  krnlHeap : h.krnlHeap < 2 ^ 32

variable {h h' : GuestHeap}

theorem Words.setNext (hw : h.Words) {p v : Nat} (hv : v < 2 ^ 32) : (h.setNext p v).Words where
  mem a := by
    unfold GuestHeap.setNext
    by_cases ha : a = p
    · simpa [ha] using hv
    · simpa [ha] using hw.mem a
  krnlHeap := hw.krnlHeap

theorem Words.setSize (hw : h.Words) {p v : Nat} (hv : v < 2 ^ 32) : (h.setSize p v).Words :=
  hw.setNext hv

theorem skipUsed_lt (hw : h.Words) {fuel p q : Nat} (hp : p < 2 ^ 32)
    (heq : skipUsed h fuel p = some q) : q < 2 ^ 32 := by
  induction fuel generalizing p with
  | zero => cases heq
  | succ fuel ih =>
    rw [skipUsed] at heq
    split_ifs at heq
    · exact ih (hw.mem p) heq
    · exact Option.some.inj heq ▸ hp

theorem skipFree_lt (hw : h.Words) {fuel p q : Nat} (hp : p < 2 ^ 32)
    (heq : skipFree h fuel p = some q) : q < 2 ^ 32 := by
  induction fuel generalizing p with
  | zero => cases heq
  | succ fuel ih =>
    rw [skipFree] at heq
    split_ifs at heq
    · exact ih (hw.mem p) heq
    · exact Option.some.inj heq ▸ hp

theorem coalesce_words (hw : h.Words) {p p' q : Nat} (hp : p < 2 ^ 32)
    (heq : h.coalesce p = some (h', p', q)) : h'.Words ∧ p' < 2 ^ 32 ∧ q < 2 ^ 32 := by
  obtain ⟨hused, hfree, rfl⟩ := coalesce_some heq
  have hq := skipUsed_lt hw hp hused
  have hp' := skipFree_lt hw hq hfree
  refine ⟨?_, hp', hq⟩
  split_ifs
  · exact hw
  · exact (hw.setSize (u32_lt _)).setNext hp'

theorem sweep_words {m fuel p q : Nat} (hw : h.Words) (hp : p < 2 ^ 32)
    (heq : sweep m fuel h p = some (h', some q)) : h'.Words ∧ q < 2 ^ 32 := by
  induction fuel generalizing h p with
  | zero => cases heq
  | succ fuel ih =>
    rcases sweep_cases heq with ⟨-, rfl, hfound⟩ | ⟨-, h₁, p₁, q₁, hc, hround⟩
    · exact Option.some.inj hfound ▸ ⟨hw, hp⟩
    · obtain ⟨hw₁, hp₁, hq₁⟩ := coalesce_words hw hp hc
      rcases hround with ⟨-, -, -, hnone⟩ | ⟨-, rfl, hfound⟩ | ⟨-, -, hrest⟩
      · cases hnone
      · exact Option.some.inj hfound ▸ ⟨hw₁, hq₁⟩
      · exact ih hw₁ hp₁ hrest

/-- A result of `malloc` is behind the header of the block that was split. -/
theorem malloc_some (hw : h.Words) {size r : Nat} (heq : h.malloc size = some (h', r))
    (hr : r ≠ 0) : ∃ h₀ p, h₀.Words ∧ p < 2 ^ 32 ∧
      sweep (align4 size) Heap.rounds h h.krnlHeap = some (h₀, some p) ∧
      h' = h₀.splitBlock (align4 size) p ∧ r = add32 p 8 := by
  rw [malloc, Option.map_eq_some_iff] at heq
  obtain ⟨⟨h₀, found⟩, hs, hres⟩ := heq
  cases found with
  | none =>
    cases hres
    exact absurd rfl hr
  | some p =>
    cases hres
    obtain ⟨hw₀, hp⟩ := sweep_words hw hw.krnlHeap hs
    exact ⟨h₀, p, hw₀, hp, hs, rfl, rfl⟩

theorem align4_eq {size : Nat} (hs : size ≤ 2 ^ 32 - 4) : align4 size = (size + 3) / 4 * 4 := by
  have hround : u32 (size + 3) = size + 3 := u32_of_lt (by omega)
  rw [align4, add32, hround, Nat.shiftRight_eq_div_pow, Nat.shiftLeft_eq, u32_of_lt (by omega)]

theorem or_one_half (m : Nat) : (m ||| 1) / 2 * 2 = m / 2 * 2 := by
  rw [Nat.or_div_two, show 1 / 2 = 0 from rfl, Nat.or_zero]

/-- The block that was split has the size asked for, unless the header behind it
comes to lie over its own. -/
theorem splitBlock_usable {m p : Nat} (hp : p < 2 ^ 32) (hm : m ≤ 2 ^ 32 - 12) :
    (h.splitBlock m p).usable (add32 p 8) = m / 2 * 2 := by
  have hnext : add32 p 4 ≠ add32 (add32 p m) 8 := by
    unfold add32 u32
    omega
  have hsize : add32 p 4 ≠ add32 (add32 (add32 p m) 8) 4 := by
    unfold add32 u32
    omega
  rw [usable, sub32_add32 hp (by decide), size]
  simp only [splitBlock, GuestHeap.setSize, GuestHeap.setNext]
  rw [Function.update_of_ne hsize, Function.update_of_ne hnext, Function.update_self, or_one_half]

/-- The size field is not among the bytes behind the block's header. -/
theorem size_ne_addr {p i : Nat} (hi : i < 2 ^ 32 - 4) :
    add32 p 4 ≠ wordCell.addr (add32 p 8) i := by
  have hle : i / 4 * 4 ≤ i := Nat.div_mul_le_self i 4
  intro heq
  unfold Cell.addr at heq
  rw [show wordCell.width = 4 from rfl] at heq
  unfold add32 u32 at heq
  omega

/-- `calloc`, opened up. -/
theorem calloc_some {qty typeSize r : Nat} (heq : h.calloc qty typeSize = some (h', r))
    (hr : r ≠ 0) : ∃ h₁, h.malloc (u32 (qty * typeSize)) = some (h₁, r) ∧
      h' = h₁.memset r 0 (u32 (qty * typeSize)) :=
  exists_of_map_eq (fun (h : GuestHeap) p => h.memset p 0 (u32 (qty * typeSize))) heq hr

/-- `calloc` serves every product that leaves room for the header behind the block. -/
theorem callocServes_of_le (hw : h.Words) {qty typeSize : Nat}
    (hle : qty * typeSize ≤ 2 ^ 32 - 12) : h.CallocServes qty typeSize := by
  rintro h' r heq hr
  obtain ⟨h₁, hm, rfl⟩ := calloc_some heq hr
  obtain ⟨h₀, p, -, hp, -, rfl, rfl⟩ := malloc_some hw hm hr
  generalize qty * typeSize = product at hle
  have hu : u32 product = product := u32_of_lt (by omega)
  have hround : align4 product = (product + 3) / 4 * 4 := align4_eq (by omega)
  have husable := splitBlock_usable (h := h₀) hp (m := align4 product) (by omega)
  rw [hu]
  refine ⟨?_, fun i hi => Cell.byte_fill (by omega) hi⟩
  -- the bytes that are cleared end in front of the size field
  have hcell : ((h₀.splitBlock (align4 product) p).memset (add32 p 8) 0 product).size p =
      (h₀.splitBlock (align4 product) p).size p :=
    Cell.fill_apply_of_ne fun i hi => size_ne_addr (by omega)
  rw [usable, sub32_add32 hp (by decide)] at husable ⊢
  rw [hcell, husable]
  omega

theorem putByte_zero_le (w k : Nat) : putByte w k 0 ≤ w := by
  have hbyte : ∀ j, (if j = k then 0 else byteOfWord w j).toNat ≤ w / 2 ^ (8 * j) % 2 ^ 8 := by
    intro j
    split_ifs
    · exact Nat.zero_le _
    · exact Nat.le_of_eq (byteOfWord_toNat w j)
  have h₀ := hbyte 0
  have h₁ := hbyte 1
  have h₂ := hbyte 2
  have h₃ := hbyte 3
  simp only [putByte, wordAt, Nat.zero_add]
  omega

/-- Clearing bytes makes no word larger. -/
theorem fill_zero_le (mem : Nat → Nat) (p n a : Nat) : wordCell.fill mem p 0 n a ≤ mem a := by
  induction n with
  | zero => exact Nat.le_refl _
  | succ n ih =>
    refine Nat.le_trans ?_ ih
    rw [Cell.fill, Cell.setByte]
    by_cases ha : a = wordCell.addr p n
    · subst ha
      rw [Function.update_self]
      exact putByte_zero_le _ _
    · rw [Function.update_of_ne ha]

theorem usable_memset_zero_le (ptr n : Nat) : (h.memset ptr 0 n).usable ptr ≤ h.usable ptr :=
  Nat.mul_le_mul_right 2 (Nat.div_le_div_right (fill_zero_le _ _ _ _))

section Boot

variable (sym : GuestHeapSymbols) (mem : Nat → Nat)

theorem size_boot : (GuestState.boot sym mem).heap.size (heapBase sym) = heapLen sym - 16 := by
  have hbase := heapBase_eq sym
  have hsent := sentinel_eq sym
  have hlen := heapLen_eq sym
  have hsize := sym.headers
  have hin := sym.inRam
  have haddr : add32 (sentinel (heapBase sym)) 4 = heapBase sym := by
    rw [add32, hsent, u32_of_lt (by omega)]
  have hfield : add32 (heapBase sym) 4 = heapBase sym + 4 := u32_of_lt (by omega)
  have hfirst : sub32 (heapLen sym) 8 = heapLen sym - 8 := sub32_of_le (by omega) (by omega)
  unfold GuestState.boot initMem
  simp only [GuestHeap.size, GuestHeap.setSize, GuestHeap.setNext, haddr, hfield]
  rw [Function.update_of_ne (by omega), Function.update_of_ne (by omega), Function.update_self,
    hfirst, sub32_of_le (by omega) (by omega)]
  omega

/-- A size that places the next header over the first block's own one, or that is
rounded to nothing, leaves the first block with another size. -/
theorem usable_boot_lt {size : Nat} (hs : size < 2 ^ 32) (hlarge : 2 ^ 32 - 12 < size) :
    ((GuestState.boot sym mem).heap.splitBlock (align4 size) (heapBase sym)).usable
      (heapBase sym + 8) < 2 ^ 32 - 12 := by
  have hbase := heapBase_eq sym
  have hlen := heapLen_eq sym
  have hsize := sym.headers
  have hin := sym.inRam
  have hold := size_boot sym mem
  have hnext := next_boot sym mem
  have hptr : sub32 (heapBase sym + 8) 8 = heapBase sym := sub32_of_le (by omega) (by omega)
  have hfield : add32 (heapBase sym) 4 = heapBase sym + 4 := u32_of_lt (by omega)
  rw [usable, hptr, splitBlock, hnext, hold, GuestHeap.size, hfield]
  simp only [GuestHeap.setSize, GuestHeap.setNext, hfield]
  rcases (show size ≤ 2 ^ 32 - 8 ∨ 2 ^ 32 - 8 < size ∧ size ≤ 2 ^ 32 - 4 ∨ 2 ^ 32 - 4 < size by
    omega) with h8 | ⟨h8, h4⟩ | h0
  -- the rest's header is the block's own: the size is the rest
  · have hround : align4 size = 2 ^ 32 - 8 := by
      rw [align4_eq (by omega)]
      omega
    have hp : add32 (add32 (heapBase sym) (2 ^ 32 - 8)) 8 = heapBase sym := by
      unfold add32 u32
      omega
    rw [hround, hp, hfield, Function.update_self]
    unfold sub32 u32
    omega
  -- it begins at the size field: the size is the link
  · have hround : align4 size = 2 ^ 32 - 4 := by
      rw [align4_eq h4]
      omega
    have hp : add32 (add32 (heapBase sym) (2 ^ 32 - 4)) 8 = heapBase sym + 4 := by
      unfold add32 u32
      omega
    have hp4 : add32 (heapBase sym + 4) 4 ≠ heapBase sym + 4 := by
      unfold add32 u32
      omega
    rw [hround, hp, Function.update_of_ne hp4.symm, Function.update_self]
    omega
  · have hround : align4 size = 0 := by
      have hwrap : u32 (size + 3) < 4 := by
        unfold u32
        omega
      rw [align4, add32, Nat.shiftRight_eq_div_pow, Nat.shiftLeft_eq, Nat.div_eq_of_lt hwrap]
      rfl
    have hp : add32 (add32 (heapBase sym) 0) 8 = heapBase sym + 8 := by
      unfold add32 u32
      omega
    have hp4 : add32 (heapBase sym + 8) 4 = heapBase sym + 12 := u32_of_lt (by omega)
    rw [hround, hp, hp4, Function.update_of_ne (by omega), Function.update_of_ne (by omega),
      Function.update_self, or_one_half]
    decide

theorem boot_words (hmem : ∀ a, mem a < 2 ^ 32) : (GuestState.boot sym mem).heap.Words where
  mem := by
    have hw : (⟨mem, 0, 0⟩ : GuestHeap).Words := ⟨hmem, Nat.two_pow_pos 32⟩
    have hlink := hw.setNext (p := heapBase sym) (v := sentinel (heapBase sym)) (u32_lt _)
    have hfirst :=
      hlink.setSize (p := heapBase sym) (v := sub32 (sub32 (heapLen sym) 8) 8) (u32_lt _)
    exact ((hfirst.setNext (p := sentinel (heapBase sym)) (v := 0) (by decide)).setSize
      (p := sentinel (heapBase sym)) (v := 0) (by decide)).mem
  krnlHeap := by
    have hbase := heapBase_eq sym
    have hin := sym.inRam
    have hsize := sym.headers
    rw [krnlHeap_boot]
    omega

/-- Beyond that the first `calloc` already hands out too little. -/
theorem callocServes_boot_iff (hmem : ∀ a, mem a < 2 ^ 32) {qty typeSize : Nat} :
    (GuestState.boot sym mem).heap.CallocServes qty typeSize ↔ qty * typeSize ≤ 2 ^ 32 - 12 := by
  refine ⟨fun hserves => ?_, callocServes_of_le (boot_words sym mem hmem)⟩
  by_contra hcon
  have hne : heapBase sym + 8 ≠ 0 := Nat.succ_ne_zero _
  have hcalloc := hserves _ (heapBase sym + 8)
    (by rw [calloc, malloc_boot_guest, Option.map_some]) hne
  have hle := hcalloc.1
  dsimp only at hle
  rw [if_neg hne] at hle
  have hcleared := Nat.le_trans hle (usable_memset_zero_le _ _)
  generalize qty * typeSize = product at hcon hcleared
  by_cases hcut : u32 product ≤ 2 ^ 32 - 12
  -- the product has been cut to 32 bits
  · have hbase := heapBase_eq sym
    have hin := sym.inRam
    have hsize := sym.headers
    have hptr : add32 (heapBase sym) 8 = heapBase sym + 8 := u32_of_lt (by omega)
    have hround : align4 (u32 product) = (u32 product + 3) / 4 * 4 := align4_eq (by omega)
    have husable := splitBlock_usable (h := (GuestState.boot sym mem).heap) (p := heapBase sym)
      (m := align4 (u32 product)) (by omega) (by omega)
    rw [hptr] at husable
    rw [husable] at hcleared
    unfold u32 at hcut hround hcleared
    omega
  · have hlt := usable_boot_lt sym mem (u32_lt product) (by omega)
    omega

end Boot

end GuestHeap

/-- **Allocation sizes.** A block that the hypervisor's `malloc` hands out is as long
as it should be unless the size is one of the last seven. Its `calloc` serves a
product on every heap exactly below 2 GB, and on a heap whose free blocks are not
longer than that, such as the chip's RAM, whenever the product leaves room for the
rounding. The guest's `calloc` serves a product exactly when it leaves room for the
next header, and otherwise fails at once after `init_mem`. -/
theorem allocationSizes_iff {size : Nat} (hs : size < 2 ^ 32) (qty typeSize : Nat) :
    (∀ (h h' : Heap) (r : Nat), h.Words → h.malloc size = some (h', r) → r ≠ 0 →
      (size ≤ h'.usable r ↔ size ≤ 2 ^ 32 - 8)) ∧
    (((∀ h : Heap, h.Words → h.CallocServes qty typeSize) ↔ qty * typeSize < 2 ^ 31) ∧
      ∀ (h h' : Heap) (r : Nat), h.Words →
        (∀ a, h.OnFreeList a → (h.block a).size ≤ 2 ^ 31) →
        h.calloc qty typeSize = some (h', r) → r ≠ 0 →
        (h'.Zeroed r (qty * typeSize) ↔ qty * typeSize ≤ 2 ^ 32 - 8)) ∧
    (((∀ h : GuestHeap, h.Words → h.CallocServes qty typeSize) ↔
        qty * typeSize ≤ 2 ^ 32 - 12) ∧
      ∀ sym mem, (∀ a, mem a < 2 ^ 32) →
        ((GuestState.boot sym mem).heap.CallocServes qty typeSize ↔
          qty * typeSize ≤ 2 ^ 32 - 12)) := by
  refine ⟨fun h h' r hw heq hr => ?_, ⟨⟨fun hall => ?_, ?_⟩, ?_⟩, ⟨⟨fun hall => ?_, ?_⟩, ?_⟩⟩
  · rw [Heap.malloc_usable hw heq hr]
    exact Heap.le_units_iff hs
  · by_contra hcon
    exact Heap.not_callocServes (Nat.le_of_not_lt hcon) (hall _ (Heap.words_filled (u32_lt _)))
  · exact fun hlt h hw => Heap.callocServes_of_lt hw hlt
  · exact fun h h' r hw hshort heq hr => Heap.zeroed_iff hw hshort heq hr
  · have hzero : ∀ a : Nat, (fun _ => 0 : Nat → Nat) a < 2 ^ 32 := fun _ => Nat.two_pow_pos 32
    have hboot := GuestHeap.boot_words ⟨0x80001000, 4096, by decide, by decide⟩ _ hzero
    exact (GuestHeap.callocServes_boot_iff _ _ hzero).mp (hall _ hboot)
  · exact fun hle h hw => GuestHeap.callocServes_of_le hw hle
  · exact fun sym mem hmem => GuestHeap.callocServes_boot_iff sym mem hmem

/-- The page after `init_mem` serves 100 bytes and three times 100 bytes. -/
theorem allocationSizes_iff_page :
    (∃ h' r, (HeapState.boot ⟨0x80001000, 4096, by decide, by decide⟩
        fun _ => ⟨0, 0⟩).heap.malloc 100 = some (h', r) ∧ 100 ≤ h'.usable r) ∧
      (∃ h' r, (HeapState.boot ⟨0x80001000, 4096, by decide, by decide⟩
        fun _ => ⟨0, 0⟩).heap.calloc 3 100 = some (h', r) ∧ h'.Zeroed r 300) ∧
      (GuestState.boot ⟨0x80001000, 4096, by decide, by decide⟩ fun _ => 0).heap.CallocServes
        3 100 := by
  have hw := Heap.words_boot ⟨0x80001000, 4096, by decide, by decide⟩ (fun _ => ⟨0, 0⟩)
    fun _ => ⟨by decide, by decide⟩
  have hshort : ∀ a, (HeapState.boot ⟨0x80001000, 4096, by decide, by decide⟩
      fun _ => ⟨0, 0⟩).heap.OnFreeList a → ((HeapState.boot ⟨0x80001000, 4096, by decide, by decide⟩
      fun _ => ⟨0, 0⟩).heap.block a).size ≤ 2 ^ 31 := by
    rintro a ⟨k, rfl⟩
    rw [boot_freep, Function.iterate_fixed (boot_next _ _)]
    decide
  obtain ⟨hmalloc, ⟨-, hcalloc⟩, -, hguest⟩ :=
    allocationSizes_iff (show 100 < 2 ^ 32 by decide) 3 100
  exact ⟨⟨_, _, rfl, (hmalloc _ _ _ hw rfl (by decide)).mpr (by decide)⟩,
    ⟨_, _, rfl, (hcalloc _ _ _ hw hshort rfl (by decide)).mpr (by decide)⟩,
    (hguest _ _ fun _ => by decide).mpr (by decide)⟩

/-- The largest size gets an empty block, and so does a product of `2^32`. -/
theorem wrapped_sizes_empty :
    (∃ h' r, (HeapState.boot ⟨0x80001000, 4096, by decide, by decide⟩
        fun _ => ⟨0, 0⟩).heap.malloc 0xFFFFFFFF = some (h', r) ∧ r ≠ 0 ∧ h'.usable r = 0) ∧
      (∃ h' r, (HeapState.boot ⟨0x80001000, 4096, by decide, by decide⟩
        fun _ => ⟨0, 0⟩).heap.calloc 0x10000 0x10000 = some (h', r) ∧ r ≠ 0 ∧
          ¬ h'.Zeroed r (0x10000 * 0x10000)) ∧
      ¬ (GuestState.boot ⟨0x80001000, 4096, by decide, by decide⟩ fun _ => 0).heap.CallocServes
        0x10000 0x10000 := by
  refine ⟨⟨_, _, rfl, by decide, by decide⟩, ⟨_, _, rfl, by decide, fun hz => ?_⟩,
    fun hserves => ?_⟩
  · exact absurd hz.1 (by decide)
  · exact absurd (hserves _ _ rfl (by decide)).1 (by decide)

end PrplHypervisor
