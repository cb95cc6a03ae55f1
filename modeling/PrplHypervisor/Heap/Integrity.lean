import PrplHypervisor.Heap.Calls
import PrplHypervisor.Lib.Lts

/-!
# Integrity of the hypervisor heap over whole runs

A program calls `malloc` and `free` in any order, frees only what it holds and
writes only to the bytes it asked for.

- `HeapState.Integrity`: what the program may rely on.
- `HeapCall.Safe`: the call does not run into one of the three defects, a heap
  whose last header would stick out, the last free block leaving whole, and the
  last free block being absorbed from the front.
- `heap_integrity`: runs of safe calls keep the integrity, every such call
  returns, and `NULL` means that no free block is large enough. The first call
  that is not safe breaks the integrity at once.
-/

namespace PrplHypervisor

open Word32 Layout LinkedRing

/-! ## The program and its heap -/

/-- The heap and the blocks the program holds. -/
structure HeapState where
  heap : Heap
  live : List Live

/-- What a program does with the heap. A store writes unit `i` of a block. -/
inductive HeapCall
  | malloc (size : Nat)
  | free (ptr : Nat)
  | store (ptr i : Nat) (v : MemHeader)

namespace HeapState

/-- The heap after `init_mem`, with whatever the memory held before. -/
def boot (sym : HeapSymbols) (mem : Nat → MemHeader) : HeapState :=
  ⟨Heap.initMem sym (Heap.reset mem), []⟩

/-- Sizes leave room for the header, and only held blocks are freed or written. -/
def Legal (s : HeapState) : HeapCall → Prop
  | .malloc size => size ≤ 2 ^ 32 - 16
  | .free ptr => ∃ b ∈ s.live, b.ptr = ptr
  | .store ptr i _ => ∃ b ∈ s.live, b.ptr = ptr ∧ 8 * i < b.requested

instance (s : HeapState) (c : HeapCall) : Decidable (s.Legal c) :=
  match c with
  | .malloc size => inferInstanceAs (Decidable (size ≤ 2 ^ 32 - 16))
  | .free ptr => inferInstanceAs (Decidable (∃ b ∈ s.live, b.ptr = ptr))
  | .store ptr i _ =>
    inferInstanceAs (Decidable (∃ b ∈ s.live, b.ptr = ptr ∧ 8 * i < b.requested))

/-- One call; it observes what `malloc` returns. A call that does not return is no step. -/
def step (s : HeapState) (c : HeapCall) : Option (HeapState × List Nat) :=
  if s.Legal c then
    match c with
    | .malloc size => (s.heap.malloc size).map fun r =>
        (⟨r.1, if r.2 = 0 then s.live else ⟨r.2, size⟩ :: s.live⟩, [r.2])
    | .free ptr => (s.heap.free ptr).map fun h =>
        (⟨h, s.live.eraseP fun b => b.ptr = ptr⟩, [])
    | .store ptr i v => some (⟨s.heap.write (ptr + 8 * i) v, s.live⟩, [])
  else none

end HeapState

/-! ## Integrity -/

/-- Block `a` is on the free list. -/
def Heap.OnFreeList (h : Heap) (a : Nat) : Prop := ∃ k, h.next^[k] h.freep = a

/-- `fs` is the free list, read from its lowest block. -/
structure Heap.FreeList (h : Heap) (fs : List Nat) : Prop where
  freep : h.freep ∈ fs
  cycle : Linked h.next (fs : List Nat)
  ordered : fs.Pairwise fun a b => a < b ∧ (h.block a).stop ≤ b

/-- A lower block of the free list ends before a higher one begins. -/
theorem Heap.FreeList.stop_le {h : Heap} {fs : List Nat} (hf : h.FreeList fs) {a b : Nat}
    (hma : a ∈ fs) (hmb : b ∈ fs) (hab : a < b) : (h.block a).stop ≤ b :=
  (pairwise_of_lt hf.ordered (fun _ _ hr => hr.1) hma hmb hab).2

/-- The heap serves the program: the blocks it holds are apart, inside the heap,
large enough and off the free list, which is a finite cycle in address order. -/
structure HeapState.Integrity (sym : HeapSymbols) (s : HeapState) : Prop where
  apart : s.live.Pairwise fun b c => (s.heap.block b.header).Disjoint (s.heap.block c.header)
  inside : ∀ b ∈ s.live, sym.start ≤ b.header ∧
    (s.heap.block b.header).stop ≤ sym.start + sym.size
  holds : ∀ b ∈ s.live, 8 ≤ b.ptr ∧ b.requested + 8 ≤ (s.heap.block b.header).size
  offList : ∀ a, s.heap.OnFreeList a → ∀ b ∈ s.live,
    (s.heap.block a).Disjoint (s.heap.block b.header)
  freeList : ∃ fs, s.heap.FreeList fs

/-- The heap's length, cut to a multiple of four, is a multiple of a header's size. -/
def HeapSymbols.Fits (sym : HeapSymbols) : Prop := 16 ≤ sym.size ∧ sym.size % 8 < 4

instance HeapSymbols.decidableFits (sym : HeapSymbols) : Decidable sym.Fits :=
  inferInstanceAs (Decidable (16 ≤ sym.size ∧ sym.size % 8 < 4))

/-- The call stays clear of the three defects. -/
def HeapCall.Safe (sym : HeapSymbols) (s : HeapState) : HeapCall → Prop
  | .malloc size =>
    (sym.Fits ∨ s.heap.size s.heap.freep < Heap.nunits size) ∧ ¬ s.heap.TakesLast size
  | .free ptr => ¬ s.heap.AbsorbsLast (ptr - 8)
  | .store _ _ _ => True

instance (sym : HeapSymbols) : DecidableRel (HeapCall.Safe sym) := fun s c =>
  match c with
  | .malloc size => inferInstanceAs (Decidable
      ((sym.Fits ∨ s.heap.size s.heap.freep < Heap.nunits size) ∧ ¬ s.heap.TakesLast size))
  | .free ptr => inferInstanceAs (Decidable (¬ s.heap.AbsorbsLast (ptr - 8)))
  | .store _ _ _ => .isTrue trivial

/-- A legal call does what the program expects: it returns, the heap keeps its
integrity, and `NULL` means that no free block is large enough. -/
def HeapState.Serves (sym : HeapSymbols) (s : HeapState) (c : HeapCall) : Prop :=
  ∃ s' os, s.step c = some (s', os) ∧ s'.Integrity sym ∧
    ∀ size, c = .malloc size → 0 ∈ os →
      ∀ a, s.heap.OnFreeList a → (s.heap.block a).size < size + 8

/-! ## Integrity from the invariant -/

section Arena

variable {sym : HeapSymbols} {lo hi : Nat} {s : HeapState} {fs : List Nat}

theorem Arena.mem_of_onFreeList {h : Heap} {live : List Live} (ha : Arena lo hi h fs live)
    (hfp : h.freep ∈ fs) {a : Nat} (hon : h.OnFreeList a) : a ∈ fs := by
  obtain ⟨k, rfl⟩ := hon
  induction k with
  | zero => exact hfp
  | succ k ih =>
    rw [Function.iterate_succ_apply']
    exact ha.ring.mem_next ih

theorem Arena.integrity (ha : Arena lo hi s.heap fs s.live) (hfp : s.heap.freep ∈ fs)
    (hlo : sym.start ≤ lo) (hhi : hi ≤ sym.start + sym.size) : s.Integrity sym where
  apart := by
    have h := List.pairwise_map.mp ha.parcels.apart
    have hlive := (List.pairwise_append.mp h).2.1
    rwa [List.pairwise_map] at hlive
  inside b hb := by
    have hin := ha.live_bounds hb
    unfold Region.stop
    rw [Heap.block_start, Heap.block_size]
    omega
  holds := ha.holds
  offList a hon b hb := by
    have hmem := ha.mem_of_onFreeList hfp hon
    exact (ha.live_disjoint hb hmem).symm
  freeList := by
    obtain ⟨gs, hr, hlt⟩ := ha.ascending
    have hg := ha.rotate hr.symm
    refine ⟨gs, hr.mem_iff.mpr hfp, hg.ring, hlt.imp_of_mem fun {a b} hma hmb hab => ⟨hab, ?_⟩⟩
    have hb := hg.bounds (List.mem_append_left _ hmb)
    have hd := hg.disjoint (List.mem_append_left _ hma) (List.mem_append_left _ hmb) hab.ne
    exact hd.stop_le (by rw [Heap.block_size]; omega) hab

end Arena

/-! ## The heap after `init_mem` -/

/-- The size of the first block, in units. -/
def HeapSymbols.units (sym : HeapSymbols) : Nat :=
  sub32 (Heap.nunits (sub32 sym.size 8 &&& 0xFFFFFFFC)) 1

section Boot

variable (sym : HeapSymbols) (mem : Nat → MemHeader)

theorem mask_low_two {x : Nat} (hx : x < 2 ^ 32) : x &&& 0xFFFFFFFC = x / 4 * 4 :=
  and_not32_mask (k := 2) hx (by decide)

theorem boot_address : add32 sym.start 8 &&& 0xFFFFFFFC = sym.start + 8 := by
  have hin := sym.inRam
  have hal := sym.aligned
  rw [add32, mask_low_two (u32_lt _), u32_of_lt (by omega)]
  omega

theorem boot_heap : (HeapState.boot sym mem).heap =
    ⟨Function.update mem (sym.start + 8) ⟨sym.start + 8, sym.units⟩, sym.start + 8,
      sym.start + 8, ⟨sym.start + 8, sym.units⟩⟩ := by
  unfold HeapState.boot Heap.initMem Heap.heapInit
  rw [if_pos (show (Heap.reset mem).freep = 0 from rfl), boot_address]
  rfl

@[simp] theorem boot_freep : (HeapState.boot sym mem).heap.freep = sym.start + 8 := by
  rw [boot_heap]

@[simp] theorem boot_next :
    (HeapState.boot sym mem).heap.next (sym.start + 8) = sym.start + 8 := by
  rw [boot_heap]
  simp [Heap.next]

@[simp] theorem boot_size : (HeapState.boot sym mem).heap.size (sym.start + 8) = sym.units := by
  rw [boot_heap]
  simp [Heap.size]

theorem units_eq : sym.units =
    (((((sym.size + 2 ^ 32 - 8) % 2 ^ 32 / 4 * 4 + 7) % 2 ^ 32 / 8 + 1) % 2 ^ 32) + 2 ^ 32 - 1)
      % 2 ^ 32 := by
  have hlt : sub32 sym.size 8 < 2 ^ 32 := u32_lt _
  rw [HeapSymbols.units, mask_low_two hlt]
  rfl

/-- A heap that fits is used up to a rest of less than four bytes. -/
theorem units_of_fits (hfit : sym.Fits) : 8 + 8 * sym.units = sym.size / 4 * 4 := by
  obtain ⟨hsize, hmod⟩ := hfit
  have hin := sym.inRam
  rw [units_eq]
  omega

/-- Otherwise there is no first block, or it sticks out of the heap. -/
theorem units_of_not_fits (hfit : ¬ sym.Fits) :
    sym.units = 0 ∨ sym.size < 4 ∨ sym.size < 8 + 8 * sym.units ∧ 8 * sym.units ≤ sym.size := by
  have hin := sym.inRam
  unfold HeapSymbols.Fits at hfit
  rw [units_eq]
  omega

theorem boot_integrity : (HeapState.boot sym mem).Integrity sym where
  apart := List.Pairwise.nil
  inside _ hb := absurd hb List.not_mem_nil
  holds _ hb := absurd hb List.not_mem_nil
  offList _ _ _ hb := absurd hb List.not_mem_nil
  freeList := by
    refine ⟨[sym.start + 8], ?_, ?_, List.pairwise_singleton _ _⟩
    · rw [boot_freep]
      exact List.mem_singleton_self _
    · rw [linked_singleton, boot_next]

theorem boot_arena (hfit : sym.Fits) :
    Arena (sym.start + 8) (sym.start + 8 + 8 * sym.units) (HeapState.boot sym mem).heap
      [sym.start + 8] [] where
  ring := by rw [linked_singleton, boot_next]
  ascending := ⟨_, List.IsRotated.refl _, List.pairwise_singleton _ _⟩
  parcels := by
    have hpos := units_of_fits sym hfit
    have hsize := hfit.1
    have hblock : ([sym.start + 8] ++ List.map Live.header []).map
        (HeapState.boot sym mem).heap.block = [⟨sym.start + 8, 8 * sym.units⟩] := by
      simp [Heap.block]
    rw [hblock]
    refine ⟨?_, ?_, ?_, List.pairwise_singleton _ _⟩
    · simp only [List.forall_mem_singleton]
      omega
    · simp only [List.forall_mem_singleton, Nat.sub_self]
      exact ⟨Nat.dvd_zero _, Nat.dvd_mul_right _ _⟩
    · simp only [List.forall_mem_singleton]
      exact ⟨le_refl _, le_refl _⟩
  holds _ hb := absurd hb List.not_mem_nil

end Boot

/-! ## One call -/

/-- The invariant of safe runs: the arena is sound, or the heap was too short and
has never been used. -/
def HeapState.Sound (sym : HeapSymbols) (mem : Nat → MemHeader) (s : HeapState) : Prop :=
  (sym.Fits ∧ ∃ fs, s.heap.freep ∈ fs ∧
    Arena (sym.start + 8) (sym.start + 8 + 8 * sym.units) s.heap fs s.live) ∨
  (¬ sym.Fits ∧ s = HeapState.boot sym mem)

section Calls

variable {sym : HeapSymbols} {mem : Nat → MemHeader} {s : HeapState}

theorem HeapState.Sound.integrity (h : s.Sound sym mem) : s.Integrity sym := by
  rcases h with ⟨hfit, fs, hfp, ha⟩ | ⟨-, rfl⟩
  · have hend := units_of_fits sym hfit
    exact ha.integrity hfp (by omega) (by omega)
  · exact boot_integrity sym mem

theorem sound_boot (sym : HeapSymbols) (mem : Nat → MemHeader) :
    (HeapState.boot sym mem).Sound sym mem := by
  by_cases hfit : sym.Fits
  · refine Or.inl ⟨hfit, [sym.start + 8], ?_, boot_arena sym mem hfit⟩
    rw [boot_freep]
    exact List.mem_singleton_self _
  · exact Or.inr ⟨hfit, rfl⟩

theorem end_lt (hfit : sym.Fits) : sym.start + 8 + 8 * sym.units < 2 ^ 32 := by
  have hend := units_of_fits sym hfit
  have hin := sym.inRam
  omega

/-- On an unused heap `malloc` takes the one block or returns `NULL`. -/
theorem malloc_boot (sym : HeapSymbols) (mem : Nat → MemHeader) (size : Nat) :
    (Heap.nunits size ≤ sym.units ∧ (HeapState.boot sym mem).heap.malloc size =
      some ((HeapState.boot sym mem).heap.take (Heap.nunits size) (sym.start + 8)
        (sym.start + 8))) ∨
    (sym.units < Heap.nunits size ∧
      (HeapState.boot sym mem).heap.malloc size = some ((HeapState.boot sym mem).heap, 0)) := by
  have hne : (HeapState.boot sym mem).heap.freep ≠ 0 := by
    rw [boot_freep]
    omega
  have hchain : ((HeapState.boot sym mem).heap.freep ::
      ([] ++ [(HeapState.boot sym mem).heap.freep])).IsChain
        fun a b => (HeapState.boot sym mem).heap.next a = b := by
    rw [boot_freep]
    exact List.isChain_pair.mpr (boot_next sym mem)
  have hrounds : ([] : List Nat).length < Heap.rounds := by decide
  rw [Heap.malloc, if_neg hne]
  rcases Heap.mallocLoop_spec (n := Heap.nunits size) hchain List.not_mem_nil hrounds with
    ⟨pr, hpr, hfit, heq⟩ | ⟨hall, heq⟩
  · obtain rfl := List.mem_singleton.mp hpr
    rw [boot_freep, boot_next, boot_size] at hfit
    rw [heq, boot_freep, boot_next]
    exact Or.inl ⟨hfit, rfl⟩
  · have hlt := hall _ (List.mem_append_right _ (List.mem_singleton_self _))
    rw [boot_freep, boot_size] at hlt
    exact Or.inr ⟨hlt, heq⟩

/-- What a step does once the call is legal. -/
theorem step_malloc {size r : Nat} {h : Heap} (hl : s.Legal (.malloc size))
    (heq : s.heap.malloc size = some (h, r)) : s.step (.malloc size) =
      some (⟨h, if r = 0 then s.live else ⟨r, size⟩ :: s.live⟩, [r]) := by
  rw [HeapState.step, if_pos hl]
  simp only [heq, Option.map_some]

theorem step_free {ptr : Nat} {h : Heap} (hl : s.Legal (.free ptr))
    (heq : s.heap.free ptr = some h) : s.step (.free ptr) =
      some (⟨h, s.live.eraseP fun b => b.ptr = ptr⟩, []) := by
  rw [HeapState.step, if_pos hl]
  simp only [heq, Option.map_some]

/-- A free block that cannot hold the units asked for cannot hold the bytes. -/
theorem block_size_lt {h : Heap} {size a : Nat} (hs : size ≤ 2 ^ 32 - 16)
    (hlt : h.size a < Heap.nunits size) : (h.block a).size < size + 8 := by
  rw [Heap.nunits_eq hs] at hlt
  rw [Heap.block_size]
  omega

theorem malloc_safe (h : s.Sound sym mem) {size : Nat} (hl : s.Legal (.malloc size))
    (hsafe : HeapCall.Safe sym s (.malloc size)) :
    ∃ s' r, s.step (.malloc size) = some (s', [r]) ∧ s'.Sound sym mem ∧
      (r = 0 → ∀ a, s.heap.OnFreeList a → (s.heap.block a).size < size + 8) := by
  obtain ⟨hroom, hlast⟩ := hsafe
  rcases h with ⟨hfit, fs, hfp, ha⟩ | ⟨hfit, rfl⟩
  · rcases ha.malloc_cases hfp (Nat.succ_pos _) (end_lt hfit) size with
      ⟨pr, hpr, hsize, heq⟩ | ⟨hall, heq⟩
    · obtain ⟨gs, hgs, hpos, ha'⟩ := ha.take_spec hfp (end_lt hfit) hl hlast hpr hsize
      generalize s.heap.take (Heap.nunits size) pr (s.heap.next pr) = hr at heq hgs hpos ha'
      obtain ⟨h', r⟩ := hr
      have hr : r ≠ 0 := Nat.pos_iff_ne_zero.mp hpos
      refine ⟨_, r, step_malloc hl heq, Or.inl ⟨hfit, gs, hgs, ?_⟩, fun h0 => absurd h0 hr⟩
      simp only [hr, if_false]
      exact ha'
    · refine ⟨_, _, step_malloc hl heq, Or.inl ⟨hfit, fs, hfp, ?_⟩, fun _ a hon => ?_⟩
      · simpa using ha
      · exact block_size_lt hl (hall a (ha.mem_of_onFreeList hfp hon))
  · rw [boot_freep, boot_size] at hroom
    have hlt := hroom.resolve_left hfit
    rcases malloc_boot sym mem size with ⟨hle, -⟩ | ⟨-, heq⟩
    · omega
    · refine ⟨_, _, step_malloc hl heq, Or.inr ⟨hfit, rfl⟩, fun _ a hon => ?_⟩
      obtain ⟨k, rfl⟩ := hon
      rw [boot_freep, Function.iterate_fixed (boot_next sym mem)]
      exact block_size_lt hl (by rwa [boot_size])

/-- Freeing takes one block with this pointer from the list of held ones. -/
theorem exists_perm_eraseP {live : List Live} {ptr : Nat} (hmem : ∃ b ∈ live, b.ptr = ptr) :
    ∃ b, b.ptr = ptr ∧ live.Perm (b :: live.eraseP fun b => b.ptr = ptr) := by
  obtain ⟨c, hc, hcp⟩ := hmem
  obtain ⟨b, l₁, l₂, -, hb, hlive, herase⟩ :=
    List.exists_of_eraseP (p := fun b : Live => decide (b.ptr = ptr)) hc (by simpa using hcp)
  refine ⟨b, by simpa using hb, ?_⟩
  rw [herase, hlive]
  exact List.perm_middle

theorem free_safe (h : s.Sound sym mem) {ptr : Nat} (hl : s.Legal (.free ptr))
    (hsafe : HeapCall.Safe sym s (.free ptr)) :
    ∃ s', s.step (.free ptr) = some (s', []) ∧ s'.Sound sym mem := by
  obtain ⟨b, rfl, hperm⟩ := exists_perm_eraseP hl
  rcases h with ⟨hfit, fs, hfp, ha⟩ | ⟨-, rfl⟩
  · obtain ⟨h', gs, heq, hgs, ha'⟩ := ha.free_spec hfp (end_lt hfit) hperm hsafe
    exact ⟨_, step_free hl heq, Or.inl ⟨hfit, gs, hgs, ha'⟩⟩
  · exact absurd (hperm.mem_iff.mpr List.mem_cons_self) List.not_mem_nil

theorem store_safe (h : s.Sound sym mem) {ptr i : Nat} {v : MemHeader}
    (hl : s.Legal (.store ptr i v)) :
    ∃ s', s.step (.store ptr i v) = some (s', []) ∧ s'.Sound sym mem := by
  refine ⟨_, by rw [HeapState.step, if_pos hl], ?_⟩
  obtain ⟨b, hb, rfl, hi⟩ := hl
  rcases h with ⟨hfit, fs, hfp, ha⟩ | ⟨-, rfl⟩
  · refine Or.inl ⟨hfit, fs, hfp, ?_⟩
    obtain ⟨hptr, hreq⟩ := ha.holds b hb
    rw [Heap.block_size] at hreq
    have hheader : b.ptr = b.header + 8 := (Nat.sub_add_cancel hptr).symm
    refine ha.of_payload (Live.header_mem hb fs) ?_
    intro x hx
    have hne : x ≠ b.ptr + 8 * i := by omega
    exact Function.update_of_ne hne _ _
  · exact absurd hb List.not_mem_nil

/-! ## The three defects -/

/-- The last free block leaves whole and stays on the list. -/
theorem takesLast_breaks (hfit : sym.Fits) {fs : List Nat} (hfp : s.heap.freep ∈ fs)
    (ha : Arena (sym.start + 8) (sym.start + 8 + 8 * sym.units) s.heap fs s.live) {size : Nat}
    (hl : s.Legal (.malloc size)) (hlast : s.heap.TakesLast size) :
    ¬ s.Serves sym (.malloc size) := by
  rintro ⟨s', os, hstep, hint, -⟩
  obtain ⟨hself, hsize⟩ := hlast
  obtain ⟨-, hhi, hpos⟩ := ha.bounds (List.mem_append_left _ hfp)
  have hend := end_lt hfit
  rcases ha.malloc_cases hfp (Nat.succ_pos _) hend size with ⟨pr, hpr, -, heq⟩ | ⟨hall, -⟩
  · rw [ha.eq_singleton_of_self hfp hself] at hpr
    obtain rfl := List.mem_singleton.mp hpr
    rw [hself, Heap.take, if_pos hsize] at heq
    have hadd : add32 s.heap.freep 8 = s.heap.freep + 8 := u32_of_lt (by omega)
    rw [step_malloc hl heq, hadd, if_neg (Nat.succ_ne_zero _)] at hstep
    obtain ⟨rfl, -⟩ := Prod.mk.inj (Option.some.inj hstep)
    have hd := hint.offList s.heap.freep ⟨0, rfl⟩ _ List.mem_cons_self
    have hin : ((s.heap.setPtr s.heap.freep (s.heap.next s.heap.freep)).block
        s.heap.freep).Contains s.heap.freep := by
      rw [Heap.block_contains, Heap.size_setPtr]
      omega
    exact hd _ hin hin
  · exact absurd (hall _ hfp) (by omega)

/-- The last free block is absorbed by the block in front of it and stays on the list. -/
theorem absorbsLast_breaks (hfit : sym.Fits) {fs : List Nat} (hfp : s.heap.freep ∈ fs)
    (ha : Arena (sym.start + 8) (sym.start + 8 + 8 * sym.units) s.heap fs s.live) {ptr : Nat}
    (hl : s.Legal (.free ptr)) (hlast : s.heap.AbsorbsLast (ptr - 8)) :
    ¬ s.Serves sym (.free ptr) := by
  rintro ⟨s', os, hstep, hint, -⟩
  obtain ⟨hself, hadj⟩ := hlast
  obtain ⟨b, hb, rfl⟩ := id hl
  have hend := end_lt hfit
  obtain ⟨-, hphi, hppos⟩ := ha.bounds (List.mem_append_left _ hfp)
  obtain ⟨-, hbhi, hbpos⟩ := ha.live_bounds hb
  have hptr : b.ptr = b.header + 8 := (Nat.sub_add_cancel (ha.holds b hb).1).symm
  change b.header + 8 * s.heap.size b.header = s.heap.freep at hadj
  have hbp : sub32 b.ptr 8 = b.header := sub32_of_le (by omega) (by omega)
  obtain ⟨p, hp, hloop, -⟩ := ha.freeLoop_cases hfp hend (ha.live_notMem hb)
  rw [ha.eq_singleton_of_self hfp hself] at hp
  obtain rfl := List.mem_singleton.mp hp
  have hnext : add32 b.header (8 * s.heap.size b.header) = s.heap.next s.heap.freep := by
    rw [hself, add32, u32_of_lt (by omega), hadj]
  have hsum : add32 (s.heap.size b.header) (s.heap.size s.heap.freep) =
      s.heap.size b.header + s.heap.size s.heap.freep := u32_of_lt (by omega)
  have hne : s.heap.freep ≠ b.header := by omega
  have heq : s.heap.free b.ptr = some ((((s.heap.setSize b.header
      (s.heap.size b.header + s.heap.size s.heap.freep)).setPtr b.header s.heap.freep).setPtr
        s.heap.freep b.header).setFreep s.heap.freep) := by
    rw [Heap.free, hbp, Heap.freeBlock_eq hloop, Heap.joinNext, if_pos hnext, hself, hself, hsum,
      Heap.joinPrev, if_neg]
    rw [Heap.size_setPtr, Heap.size_setSize_of_ne _ _ hne, add32, u32_of_lt (by omega)]
    omega
  rw [step_free hl heq] at hstep
  obtain ⟨rfl, -⟩ := Prod.mk.inj (Option.some.inj hstep)
  -- the list now leads from the block to the one in front, which contains it
  obtain ⟨gs, hgs⟩ := hint.freeList
  have hfront := hgs.cycle.mem_next hgs.freep
  simp only [Heap.freep_setFreep, Heap.next_setFreep, Heap.next_setPtr_self] at hfront
  have hstop := hgs.stop_le hfront hgs.freep (by rw [Heap.freep_setFreep]; omega)
  unfold Region.stop at hstop
  rw [Heap.block_start, Heap.block_size, Heap.size_setFreep, Heap.size_setPtr, Heap.size_setPtr,
    Heap.size_setSize_self, Heap.freep_setFreep] at hstop
  omega

/-- The first block of a heap that is too short sticks out. -/
theorem short_breaks (hfit : ¬ sym.Fits) {size : Nat}
    (hl : (HeapState.boot sym mem).Legal (.malloc size)) (hroom : Heap.nunits size ≤ sym.units) :
    ¬ (HeapState.boot sym mem).Serves sym (.malloc size) := by
  rintro ⟨s', os, hstep, hint, hnull⟩
  have hn := Heap.nunits_eq hl
  have hin := sym.inRam
  rcases malloc_boot sym mem size with ⟨-, heq⟩ | ⟨hlt, -⟩
  swap
  · omega
  -- the first call has to hand out a part of the symbol
  generalize htake : (HeapState.boot sym mem).heap.take (Heap.nunits size) (sym.start + 8)
    (sym.start + 8) = taken at heq
  obtain ⟨h', r⟩ := taken
  rw [step_malloc hl heq] at hstep
  obtain ⟨rfl, rfl⟩ := Prod.mk.inj (Option.some.inj hstep)
  by_cases hr : r = 0
  · -- the block begins where addresses wrap, and its pointer is mistaken for `NULL`
    have hlarge := hnull size rfl (by simp [hr]) _ ⟨0, rfl⟩
    rw [Function.iterate_zero_apply, boot_freep, Heap.block_size, boot_size] at hlarge
    omega
  · simp only [hr, if_false] at hint
    have hheld := (hint.holds _ List.mem_cons_self).1
    obtain ⟨hlo, hhi⟩ := hint.inside _ List.mem_cons_self
    unfold Region.stop at hhi
    rw [Heap.block_start, Heap.block_size] at hhi
    unfold Live.header at hlo hhi
    dsimp only at hheld hlo hhi
    unfold Heap.take at htake
    rw [boot_size] at htake
    have hshort := units_of_not_fits sym hfit
    -- the block handed out ends behind the symbol, whole or as the tail of the free block
    split at htake
    · obtain ⟨rfl, rfl⟩ := Prod.mk.inj htake
      have hadd : add32 (sym.start + 8) 8 - 8 = sym.start + 8 := by
        unfold add32 u32 at hheld ⊢
        omega
      rw [hadd, Heap.size_setFreep, Heap.size_setPtr, boot_size] at hhi
      omega
    · obtain ⟨rfl, rfl⟩ := Prod.mk.inj htake
      generalize htail : add32 (sym.start + 8) (8 * (sym.units - Heap.nunits size)) = tail at *
      have hadd : add32 tail 8 - 8 = tail := by
        have hlt : tail < 2 ^ 32 := htail ▸ u32_lt _
        unfold add32 u32 at hheld ⊢
        omega
      rw [hadd, Heap.size_setFreep, Heap.size_setSize_self] at hhi
      rw [hadd] at hlo
      unfold add32 u32 at htail
      omega

/-- A legal call does what the program expects exactly if it is safe. -/
theorem serves_iff (h : s.Sound sym mem) {c : HeapCall} (hl : s.Legal c) :
    s.Serves sym c ↔ c.Safe sym s := by
  refine ⟨fun hserves => ?_, fun hsafe => ?_⟩
  · by_contra hunsafe
    cases c with
    | malloc size =>
      rcases h with ⟨hfit, fs, hfp, ha⟩ | ⟨hfit, rfl⟩
      · have hlast : s.heap.TakesLast size := by
          by_contra hlast
          exact hunsafe ⟨Or.inl hfit, hlast⟩
        exact takesLast_breaks hfit hfp ha hl hlast hserves
      -- nothing has been served yet: the symbol is too short for its own header
      · refine short_breaks hfit hl ?_ hserves
        by_contra hlt
        refine hunsafe ⟨Or.inr ?_, fun hlast => ?_⟩
        · rw [boot_freep, boot_size]
          omega
        · have := hlast.2
          rw [boot_freep, boot_size] at this
          omega
    | free ptr =>
      have hlast : s.heap.AbsorbsLast (ptr - 8) := not_not.mp hunsafe
      rcases h with ⟨hfit, fs, hfp, ha⟩ | ⟨-, rfl⟩
      · exact absorbsLast_breaks hfit hfp ha hl hlast hserves
      · obtain ⟨b, hb, -⟩ := hl
        exact List.not_mem_nil hb
    | store ptr i v => exact hunsafe trivial
  · cases c with
    | malloc size =>
      obtain ⟨s', r, hstep, hs', hnull⟩ := malloc_safe h hl hsafe
      refine ⟨s', [r], hstep, hs'.integrity, fun size' hc h0 => ?_⟩
      obtain rfl := HeapCall.malloc.inj hc
      exact hnull (List.mem_singleton.mp h0).symm
    | free ptr =>
      obtain ⟨s', hstep, hs'⟩ := free_safe h hl hsafe
      exact ⟨s', [], hstep, hs'.integrity, fun _ _ h0 => absurd h0 List.not_mem_nil⟩
    | store ptr i v =>
      obtain ⟨s', hstep, hs'⟩ := store_safe h hl
      exact ⟨s', [], hstep, hs'.integrity, fun _ _ h0 => absurd h0 List.not_mem_nil⟩

/-- What one safe call preserves. -/
theorem sound_step (h : s.Sound sym mem) {c : HeapCall} (hsafe : c.Safe sym s) {s' : HeapState}
    {os : List Nat} (hstep : s.step c = some (s', os)) : s'.Sound sym mem := by
  have hl : s.Legal c := by
    by_contra hcon
    unfold HeapState.step at hstep
    rw [if_neg hcon] at hstep
    cases hstep
  obtain ⟨s'', os', hstep', hs''⟩ : ∃ s'' os', s.step c = some (s'', os') ∧ s''.Sound sym mem := by
    cases c with
    | malloc size =>
      obtain ⟨s'', r, h1, h2, -⟩ := malloc_safe h hl hsafe
      exact ⟨s'', [r], h1, h2⟩
    | free ptr =>
      obtain ⟨s'', h1, h2⟩ := free_safe h hl hsafe
      exact ⟨s'', [], h1, h2⟩
    | store ptr i v =>
      obtain ⟨s'', h1, h2⟩ := store_safe h hl
      exact ⟨s'', [], h1, h2⟩
  rw [hstep] at hstep'
  obtain ⟨rfl, -⟩ := Prod.mk.inj (Option.some.inj hstep')
  exact hs''

end Calls

/-- **Heap integrity.** In every run of safe calls from `init_mem` the heap has its
integrity, and a legal call keeps it, returns, and justifies a `NULL` exactly if it
is safe. -/
theorem heap_integrity (sym : HeapSymbols) (mem : Nat → MemHeader) {tr : List Nat} {s : HeapState}
    (hrun : Lts.Run HeapState.step (fun s c => c.Safe sym s) (HeapState.boot sym mem) tr s) :
    s.Integrity sym ∧ ∀ c, s.Legal c → (s.Serves sym c ↔ c.Safe sym s) := by
  have hsound : s.Sound sym mem :=
    hrun.invariant (fun _ s => s.Sound sym mem) (sound_boot sym mem)
      fun _ _ _ _ _ h hsafe hstep => sound_step h hsafe hstep
  exact ⟨hsound.integrity, fun c hl => serves_iff hsound hl⟩

/-- Two blocks are taken from a page, one is written and both come back. -/
theorem heap_integrity_page :
    ∃ tr s, Lts.Run HeapState.step (fun s c => c.Safe ⟨0x80001000, 4096, by decide, by decide⟩ s)
        (HeapState.boot ⟨0x80001000, 4096, by decide, by decide⟩ fun _ => ⟨0, 0⟩) tr s ∧
      s.Integrity ⟨0x80001000, 4096, by decide, by decide⟩ := by
  have hrun := Lts.exec_run (show (Lts.exec HeapState.step
    (fun s c => c.Safe ⟨0x80001000, 4096, by decide, by decide⟩ s)
    (HeapState.boot ⟨0x80001000, 4096, by decide, by decide⟩ fun _ => ⟨0, 0⟩)
    [.malloc 100, .malloc 0, .store 0x80001f98 3 ⟨7, 7⟩, .free 0x80001f98,
      .free 0x80001f90]).isSome = true by decide)
  exact ⟨_, _, hrun, (heap_integrity _ _ hrun).1⟩

/-- A heap of 24 bytes has one block of two units. Asked twice for eight bytes,
`malloc` returns this block twice. -/
theorem same_block_twice :
    ∃ s, Lts.Run HeapState.step Lts.anyEvent
        (HeapState.boot ⟨0x80001000, 24, by decide, by decide⟩ fun _ => ⟨0, 0⟩)
        [0x80001010, 0x80001010] s ∧
      ¬ s.Integrity ⟨0x80001000, 24, by decide, by decide⟩ := by
  have hrun := Lts.exec_run (show (Lts.exec HeapState.step Lts.anyEvent
    (HeapState.boot ⟨0x80001000, 24, by decide, by decide⟩ fun _ => ⟨0, 0⟩)
    [.malloc 8, .malloc 8]).isSome = true by decide)
  refine ⟨_, hrun, fun hint => ?_⟩
  have hd := (List.pairwise_cons.mp (show List.Pairwise _ [_, _] from hint.apart)).1 _
    (List.mem_singleton_self _)
  exact hd 0x80001008 (by decide) (by decide)

end PrplHypervisor
