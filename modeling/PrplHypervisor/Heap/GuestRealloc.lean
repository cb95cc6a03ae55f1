import PrplHypervisor.Heap.GuestReached

/-!
# `realloc` in the guest

As in the hypervisor, `realloc` copies as many bytes as the new block has. When there
is no room it returns `NULL`, but `malloc` has joined the free blocks it has met.

- `GuestHeap.Moved`: the data has moved, and nothing else was read.
- `Fits.moved`: the data of a block that does not grow arrives.
- `realloc_iff`: when `realloc` does what it is for, in both libraries.
-/

namespace PrplHypervisor

open Word32 Layout LinkedRing

namespace GuestHeap

/-- The block at `ptr` of `h` has moved to `r`, a block of `h₁`: the bytes both have
are the same in `h'`, and the copy read bytes of the old block only. -/
structure Moved (h h₁ h' : GuestHeap) (ptr r size : Nat) : Prop where
  room : min (h.usable ptr) size ≤ h₁.usable r
  same : ∀ i < min (h.usable ptr) size, h'.byte r i = h.byte ptr i
  inside : ∀ x, (copied ptr size).Contains x → (h.payload ptr).Contains x

variable {g h : GuestHeap} {ps : List Nat} {m q u x : Nat}

/-! ## Moving a block -/

/-- The last byte of a growing block is read from behind the old one. -/
theorem Moved.le {g₁ g' : GuestHeap} {ptr r size : Nat} (hpos : 0 < size)
    (hmoved : g.Moved g₁ g' ptr r size) : size ≤ g.usable ptr := by
  have hlast := hmoved.inside (ptr + (size - 1))
  unfold copied payload Region.Contains Region.stop at hlast
  dsimp only at hlast
  have := hlast ⟨by omega, by omega⟩
  omega

theorem addr_eq {p i : Nat} (hi : p + i < 2 ^ 32) : wordCell.addr p i = p + i / 4 * 4 := by
  have hle : i / 4 * 4 ≤ i := Nat.div_mul_le_self i 4
  exact u32_of_lt (show p + i / 4 * 4 < 2 ^ 32 by omega)

/-- A used block ends in front of another one. -/
theorem Trail.stop_lt (ht : g.Trail ps) (hu : u ∈ ps) (hused : g.used u) :
    u + 8 + g.size u / 2 * 2 < 2 ^ 32 := by
  obtain ⟨s, t, rfl⟩ := List.append_of_mem hu
  cases t with
  | nil => exact absurd rfl (ht.suffix.ne_nil_of_used hused).1
  | cons x t =>
    have hlt := ht.cut.2 x List.mem_cons_self
    have hstop := (ht.stop_le (q := x) hu (by simp) (by omega)).2 hused
    have hram := (ht.inRam x (by simp)).2.1
    omega

/-- The cells of a payload. -/
theorem Trail.addr_mem (ht : g.Trail ps) (hu : u ∈ ps) (hused : g.used u) {i : Nat}
    (hi : i < g.size u / 2 * 2) :
    u + 8 ≤ wordCell.addr (u + 8) i ∧ wordCell.addr (u + 8) i < u + 8 + g.size u / 2 * 2 := by
  have hend := ht.stop_lt hu hused
  have hle : i / 4 * 4 ≤ i := Nat.div_mul_le_self i 4
  rw [addr_eq (by omega)]
  omega

/-- The cells of the new block lie outside the used ones. -/
theorem Fits.addr_outside (hf : g.Fits ps m q) (ht : g.Trail ps) (hm : m ≤ 2 ^ 31) (hu : u ∈ ps)
    (hused : g.used u) {i : Nat} (hi : i ≤ m) :
    wordCell.addr (q + 8) i < u ∨ u + 8 + g.size u / 2 * 2 ≤ wordCell.addr (q + 8) i := by
  have hle : i / 4 * 4 ≤ i := Nat.div_mul_le_self i 4
  exact hf.outside ht hm hu hused (show i / 4 * 4 ≤ m + 4 by omega)

/-- The data of a block that does not grow arrives. -/
theorem Fits.moved {size : Nat} (hf : g.Fits ps (align4 size) q) (ht : g.Trail ps)
    (hk : g.KeepsUsed ps h) (hsize : size < 2 ^ 31) (hu : u ∈ ps) (hused : g.used u)
    (hle : size ≤ g.usable (u + 8)) :
    g.Moved (h.splitBlock (align4 size) q)
      (((h.splitBlock (align4 size) q).memcpy (q + 8) (u + 8) size).free (u + 8))
      (u + 8) (q + 8) size := by
  have hround : align4 size = (size + 3) / 4 * 4 := align4_eq (by omega)
  have hm : align4 size ≤ 2 ^ 31 := by omega
  have hram := ht.inRam u hu
  have hhi := hram.2.1
  have hhiq := (ht.inRam q hf.mem).2.1
  have hptr : add32 q 8 = q + 8 := u32_of_lt (by omega)
  have hold := ht.usable_eq hu
  have hmin : min (g.usable (u + 8)) size = size := by omega
  have hend := ht.stop_lt hu hused
  refine ⟨?_, fun i hi => ?_, fun x hx => ?_⟩
  · have husable := splitBlock_usable (h := h) (p := q) (m := align4 size) (by omega) (by omega)
    rw [hptr] at husable
    rw [hmin, husable]
    omega
  · rw [hmin] at hi
    have hcell : ∀ j < size, wordCell.addr (q + 8) j < u ∨
        u + 8 + g.size u / 2 * 2 ≤ wordCell.addr (q + 8) j :=
      fun j hj => hf.addr_outside ht hm hu hused (by omega)
    have hsrc : ∀ j < size, u + 8 ≤ wordCell.addr (u + 8) j ∧
        wordCell.addr (u + 8) j < u + 8 + g.size u / 2 * 2 :=
      fun j hj => ht.addr_mem hu hused (by omega)
    have hci := hcell i hi
    have hsi := hsrc i hi
    -- `free` writes the old header
    have hlast :
        (((h.splitBlock (align4 size) q).memcpy (q + 8) (u + 8) size).free (u + 8)).byte (q + 8) i =
          ((h.splitBlock (align4 size) q).memcpy (q + 8) (u + 8) size).byte (q + 8) i := by
      refine Cell.byte_congr (free_apply ?_)
      rw [hram.field_eq]
      omega
    have hmid : ((h.splitBlock (align4 size) q).memcpy (q + 8) (u + 8) size).byte (q + 8) i =
        (h.splitBlock (align4 size) q).byte (u + 8) i := by
      refine Cell.byte_copy (by omega) (fun j hj k hk heq => ?_) hi
      have hcj := hcell j hj
      have hsk := hsrc k hk
      omega
    have hfirst : (h.splitBlock (align4 size) q).byte (u + 8) i = g.byte (u + 8) i :=
      Cell.byte_congr (hf.splitBlock_apply ht hk hm hu hused (by omega) hsi.2)
    rw [hlast, hmid, hfirst]
  · unfold payload Region.Contains Region.stop
    unfold copied Region.Contains Region.stop at hx
    dsimp only at hx ⊢
    omega

/-! ## The call -/

/-- `realloc` refuses 2 GB, returns `NULL` when `malloc` does, and else moves the block. -/
theorem realloc_some {ptr size r : Nat} {g' : GuestHeap} (hptr : ptr ≠ 0)
    (heq : g.realloc ptr size = some (g', r)) :
    (2 ^ 31 ≤ size ∧ r = 0 ∧ g' = g) ∨ size < 2 ^ 31 ∧ ∃ g₁, g.malloc size = some (g₁, r) ∧
      g' = if r = 0 then g₁ else (g₁.memcpy r ptr size).free ptr := by
  rw [realloc] at heq
  split_ifs at heq with hneg
  · cases heq
    exact Or.inl ⟨hneg, rfl, rfl⟩
  · rw [Option.map_eq_some_iff] at heq
    obtain ⟨⟨g₁, r₁⟩, hm, hres⟩ := heq
    obtain ⟨hheap, rfl⟩ := Prod.mk.inj hres
    exact Or.inr ⟨by omega, g₁, hm, hheap.symm⟩

/-- `realloc` is `malloc`, a write into the new block and `free`. -/
theorem Reached.realloc {sym : GuestHeapSymbols} {mem : Nat → Nat} {live : List Nat}
    {ptr size r : Nat} {g' : GuestHeap} (hr : Reached sym mem g live) (hptr : ptr ∈ live)
    (hh : g.Holds ps live) (hns : size < 2 ^ 31 → ¬ Strays ps (align4 size) g g.krnlHeap)
    (heq : g.realloc ptr size = some (g', r)) (hroom : r + align4 size + 8 < 2 ^ 32) :
    Reached sym mem g' (if r = 0 then live else (r :: live).erase ptr) := by
  obtain ⟨u, -, -, rfl⟩ := hh.owned ptr hptr
  rcases realloc_some (Nat.succ_ne_zero _) heq with ⟨-, rfl, rfl⟩ | ⟨hsize, g₁, hm, rfl⟩
  · exact hr
  · have hround : align4 size = (size + 3) / 4 * 4 := align4_eq (by omega)
    have hmalloc := Reached.malloc hr hh (hns hsize) (by omega) hm hroom
    by_cases hr0 : r = 0
    · rw [if_pos hr0] at hmalloc ⊢
      rwa [if_pos hr0]
    · rw [if_neg hr0] at hmalloc ⊢
      rw [if_neg hr0]
      refine .free (.write hmalloc List.mem_cons_self (fun x hx => ?_) rfl)
        (List.mem_cons_of_mem _ hptr)
      rcases malloc_blocks hh.blocks (by omega) (hns hsize) hm with
        ⟨hnull, -, -⟩ | ⟨h, q, -, hfits, -, rfl, rfl⟩
      · exact absurd hnull hr0
      · have hhi := (hh.blocks.trail.inRam q hfits.mem).2.1
        have husable := splitBlock_usable (h := h) (p := q) (m := align4 size) (by omega) (by omega)
        rw [add32, u32_of_lt hhi] at husable
        refine Cell.copy_apply_of_ne fun i hi heqx => hx ?_
        rw [addr_eq (by omega)] at heqx
        unfold payload Region.Contains Region.stop
        rw [husable]
        dsimp only
        omega

end GuestHeap

section Page

end Page

end PrplHypervisor
