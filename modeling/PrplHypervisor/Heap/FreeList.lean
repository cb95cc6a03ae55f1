import PrplHypervisor.Heap.Malloc
import PrplHypervisor.Lib.LinkedRing
import PrplHypervisor.Lib.Parcels

/-!
# The free list as a ring over parcels

`Arena lo hi h fs live` is the heap's invariant: the free blocks `fs` form a ring
in address order, and the free blocks together with the blocks the program holds
(`live`) are parcels of `[lo, hi)`.

`malloc` and `free` are built from four edits, each of which keeps the invariant:
a whole block leaves the ring (`Arena.unlink`), the tail of a block is cut off
(`Arena.carve`), a block comes back behind a free one (`Arena.link`), and a free
block absorbs the one behind it when they touch (`Arena.absorb`).
-/

namespace PrplHypervisor

open Layout LinkedRing

/-- A block the program holds: what `malloc` returned and the size it asked for. -/
structure Live where
  ptr : Nat
  requested : Nat
  deriving DecidableEq

/-- The block's header, `(mem_header *) ptr - 1`. -/
def Live.header (b : Live) : Nat := b.ptr - 8

theorem Live.header_mem {live : List Live} {b : Live} (hb : b ∈ live) (fs : List Nat) :
    b.header ∈ fs ++ live.map Live.header :=
  List.mem_append_right fs (List.mem_map_of_mem hb)

/-- The invariant of the heap. -/
structure Arena (lo hi : Nat) (h : Heap) (fs : List Nat) (live : List Live) : Prop where
  ring : Linked h.next (fs : List Nat)
  ascending : Ascending fs
  parcels : Parcels 8 lo hi ((fs ++ live.map Live.header).map h.block)
  holds : ∀ b ∈ live, 8 ≤ b.ptr ∧ b.requested + 8 ≤ (h.block b.header).size

namespace Heap

/-- The whole block behind `p` leaves the ring. -/
def unlink (h : Heap) (p : Nat) : Heap := h.setPtr p (h.next (h.next p))

/-- The last `n` units of block `q`, of which `rest` remain, become a block. -/
def carve (h : Heap) (q rest n : Nat) : Heap := (h.setSize q rest).setSize (q + 8 * rest) n

/-- Block `b` enters the ring behind `p`. -/
def link (h : Heap) (p b : Nat) : Heap := (h.setPtr b (h.next p)).setPtr p b

/-- Block `p` absorbs the block behind it. -/
def absorb (h : Heap) (p : Nat) : Heap :=
  (h.setSize p (h.size p + h.size (h.next p))).setPtr p (h.next (h.next p))

end Heap

namespace Arena

variable {lo hi : Nat} {h : Heap} {fs gs zs : List Nat} {live live' : List Live} {p q : Nat}

/-- The ring may be read from any node. -/
theorem rotate (ha : Arena lo hi h fs live) (hr : fs ~r gs) : Arena lo hi h gs live where
  ring := ha.ring.rotate hr
  ascending := ha.ascending.rotate hr
  parcels := ha.parcels.perm ((hr.perm.append_right _).map _)
  holds := ha.holds

/-- Distinct parcels of the heap have distinct headers. -/
theorem nodup (ha : Arena lo hi h fs live) : (fs ++ live.map Live.header).Nodup := by
  have hpos := ha.parcels.pos
  have hapart := List.pairwise_map.mp ha.parcels.apart
  refine (List.pairwise_iff_forall_sublist.mpr fun {a b} hab => ?_ : List.Pairwise (· ≠ ·) _)
  have hd := List.pairwise_iff_forall_sublist.mp hapart hab
  have hmem := fun x (hx : x ∈ [a, b]) => List.mem_map_of_mem (f := h.block) (hab.subset hx)
  exact hd.start_ne (hpos _ (hmem a (by simp))) (hpos _ (hmem b (by simp)))

/-- Blocks with different headers share no address. -/
theorem disjoint (ha : Arena lo hi h fs live) {a b : Nat} (hma : a ∈ fs ++ live.map Live.header)
    (hmb : b ∈ fs ++ live.map Live.header) (hne : a ≠ b) :
    (h.block a).Disjoint (h.block b) := by
  have : Std.Symm fun a b => (h.block a).Disjoint (h.block b) := ⟨fun _ _ hd => hd.symm⟩
  exact (List.pairwise_map.mp ha.parcels.apart).forall hma hmb hne

theorem live_notMem (ha : Arena lo hi h fs live) {b : Live} (hb : b ∈ live) : b.header ∉ fs :=
  fun hf => (List.nodup_append.mp ha.nodup).2.2 _ hf _ (List.mem_map_of_mem hb) rfl

/-- A heap that is read the same has the same invariant. -/
theorem of_agree {h' : Heap} (ha : Arena lo hi h fs live)
    (hnext : ∀ a ∈ fs, h'.next a = h.next a)
    (hsize : ∀ a ∈ fs ++ live.map Live.header, h'.size a = h.size a) : Arena lo hi h' fs live := by
  have hblock : ∀ a ∈ fs ++ live.map Live.header, h'.block a = h.block a := by
    intro a ha'
    unfold Heap.block
    rw [hsize a ha']
  refine ⟨?_, ha.ascending, ?_, fun b hb => ?_⟩
  · exact ha.ring.congr hnext
  · rw [List.map_congr_left hblock]
    exact ha.parcels
  · rw [hblock _ (Live.header_mem hb _)]
    exact ha.holds b hb

/-- `unlink` hands a whole free block out. -/
theorem unlink (ha : Arena lo hi h (p :: q :: zs) live) {requested : Nat}
    (hreq : requested + 8 ≤ 8 * h.size q) :
    Arena lo hi (h.unlink p) (p :: zs) (⟨q + 8, requested⟩ :: live) := by
  have hq : h.next p = q := ha.ring.next_eq
  have hnd : (p :: q :: zs).Nodup := ha.ascending.nodup
  have hblock : (h.unlink p).block = h.block := by
    funext a
    simp [Heap.block, Heap.unlink]
  refine ⟨ha.ring.remove ?_ fun z hz => ?_, ha.ascending.remove, ?_, ?_⟩
  · rw [Heap.unlink, Heap.next_setPtr_self, hq]
  · have hzp : z ≠ p := by
      rintro rfl
      exact (List.nodup_cons.mp hnd).1 (List.mem_cons_of_mem _ hz)
    exact h.next_setPtr_of_ne _ hzp
  · rw [hblock]
    exact ha.parcels.perm ((List.perm_middle.symm.cons p).map _)
  · rw [hblock]
    simp only [List.forall_mem_cons]
    exact ⟨⟨Nat.le_add_left 8 q, hreq⟩, ha.holds⟩

/-- An address inside a parcel is the header of no other one. -/
theorem notMem_of_contains (ha : Arena lo hi h (q :: zs) live) {t : Nat}
    (ht : (h.block q).Contains t) : t ∉ zs ++ live.map Live.header := by
  intro hmem
  have hblock : h.block t ∈ (zs ++ live.map Live.header).map h.block := List.mem_map_of_mem hmem
  have hpos : 0 < (h.block t).size := ha.parcels.pos _ (List.mem_cons_of_mem _ hblock)
  rw [Heap.block_size] at hpos
  refine (List.pairwise_cons.mp ha.parcels.apart).1 _ hblock t ht (h.block_contains.mpr ?_)
  omega

/-- `carve` hands the tail of a free block out. -/
theorem carve (ha : Arena lo hi h (q :: zs) live) {rest n requested : Nat}
    (hsize : h.size q = rest + n) (hrest : 0 < rest) (hn : 0 < n)
    (hreq : requested + 8 ≤ 8 * n) :
    Arena lo hi (h.carve q rest n) (q :: zs) (⟨q + 8 * rest + 8, requested⟩ :: live) := by
  have htail : q + 8 * rest ∉ zs ++ live.map Live.header := by
    refine ha.notMem_of_contains (h.block_contains.mpr ?_)
    omega
  have hq : q ∉ zs ++ live.map Live.header := (List.nodup_cons.mp ha.nodup).1
  have hne : q + 8 * rest ≠ q := by omega
  -- the block is cut in two, and no other one changes
  have hblockq : (h.carve q rest n).block q = ⟨q, 8 * rest⟩ := by
    unfold Heap.block Heap.carve
    rw [Heap.size_setSize_of_ne _ _ hne.symm, Heap.size_setSize_self]
  have hblockt : (h.carve q rest n).block (q + 8 * rest) = ⟨q + 8 * rest, 8 * n⟩ := by
    unfold Heap.block Heap.carve
    rw [Heap.size_setSize_self]
  have hothers : ∀ a ∈ zs ++ live.map Live.header, (h.carve q rest n).block a = h.block a := by
    intro a hmem
    have haq : a ≠ q := fun e => hq (e ▸ hmem)
    have hat : a ≠ q + 8 * rest := fun e => htail (e ▸ hmem)
    unfold Heap.block Heap.carve
    rw [Heap.size_setSize_of_ne _ _ hat, Heap.size_setSize_of_ne _ _ haq]
  refine ⟨ha.ring.congr fun a _ => ?_, ha.ascending, ?_, ?_⟩
  · simp [Heap.carve]
  -- both parts together are the block that was there
  · have hcut : Parcels 8 lo hi
        (⟨q, 8 * rest⟩ :: ⟨q + 8 * rest, 8 * n⟩ :: (zs ++ live.map Live.header).map h.block) := by
      refine Parcels.split ?_ (by omega) (by omega) (Nat.dvd_mul_right 8 rest)
      have hp := ha.parcels
      rw [List.cons_append, List.map_cons] at hp
      rw [show 8 * rest + 8 * n = 8 * h.size q by omega]
      exact hp
    rw [← List.map_congr_left hothers, ← hblockq, ← hblockt] at hcut
    exact hcut.perm ((List.perm_middle.symm.cons q).map _)
  · simp only [List.forall_mem_cons]
    refine ⟨⟨Nat.le_add_left 8 _, ?_⟩, fun b hb => ?_⟩
    · rw [show (Live.header ⟨q + 8 * rest + 8, requested⟩) = q + 8 * rest from rfl, hblockt]
      exact hreq
    · rw [hothers _ (Live.header_mem hb _)]
      exact ha.holds b hb

/-- `link` takes a block back. -/
theorem link {b : Live} (ha : Arena lo hi h (p :: zs) live) (hperm : live.Perm (b :: live'))
    (hgap : Gap p (h.next p) b.header) :
    Arena lo hi (h.link p b.header) (p :: b.header :: zs) live' := by
  have hb : b.header ∉ p :: zs := ha.live_notMem (hperm.mem_iff.mpr List.mem_cons_self)
  obtain ⟨hbp, hbz⟩ := List.ne_and_not_mem_of_not_mem_cons hb
  have hpz : p ∉ zs := (List.nodup_cons.mp ha.ascending.nodup).1
  have hblock : (h.link p b.header).block = h.block := by
    funext a
    simp [Heap.block, Heap.link]
  refine ⟨ha.ring.insert ?_ ?_ fun z hz => ?_, ha.ascending.insert ha.ring hgap, ?_, ?_⟩
  · exact Heap.next_setPtr_self _ _ _
  · unfold Heap.link
    rw [Heap.next_setPtr_of_ne _ _ hbp, Heap.next_setPtr_self]
  · have hzp : z ≠ p := fun e => hpz (e ▸ hz)
    have hzb : z ≠ b.header := fun e => hbz (e ▸ hz)
    unfold Heap.link
    rw [Heap.next_setPtr_of_ne _ _ hzp, Heap.next_setPtr_of_ne _ _ hzb]
  · rw [hblock]
    refine ha.parcels.perm (List.Perm.map _ (List.Perm.cons p ?_))
    have hmap := hperm.map Live.header
    exact (hmap.append_left zs).trans List.perm_middle
  · rw [hblock]
    exact fun c hc => ha.holds c (hperm.mem_iff.mpr (List.mem_cons_of_mem _ hc))

/-- `absorb` joins a free block with the one behind it. -/
theorem absorb (ha : Arena lo hi h (p :: q :: zs) live) (hadj : p + 8 * h.size p = q) :
    Arena lo hi (h.absorb p) (p :: zs) live := by
  have hnext : h.next p = q := ha.ring.next_eq
  obtain ⟨hpq, hqz⟩ := List.nodup_cons.mp ha.nodup
  -- one header disappears, and no other block changes
  have hblockp : (h.absorb p).block p = ⟨p, 8 * h.size p + 8 * h.size q⟩ := by
    unfold Heap.block Heap.absorb
    rw [Heap.size_setPtr, Heap.size_setSize_self, hnext, Nat.mul_add]
  have hothers : ∀ a ∈ zs ++ live.map Live.header, (h.absorb p).block a = h.block a := by
    intro a hmem
    have hap : a ≠ p := fun e => hpq (List.mem_cons_of_mem _ (e ▸ hmem))
    unfold Heap.block Heap.absorb
    rw [Heap.size_setPtr, Heap.size_setSize_of_ne _ _ hap]
  refine ⟨ha.ring.remove ?_ fun z hz => ?_, ha.ascending.remove, ?_, fun b hb => ?_⟩
  · unfold Heap.absorb
    rw [Heap.next_setPtr_self, hnext]
  · have hzp : z ≠ p := fun e => hpq (List.mem_cons_of_mem _ (List.mem_append_left _ (e ▸ hz)))
    unfold Heap.absorb
    rw [Heap.next_setPtr_of_ne _ _ hzp, Heap.next_setSize]
  · have hp : Parcels 8 lo hi (⟨p, 8 * h.size p⟩ :: ⟨p + 8 * h.size p, 8 * h.size q⟩ ::
        (zs ++ live.map Live.header).map h.block) := by
      rw [hadj]
      exact ha.parcels
    have hjoin := hp.join
    rwa [← List.map_congr_left hothers, ← hblockp] at hjoin
  · rw [hothers _ (Live.header_mem hb _)]
    exact ha.holds b hb

end Arena

end PrplHypervisor
