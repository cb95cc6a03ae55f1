import PrplHypervisor.Lib.Layout
import Mathlib.Data.List.Perm.Basic
import Mathlib.Algebra.Order.Group.Nat

/-!
# Cutting an arena into parcels

An arena `[lo, hi)` is cut into non-empty parcels that share no address and lie
on a grid of `u` bytes. An allocator never creates or destroys space: it hands
parcels over (`Parcels.perm`), cuts one in two (`Parcels.split`) and joins
adjacent ones (`Parcels.join`).
-/

namespace PrplHypervisor.Layout

/-- Regions that do not meet lie in the order of their starts. -/
theorem Region.Disjoint.stop_le {r s : Region} (h : r.Disjoint s) (hs : 0 < s.size)
    (hlt : r.start < s.start) : r.stop ≤ s.start := by
  by_contra hcon
  refine h s.start ⟨hlt.le, by omega⟩ ⟨le_refl _, ?_⟩
  unfold Region.stop
  omega

/-- Non-empty regions that do not meet have different starts. -/
theorem Region.Disjoint.start_ne {r s : Region} (h : r.Disjoint s) (hr : 0 < r.size)
    (hs : 0 < s.size) : r.start ≠ s.start := by
  intro heq
  refine h r.start ⟨le_refl _, ?_⟩ ⟨heq.ge, ?_⟩ <;> unfold Region.stop <;> omega

/-- Two adjacent regions hold the addresses of their union. -/
theorem Region.contains_append {a m n x : Nat} :
    (⟨a, m + n⟩ : Region).Contains x ↔
      (⟨a, m⟩ : Region).Contains x ∨ (⟨a + m, n⟩ : Region).Contains x := by
  unfold Region.Contains Region.stop
  dsimp only
  omega

/-- `rs` are parcels of the arena `[lo, hi)` on a grid of `u`. -/
structure Parcels (u lo hi : Nat) (rs : List Region) : Prop where
  pos : ∀ r ∈ rs, 0 < r.size
  grid : ∀ r ∈ rs, u ∣ r.start - lo ∧ u ∣ r.size
  inside : ∀ r ∈ rs, lo ≤ r.start ∧ r.stop ≤ hi
  apart : rs.Pairwise Region.Disjoint

namespace Parcels

variable {u lo hi : Nat} {rs ss : List Region}

/-- Handing parcels over. -/
theorem perm (h : Parcels u lo hi rs) (hp : rs.Perm ss) : Parcels u lo hi ss where
  pos r hr := h.pos r (hp.mem_iff.mpr hr)
  grid r hr := h.grid r (hp.mem_iff.mpr hr)
  inside r hr := h.inside r (hp.mem_iff.mpr hr)
  apart := (hp.pairwise_iff fun hd => hd.symm).mp h.apart

/-- Cutting a parcel in two on the grid. -/
theorem split {a m n : Nat} (h : Parcels u lo hi (⟨a, m + n⟩ :: rs)) (hm : 0 < m) (hn : 0 < n)
    (hu : u ∣ m) : Parcels u lo hi (⟨a, m⟩ :: ⟨a + m, n⟩ :: rs) := by
  obtain ⟨hgrid, hsize⟩ := h.grid _ List.mem_cons_self
  obtain ⟨hlo, hhi⟩ := h.inside _ List.mem_cons_self
  obtain ⟨hhead, htail⟩ := List.pairwise_cons.mp h.apart
  unfold Region.stop at hhi
  dsimp only at hgrid hsize hlo hhi
  refine ⟨?_, ?_, ?_, ?_⟩
  · simp only [List.forall_mem_cons]
    exact ⟨hm, hn, fun r hr => h.pos r (List.mem_cons_of_mem _ hr)⟩
  · simp only [List.forall_mem_cons]
    refine ⟨⟨hgrid, hu⟩, ⟨?_, (Nat.dvd_add_right hu).mp hsize⟩,
      fun r hr => h.grid r (List.mem_cons_of_mem _ hr)⟩
    rw [show a + m - lo = a - lo + m by omega]
    exact Nat.dvd_add hgrid hu
  · simp only [List.forall_mem_cons]
    unfold Region.stop
    dsimp only
    exact ⟨⟨hlo, by omega⟩, ⟨by omega, by omega⟩,
      fun r hr => h.inside r (List.mem_cons_of_mem _ hr)⟩
  · refine List.Pairwise.cons (fun r hr => ?_) (List.Pairwise.cons (fun r hr => ?_) htail)
    · rcases List.mem_cons.mp hr with rfl | hr
      · exact Region.disjoint_of_stop_le (le_refl _)
      · exact fun x hx => hhead r hr x (Region.contains_append.mpr (Or.inl hx))
    · exact fun x hx => hhead r hr x (Region.contains_append.mpr (Or.inr hx))

/-- Joining two adjacent parcels. -/
theorem join {a m n : Nat} (h : Parcels u lo hi (⟨a, m⟩ :: ⟨a + m, n⟩ :: rs)) :
    Parcels u lo hi (⟨a, m + n⟩ :: rs) := by
  obtain ⟨hm, hrest⟩ := List.pairwise_cons.mp h.apart
  obtain ⟨hn, htail⟩ := List.pairwise_cons.mp hrest
  have hfst := List.mem_cons_self (a := (⟨a, m⟩ : Region)) (l := ⟨a + m, n⟩ :: rs)
  have hsnd : (⟨a + m, n⟩ : Region) ∈ (⟨a, m⟩ :: ⟨a + m, n⟩ :: rs : List Region) :=
    List.mem_cons_of_mem _ List.mem_cons_self
  have hmem : ∀ r ∈ rs, r ∈ (⟨a, m⟩ :: ⟨a + m, n⟩ :: rs : List Region) :=
    fun r hr => List.mem_cons_of_mem _ (List.mem_cons_of_mem _ hr)
  refine ⟨?_, ?_, ?_, ?_⟩
  · simp only [List.forall_mem_cons]
    exact ⟨Nat.add_pos_left (h.pos _ hfst) n, fun r hr => h.pos r (hmem r hr)⟩
  · simp only [List.forall_mem_cons]
    exact ⟨⟨(h.grid _ hfst).1, Nat.dvd_add (h.grid _ hfst).2 (h.grid _ hsnd).2⟩,
      fun r hr => h.grid r (hmem r hr)⟩
  · simp only [List.forall_mem_cons]
    refine ⟨⟨(h.inside _ hfst).1, ?_⟩, fun r hr => h.inside r (hmem r hr)⟩
    have := (h.inside _ hsnd).2
    unfold Region.stop at this ⊢
    dsimp only at this ⊢
    omega
  · refine List.Pairwise.cons (fun r hr x hx => ?_) htail
    rcases Region.contains_append.mp hx with hx | hx
    · exact hm r (List.mem_cons_of_mem _ hr) x hx
    · exact hn r hr x hx

end Parcels

end PrplHypervisor.Layout
