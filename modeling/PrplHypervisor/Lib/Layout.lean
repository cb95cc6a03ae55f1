import Mathlib.Algebra.GroupWithZero.Nat
import Mathlib.Order.Basic
import Mathlib.Data.List.Pairwise

/-!
# Serial placement of aligned regions

A cursor walks over memory; each request rounds the cursor up to its own
alignment, takes `size` bytes there and leaves the cursor at the end.

- `alignUp`: rounding a cursor up to an alignment.
- `place`: the regions a list of requests receives from a start cursor.
- `place_pairwise`: an earlier region ends at or below every later one.
- `Tight`: every cursor is aligned already, so the regions leave no gaps
  (`place_tight`).
-/

namespace PrplHypervisor.Layout

/-- The least multiple of `a` at or above `x`. -/
def alignUp (a x : Nat) : Nat := if x % a = 0 then x else x / a * a + a

theorem alignUp_ge {a : Nat} (ha : 0 < a) (x : Nat) : x ≤ alignUp a x := by
  have hdm := Nat.div_add_mod' x a
  have hlt := Nat.mod_lt x ha
  unfold alignUp
  split <;> omega

theorem alignUp_dvd (a x : Nat) : a ∣ alignUp a x := by
  unfold alignUp
  split
  case isTrue h => exact Nat.dvd_of_mod_eq_zero h
  case isFalse => exact ⟨x / a + 1, by rw [Nat.mul_add, Nat.mul_one, Nat.mul_comm]⟩

theorem alignUp_le (a x : Nat) : alignUp a x ≤ x + a := by
  have hdm := Nat.div_add_mod' x a
  unfold alignUp
  split <;> omega

/-- A request for `size` bytes at a multiple of `align`. -/
structure Req where
  align : Nat
  size : Nat
  align_pos : 0 < align
  deriving DecidableEq

/-- The half-open address interval `[start, start + size)`. -/
structure Region where
  start : Nat
  size : Nat
  deriving DecidableEq

namespace Region

/-- One past the last address. -/
def stop (r : Region) : Nat := r.start + r.size

/-- Address `x` lies in the region. -/
def Contains (r : Region) (x : Nat) : Prop := r.start ≤ x ∧ x < r.stop

instance (r : Region) (x : Nat) : Decidable (r.Contains x) := by
  unfold Contains
  infer_instance

/-- No address lies in both regions. -/
def Disjoint (r s : Region) : Prop := ∀ x, r.Contains x → ¬ s.Contains x

theorem disjoint_of_stop_le {r s : Region} (h : r.stop ≤ s.start) : r.Disjoint s := by
  rintro x ⟨-, hr⟩ ⟨hs, -⟩
  omega

theorem Disjoint.symm {r s : Region} (h : r.Disjoint s) : s.Disjoint r :=
  fun x hs hr => h x hr hs

end Region

/-- The region a request receives from cursor `x`. -/
def Req.regionAt (q : Req) (x : Nat) : Region := ⟨alignUp q.align x, q.size⟩

/-- Serial placement from cursor `x`. -/
def place : Nat → List Req → List Region
  | _, [] => []
  | x, q :: qs => q.regionAt x :: place (q.regionAt x).stop qs

/-- Every region starts at or above the cursor. -/
theorem place_ge (qs : List Req) (x : Nat) : ∀ r ∈ place x qs, x ≤ r.start := by
  induction qs generalizing x with
  | nil => simp [place]
  | cons q qs ih =>
    intro r hr
    have hge : x ≤ (q.regionAt x).start := alignUp_ge q.align_pos x
    rcases List.mem_cons.mp hr with rfl | hr
    · exact hge
    · have := ih _ r hr
      unfold Region.stop at this
      omega

/-- Regions come in address order: an earlier one stops before a later one starts. -/
theorem place_pairwise (qs : List Req) (x : Nat) :
    (place x qs).Pairwise (fun r s => r.stop ≤ s.start) := by
  induction qs generalizing x with
  | nil => exact List.Pairwise.nil
  | cons q qs ih => exact List.Pairwise.cons (place_ge qs _) (ih _)

/-! ## Placement without gaps -/

theorem alignUp_eq_self {a x : Nat} : alignUp a x = x ↔ a ∣ x := by
  constructor
  · intro h
    exact h ▸ alignUp_dvd a x
  · intro h
    unfold alignUp
    exact if_pos (Nat.mod_eq_zero_of_dvd h)

/-- Every request finds the cursor at a multiple of its alignment. -/
def Tight : Nat → List Req → Prop
  | _, [] => True
  | x, q :: qs => q.align ∣ x ∧ Tight (x + q.size) qs

instance decidableTight : (x : Nat) → (qs : List Req) → Decidable (Tight x qs)
  | _, [] => .isTrue trivial
  | x, q :: qs =>
    have := decidableTight (x + q.size) qs
    inferInstanceAs (Decidable (_ ∧ _))

/-- Regions placed behind `r` touch each other exactly if the placement is tight. -/
theorem place_tight (r : Region) (qs : List Req) :
    (r :: place r.stop qs).IsChain (fun s t => t.start = s.stop) ↔ Tight r.stop qs := by
  induction qs generalizing r with
  | nil => exact ⟨fun _ => trivial, fun _ => List.IsChain.singleton r⟩
  | cons q qs ih =>
    have hstart : (q.regionAt r.stop).start = r.stop ↔ q.align ∣ r.stop :=
      alignUp_eq_self
    rw [place, List.isChain_cons_cons, ih, Tight, hstart]
    refine and_congr_right ?_
    intro hdvd
    have hstop : (q.regionAt r.stop).stop = r.stop + q.size :=
      congrArg (· + q.size) (hstart.mpr hdvd)
    rw [hstop]

end PrplHypervisor.Layout
