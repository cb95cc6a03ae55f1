import Mathlib.Algebra.Order.Group.Nat
import Mathlib.Data.Nat.Init

/-!
# Folds over the full blocks of a list

`foldBlocks f n s xs` folds `f` over the blocks of `n` elements `xs` starts with and leaves
out what does not fill a block. `foldBlocks_append` cuts the list behind full blocks.
-/

namespace PrplHypervisor.Blocks

variable {σ α : Type} {f : σ → List α → σ} {n : Nat}

/-- The first `k` blocks of `n` elements. -/
def foldFirst (f : σ → List α → σ) (n : Nat) : Nat → σ → List α → σ
  | 0, s, _ => s
  | k + 1, s, xs => foldFirst f n k (f s (xs.take n)) (xs.drop n)

/-- All full blocks of `n` elements. -/
def foldBlocks (f : σ → List α → σ) (n : Nat) (s : σ) (xs : List α) : σ :=
  foldFirst f n (xs.length / n) s xs

theorem foldFirst_append {k m : Nat} {s : σ} {xs ys : List α} (hxs : xs.length = k * n) :
    foldFirst f n (k + m) s (xs ++ ys) = foldFirst f n m (foldFirst f n k s xs) ys := by
  induction k generalizing s xs with
  | zero =>
    rw [Nat.zero_mul] at hxs
    rw [List.length_eq_zero_iff.mp hxs, List.nil_append, Nat.zero_add]
    rfl
  | succ k ih =>
    have hn : n ≤ xs.length := by
      rw [hxs]
      exact Nat.le_mul_of_pos_left n (Nat.succ_pos k)
    rw [Nat.add_right_comm]
    simp only [foldFirst]
    rw [List.take_append_of_le_length hn, List.drop_append_of_le_length hn]
    refine ih ?_
    rw [List.length_drop, hxs, Nat.succ_mul, Nat.add_sub_cancel]

theorem foldBlocks_append {s : σ} {xs ys : List α} (hn : 0 < n) (hxs : n ∣ xs.length) :
    foldBlocks f n s (xs ++ ys) = foldBlocks f n (foldBlocks f n s xs) ys := by
  obtain ⟨k, hk⟩ := hxs
  rw [Nat.mul_comm] at hk
  have hcount : (xs ++ ys).length / n = k + ys.length / n := by
    rw [List.length_append, hk, Nat.mul_comm, Nat.mul_add_div hn]
  simp only [foldBlocks]
  rw [hcount, foldFirst_append hk, hk, Nat.mul_div_cancel k hn]

@[simp]
theorem foldBlocks_nil {s : σ} : foldBlocks f n s [] = s := by
  simp only [foldBlocks, List.length_nil, Nat.zero_div, foldFirst]

theorem foldBlocks_block {s : σ} {xs : List α} (hn : 0 < n) (hxs : xs.length = n) :
    foldBlocks f n s xs = f s xs := by
  simp only [foldBlocks, hxs, Nat.div_self hn, foldFirst]
  rw [← hxs, List.take_length]

end PrplHypervisor.Blocks
