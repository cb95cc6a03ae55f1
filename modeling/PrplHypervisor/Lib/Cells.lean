import PrplHypervisor.Lib.Word32
import Mathlib.Logic.Function.Basic

/-!
# Bytes of a memory of cells

A program that handles records of several bytes still copies and clears them byte
by byte. A `Cell` is such a record seen as bytes; a memory is a map from addresses
to cells, and byte `i` from `p` on lies in the cell `addr p i`.

- `fill`, `copy`: byte loops; `byte_fill`, `byte_copy`: what they leave behind.
- `fill_apply_of_ne`, `copy_apply_of_ne`: the cells they do not touch.
- `wordCell`: a 32-bit word.
-/

namespace PrplHypervisor

open Word32

/-- A record of `width` bytes on the grid of its own width. -/
structure Cell (C : Type) where
  width : Nat
  grid : width ∣ 2 ^ 32
  get : C → Nat → UInt8
  put : C → Nat → UInt8 → C
  get_put : ∀ c v {j k}, j < width → k < width → get (put c k v) j = if j = k then v else get c j

namespace Cell

variable {C : Type} (w : Cell C)

/-- The cell of byte `i` from `p` on. -/
def addr (p i : Nat) : Nat := add32 p (i / w.width * w.width)

/-- Byte `i` from `p` on. -/
def byte (mem : Nat → C) (p i : Nat) : UInt8 := w.get (mem (w.addr p i)) (i % w.width)

/-- `p[i] = v` -/
def setByte (mem : Nat → C) (p i : Nat) (v : UInt8) : Nat → C :=
  Function.update mem (w.addr p i) (w.put (mem (w.addr p i)) (i % w.width) v)

/-- The first `n` bytes from `p` on become `v`. -/
def fill (mem : Nat → C) (p : Nat) (v : UInt8) : Nat → (Nat → C)
  | 0 => mem
  | n + 1 => w.setByte (fill mem p v n) p n v

/-- The first `n` bytes from `src` on are stored from `dst` on, one after the other. -/
def copy (mem : Nat → C) (dst src : Nat) : Nat → (Nat → C)
  | 0 => mem
  | n + 1 => w.setByte (copy mem dst src n) dst n (w.byte (copy mem dst src n) src n)

variable {w} {mem mem' : Nat → C} {p q i j n dst src a : Nat} {v : UInt8}

theorem width_pos (w : Cell C) : 0 < w.width := Nat.pos_of_dvd_of_pos w.grid (by decide)

theorem byte_congr (h : mem' (w.addr p i) = mem (w.addr p i)) :
    w.byte mem' p i = w.byte mem p i := by
  rw [byte, byte, h]

/-- Within the address space, bytes of one cell have one cell number. -/
theorem div_eq_of_addr_eq (hi : i < 2 ^ 32) (hj : j < 2 ^ 32) (h : w.addr p i = w.addr p j) :
    i / w.width = j / w.width := by
  have hle := Nat.div_mul_le_self i w.width
  have hle' := Nat.div_mul_le_self j w.width
  unfold addr add32 u32 at h
  exact Nat.eq_of_mul_eq_mul_right w.width_pos (by omega)

theorem byte_setByte (hi : i < 2 ^ 32) (hj : j < 2 ^ 32) :
    w.byte (w.setByte mem p i v) p j = if j = i then v else w.byte mem p j := by
  unfold byte setByte
  by_cases haddr : w.addr p j = w.addr p i
  · have hdiv := div_eq_of_addr_eq hj hi haddr
    rw [haddr, Function.update_self,
      w.get_put _ _ (Nat.mod_lt _ w.width_pos) (Nat.mod_lt _ w.width_pos)]
    -- one cell: the bytes differ in their place in it
    have hmod : j % w.width = i % w.width ↔ j = i := by
      refine ⟨fun hm => ?_, fun e => by rw [e]⟩
      rw [← Nat.div_add_mod j w.width, ← Nat.div_add_mod i w.width, hdiv, hm]
    simp only [hmod]
  · have hne : j ≠ i := fun e => haddr (by rw [e])
    rw [Function.update_of_ne haddr, if_neg hne]

theorem setByte_apply_of_ne (h : a ≠ w.addr p i) : w.setByte mem p i v a = mem a :=
  Function.update_of_ne h _ _

theorem fill_apply_of_ne (h : ∀ i < n, a ≠ w.addr p i) : w.fill mem p v n a = mem a := by
  induction n with
  | zero => rfl
  | succ n ih =>
    rw [fill, setByte_apply_of_ne (h n (Nat.lt_succ_self n))]
    exact ih fun i hi => h i (Nat.lt_succ_of_lt hi)

theorem byte_fill (hn : n ≤ 2 ^ 32) (hi : i < n) : w.byte (w.fill mem p v n) p i = v := by
  induction n with
  | zero => exact absurd hi (Nat.not_lt_zero i)
  | succ n ih =>
    rw [fill, byte_setByte (by omega) (by omega)]
    by_cases hin : i = n
    · exact if_pos hin
    · rw [if_neg hin]
      exact ih (by omega) (by omega)

theorem copy_apply_of_ne (h : ∀ i < n, a ≠ w.addr dst i) : w.copy mem dst src n a = mem a := by
  induction n with
  | zero => rfl
  | succ n ih =>
    rw [copy, setByte_apply_of_ne (h n (Nat.lt_succ_self n))]
    exact ih fun i hi => h i (Nat.lt_succ_of_lt hi)

/-- A copy between cells that are apart. -/
theorem byte_copy (hn : n ≤ 2 ^ 32) (hapart : ∀ i < n, ∀ j < n, w.addr src j ≠ w.addr dst i)
    (hi : i < n) : w.byte (w.copy mem dst src n) dst i = w.byte mem src i := by
  induction n with
  | zero => exact absurd hi (Nat.not_lt_zero i)
  | succ n ih =>
    rw [copy, byte_setByte (by omega) (by omega)]
    by_cases hin : i = n
    · -- the source byte has not been written so far
      have hsrc : w.copy mem dst src n (w.addr src n) = mem (w.addr src n) :=
        copy_apply_of_ne fun k hk => hapart k (by omega) n (by omega)
      rw [if_pos hin, hin]
      exact byte_congr hsrc
    · rw [if_neg hin]
      exact ih (by omega) (fun k hk l hl => hapart k (by omega) l (by omega)) (by omega)

end Cell

theorem byteOfWord_wordAt (mem : Nat → UInt8) (a : Nat) {k : Nat} (hk : k < 4) :
    byteOfWord (wordAt mem a) k = mem (a + k) := by
  have h₀ := (mem a).toNat_lt
  have h₁ := (mem (a + 1)).toNat_lt
  have h₂ := (mem (a + 2)).toNat_lt
  have h₃ := (mem (a + 3)).toNat_lt
  apply UInt8.toNat_inj.mp
  rw [byteOfWord_toNat]
  unfold wordAt
  obtain rfl | rfl | rfl | rfl : k = 0 ∨ k = 1 ∨ k = 2 ∨ k = 3 := by omega
  all_goals simp only [Nat.reduceMul, Nat.reducePow, Nat.add_zero]; omega

/-- Word `w` with byte `k` replaced. -/
def putByte (w k : Nat) (v : UInt8) : Nat :=
  wordAt (fun j => if j = k then v else byteOfWord w j) 0

theorem byteOfWord_putByte (w : Nat) (v : UInt8) {j k : Nat} (hj : j < 4) :
    byteOfWord (putByte w k v) j = if j = k then v else byteOfWord w j := by
  rw [putByte, byteOfWord_wordAt _ _ hj, Nat.zero_add]

/-- A little-endian word. -/
def wordCell : Cell Nat where
  width := 4
  grid := by decide
  get := byteOfWord
  put := putByte
  get_put w v _ _ hj _ := byteOfWord_putByte w v hj

end PrplHypervisor
