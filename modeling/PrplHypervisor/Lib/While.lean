/-!
# Loops cut off after a number of rounds

`whileLoop cond body rounds s` is `while (cond) body` from `s`; `none` is a loop that
is still running after `rounds` rounds. `whileLoop_total` is total correctness: an
invariant that carries a bound on the rounds left, the bound falling in every round.
`EndsAfter` says how many rounds a loop takes; `endsAfter_of_inv` proves it by an invariant
that knows the number of rounds done.
-/

namespace PrplHypervisor.While

variable {σ : Type} {cond : σ → Bool} {body : σ → σ}

def whileLoop (cond : σ → Bool) (body : σ → σ) : Nat → σ → Option σ
  | 0, s => if cond s then none else some s
  | rounds + 1, s => if cond s then whileLoop cond body rounds (body s) else some s

theorem whileLoop_of_not {rounds : Nat} {s : σ} (h : cond s = false) :
    whileLoop cond body rounds s = some s := by
  cases rounds <;> simp [whileLoop, h]

theorem whileLoop_of_cond {rounds : Nat} {s : σ} (h : cond s = true) :
    whileLoop cond body (rounds + 1) s = whileLoop cond body rounds (body s) := by
  simp [whileLoop, h]

/-- The loop ends in a state of the invariant in which the test fails. -/
theorem whileLoop_total (inv : Nat → σ → Prop)
    (hstep : ∀ n s, inv n s → cond s = true → ∃ m < n, inv m (body s)) {n rounds : Nat} {s : σ}
    (hs : inv n s) (hn : n ≤ rounds) :
    ∃ m t, whileLoop cond body rounds s = some t ∧ inv m t ∧ cond t = false := by
  induction rounds generalizing n s with
  | zero =>
    cases hc : cond s with
    | false => exact ⟨n, s, whileLoop_of_not hc, hs, hc⟩
    | true =>
      obtain ⟨m, hm, -⟩ := hstep n s hs hc
      omega
  | succ rounds ih =>
    cases hc : cond s with
    | false => exact ⟨n, s, whileLoop_of_not hc, hs, hc⟩
    | true =>
      obtain ⟨m, hm, hinv⟩ := hstep n s hs hc
      rw [whileLoop_of_cond hc]
      exact ih hinv (by omega)

/-- The loop from `s` takes `n` rounds and ends in `t`. -/
def EndsAfter (cond : σ → Bool) (body : σ → σ) (n : Nat) (s t : σ) : Prop :=
  whileLoop cond body n s = some t ∧ ∀ k < n, whileLoop cond body k s = none

theorem endsAfter_zero {s : σ} (h : cond s = false) : EndsAfter cond body 0 s s :=
  ⟨whileLoop_of_not h, fun k hk => absurd hk (Nat.not_lt_zero k)⟩

theorem EndsAfter.succ {n : Nat} {s t : σ} (hc : cond s = true)
    (h : EndsAfter cond body n (body s) t) : EndsAfter cond body (n + 1) s t := by
  obtain ⟨hend, hrun⟩ := h
  refine ⟨by rw [whileLoop_of_cond hc, hend], fun k hk => ?_⟩
  cases k with
  | zero => simp [whileLoop, hc]
  | succ k => rw [whileLoop_of_cond hc, hrun k (by omega)]

/-- The invariant holds for so many rounds done; the test succeeds before round `n` and fails
there. -/
theorem endsAfter_of_inv (inv : Nat → σ → Prop) {n k : Nat} {s : σ}
    (hstep : ∀ j < n + k, ∀ s, inv j s → cond s = true ∧ inv (j + 1) (body s))
    (hend : ∀ s, inv (n + k) s → cond s = false) (hs : inv k s) :
    ∃ t, EndsAfter cond body n s t ∧ inv (n + k) t := by
  induction n generalizing k s with
  | zero =>
    rw [Nat.zero_add] at hend ⊢
    exact ⟨s, endsAfter_zero (hend s hs), hs⟩
  | succ n ih =>
    rw [Nat.succ_add_eq_add_succ] at hstep hend ⊢
    obtain ⟨hc, hnext⟩ := hstep k (by omega) s hs
    obtain ⟨t, ht, hinv⟩ := ih hstep hend hnext
    exact ⟨t, ht.succ hc, hinv⟩

end PrplHypervisor.While
