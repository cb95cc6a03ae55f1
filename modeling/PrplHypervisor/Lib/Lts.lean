import Mathlib.Logic.Basic

/-!
# Runs of a guarded step function with observations

A system is a step function `step : S → E → Option (S × List O)`: event `e` is
refused (`none`) or moves the state and emits observations. A run is a sequence
of accepted events; its trace is the concatenation of what they emit.

- `Run step ok s₀ tr s`: from `s₀`, events that all meet the side condition `ok`
  in the state they fire in lead to `s` with trace `tr`.
- `Run.invariant`: what one step preserves, every run preserves.
- `exec`: running a list of events, to build and evaluate concrete runs (`exec_run`).
-/

namespace PrplHypervisor.Lts

variable {S E O : Type}

/-- Runs from `s₀` whose events all meet `ok`. -/
inductive Run (step : S → E → Option (S × List O)) (ok : S → E → Prop) (s₀ : S) :
    List O → S → Prop
  | nil : Run step ok s₀ [] s₀
  | snoc {tr : List O} {s : S} {e : E} {s' : S} {os : List O} :
      Run step ok s₀ tr s → ok s e → step s e = some (s', os) → Run step ok s₀ (tr ++ os) s'

/-- No side condition. -/
def anyEvent : S → E → Prop := fun _ _ => True

variable {step : S → E → Option (S × List O)} {ok : S → E → Prop} {s₀ s s' : S} {tr : List O}

/-- A relation between trace and state that holds initially and is kept by every
step that meets `ok` holds after every such run. -/
theorem Run.invariant (I : List O → S → Prop) (hinit : I [] s₀)
    (hstep : ∀ tr s e s' os, I tr s → ok s e → step s e = some (s', os) → I (tr ++ os) s')
    (h : Run step ok s₀ tr s) : I tr s := by
  induction h with
  | nil => exact hinit
  | snoc _ hok hs ih => exact hstep _ _ _ _ _ ih hok hs

/-- A run under a stronger side condition is a run under a weaker one. -/
theorem Run.mono {ok' : S → E → Prop} (hok : ∀ s e, ok s e → ok' s e)
    (h : Run step ok s₀ tr s) : Run step ok' s₀ tr s := by
  induction h with
  | nil => exact Run.nil
  | snoc _ ho hs ih => exact Run.snoc ih (hok _ _ ho) hs

/-- Forgetting the side condition. -/
theorem Run.any (h : Run step ok s₀ tr s) : Run step anyEvent s₀ tr s :=
  h.mono fun _ _ _ => trivial

@[simp] theorem anyEvent_eq (s : S) (e : E) : anyEvent s e = True := rfl

instance : DecidableRel (anyEvent : S → E → Prop) := fun _ _ => .isTrue trivial

/-- Fire a list of events in order, each of which has to meet `ok`. -/
def exec (step : S → E → Option (S × List O)) (ok : S → E → Prop) [DecidableRel ok] :
    S → List E → Option (S × List O)
  | s, [] => some (s, [])
  | s, e :: es =>
    if ok s e then
      match step s e with
      | none => none
      | some (s₁, os) =>
        match exec step ok s₁ es with
        | none => none
        | some (s₂, tr) => some (s₂, os ++ tr)
    else none

/-- The first event of a list that fires, and the rest. -/
theorem exec_cons [DecidableRel ok] {e : E} {es : List E}
    (h : exec step ok s₀ (e :: es) = some (s, tr)) :
    ∃ s₁ os tr', ok s₀ e ∧ step s₀ e = some (s₁, os) ∧ exec step ok s₁ es = some (s, tr') ∧
      tr = os ++ tr' := by
  unfold exec at h
  by_cases hok : ok s₀ e
  · rw [if_pos hok] at h
    cases hs : step s₀ e with
    | none =>
      rw [hs] at h
      cases h
    | some p =>
      obtain ⟨s₁, os⟩ := p
      simp only [hs] at h
      cases hrest : exec step ok s₁ es with
      | none =>
        rw [hrest] at h
        cases h
      | some q =>
        obtain ⟨s₂, tr₂⟩ := q
        simp only [hrest] at h
        obtain ⟨rfl, rfl⟩ := Prod.mk.inj (Option.some.inj h)
        exact ⟨s₁, os, tr₂, hok, rfl, hrest, rfl⟩
  · rw [if_neg hok] at h
    cases h

/-- Continuing a run by a list of events that fires. -/
theorem Run.append_exec [DecidableRel ok] (h : Run step ok s₀ tr s) {es : List E} {tr' : List O}
    (hes : exec step ok s es = some (s', tr')) : Run step ok s₀ (tr ++ tr') s' := by
  induction es generalizing s tr tr' with
  | nil =>
    obtain ⟨rfl, rfl⟩ := Prod.mk.inj (Option.some.inj hes)
    rwa [List.append_nil]
  | cons e es ih =>
    obtain ⟨s₁, os, tr₂, hok, hs, hrest, rfl⟩ := exec_cons hes
    rw [← List.append_assoc]
    exact ih (Run.snoc h hok hs) hrest

/-- A list of events that fires is a run. -/
theorem exec_run [DecidableRel ok] {es : List E} (hes : (exec step ok s₀ es).isSome = true) :
    Run step ok s₀ ((exec step ok s₀ es).get hes).2 ((exec step ok s₀ es).get hes).1 :=
  Run.nil.append_exec (Option.some_get hes).symm

end PrplHypervisor.Lts
