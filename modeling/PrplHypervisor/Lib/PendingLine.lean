import Mathlib.Logic.Relation

/-!
# A pending line kept in two places

A request line of a task that is sometimes running and sometimes not. While the
task runs, the line can be pending in the live place; at any time it can be pending
in the saved place. Stopping the task folds the live bit into the saved one,
starting it moves the saved bit to the live place. The task serves the line only
while running and only from the live place.

- `Line.Op`: the five operations.
- `Line.Conserved`: an owed line is pending somewhere, and every pending bit and
  every service answers a request of its own.
- `Line.Steps.conserved`: any sequence of operations keeps it.
- `Line.Steps.pending_mono`: without a service in between, a pending line stays
  pending.
-/

namespace PrplHypervisor

/-- A line with its two bits, whether its task runs, the numbers of requests and
services so far, and whether the last of them was a request. -/
structure Line where
  saved : Bool
  live : Bool
  running : Bool
  requests : Nat
  services : Nat
  owed : Bool

namespace Line

/-- The line is pending in one of its places. -/
def Pending (l : Line) : Prop := l.saved = true ∨ l.live = true

/-- One operation on a line. -/
inductive Op : Line → Line → Prop where
  /-- Request, recorded in the saved place. -/
  | requestSaved (l : Line) :
      Op l { l with saved := true, requests := l.requests + 1, owed := true }
  /-- Request, recorded in the live place of the running task. -/
  | requestLive (l : Line) (hrun : l.running = true) :
      Op l { l with live := true, requests := l.requests + 1, owed := true }
  /-- The running task serves its live bit. -/
  | serve (l : Line) (hlive : l.live = true) :
      Op l { l with live := false, services := l.services + 1, owed := false }
  /-- The running task stops. -/
  | stop (l : Line) (hrun : l.running = true) :
      Op l { l with saved := l.saved || l.live, live := false, running := false }
  /-- The task starts. -/
  | start (l : Line) (hrun : l.running = false) :
      Op l { l with saved := false, live := l.saved, running := true }

/-- Sequences of operations. -/
abbrev Steps : Line → Line → Prop := Relation.ReflTransGen Op

/-- Nothing owed is missing, nothing pending is invented. -/
structure Conserved (l : Line) : Prop where
  owed_pending : l.owed = true → l.Pending
  counted : l.services + l.saved.toNat + l.live.toNat ≤ l.requests
  live_running : l.live = true → l.running = true

theorem Op.conserved {l l' : Line} (h : Op l l') (hl : l.Conserved) : l'.Conserved := by
  obtain ⟨howed, hcount, hlive⟩ := hl
  cases h with
  | requestSaved =>
    refine ⟨fun _ => Or.inl rfl, ?_, hlive⟩
    have := Bool.toNat_le l.saved
    simp only [Bool.toNat_true]
    omega
  | requestLive hrun =>
    refine ⟨fun _ => Or.inr rfl, ?_, fun _ => hrun⟩
    have := Bool.toNat_le l.live
    simp only [Bool.toNat_true]
    omega
  | serve hlv =>
    refine ⟨fun h => (Bool.false_ne_true h).elim, ?_, fun h => (Bool.false_ne_true h).elim⟩
    simp only [hlv, Bool.toNat_true, Bool.toNat_false] at hcount ⊢
    omega
  | stop hrun =>
    refine ⟨fun h => Or.inl (by simpa [Pending] using howed h), ?_,
      fun h => (Bool.false_ne_true h).elim⟩
    -- both bits become one, so a request may be merged but not lost
    have hor : (l.saved || l.live).toNat ≤ l.saved.toNat + l.live.toNat := by
      cases l.saved <;> cases l.live <;> decide
    simp only [Bool.toNat_false]
    omega
  | start hrun =>
    -- nothing is live before a start
    have hoff : l.live = false := by
      cases h : l.live with
      | false => rfl
      | true =>
        rw [hlive h] at hrun
        cases hrun
    refine ⟨fun h => Or.inr ?_, ?_, fun _ => rfl⟩
    · rcases howed h with hs | hv
      · exact hs
      · rw [hoff] at hv
        cases hv
    · simp only [hoff, Bool.toNat_false] at hcount ⊢
      omega

/-- Conservation over any sequence of operations. -/
theorem Steps.conserved {l l' : Line} (h : Steps l l') (hl : l.Conserved) : l'.Conserved := by
  induction h with
  | refl => exact hl
  | tail _ hop ih => exact hop.conserved ih

theorem Op.services_le {l l' : Line} (h : Op l l') : l.services ≤ l'.services := by
  cases h <;> simp

theorem Conserved.live_eq_false {l : Line} (hl : l.Conserved) (hrun : l.running = false) :
    l.live = false := by
  cases hlive : l.live with
  | false => rfl
  | true =>
    have := hl.live_running hlive
    rw [hrun] at this
    cases this

theorem Op.pending_mono {l l' : Line} (h : Op l l') (hl : l.Conserved)
    (hs : l'.services = l.services) (hp : l.Pending) : l'.Pending := by
  cases h with
  | requestSaved => exact Or.inl rfl
  | requestLive => exact Or.inr rfl
  | serve => exact absurd hs (Nat.succ_ne_self _)
  | stop => exact Or.inl (by simpa [Pending] using hp)
  | start hrun =>
    rcases hp with hp | hp
    · exact Or.inr hp
    · rw [hl.live_eq_false hrun] at hp
      cases hp

theorem Steps.services_le {l l' : Line} (h : Steps l l') : l.services ≤ l'.services := by
  induction h with
  | refl => exact Nat.le_refl _
  | tail _ hop ih => exact Nat.le_trans ih hop.services_le

/-- A pending line stays pending until it is served. -/
theorem Steps.pending_mono {l l' : Line} (h : Steps l l') (hl : l.Conserved)
    (hs : l'.services = l.services) (hp : l.Pending) : l'.Pending := by
  induction h with
  | refl => exact hp
  | tail hsteps hop ih =>
    have h₁ := Steps.services_le hsteps
    have h₂ := hop.services_le
    exact hop.pending_mono (Steps.conserved hsteps hl) (by omega) (ih (by omega))

end Line

end PrplHypervisor
