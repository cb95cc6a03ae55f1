import PrplHypervisor.Drivers.InterruptRedirect

/-!
# The timer interrupt (arch/mips/pic32mz/timer.c)

`timerInterruptHandler` runs the scheduler and then, when the guest tick interval
has passed, raises the timer line of whichever VCPU now executes.
-/

namespace PrplHypervisor

open Machine Word32

variable {n : Nat}

/-- Build-time constants of the scheduler and the timer. -/
structure Params where
  /-- `TICKS_BEFORE_SCHEDULING`. -/
  ticks : Nat
  /-- `QUEST_TICK_INTERVAL`, in units of the Count register. -/
  questTickInterval : Nat

/-- Elapsed time between two reads of Count, as the handler computes it. -/
def diffTime (past now : Nat) : Nat :=
  if now ≥ past then now - past else 0xffffffff - (past - now)

/-- Timer handler. `epc` is where the interrupt stopped the guest, `now` and `later`
are the two values read from Count. -/
def timerInterruptHandler (p : Params) (m : Machine n) (epc : Word) (now later : Nat) :
    Option (Machine n × List (Obs n)) :=
  match runScheduler p.ticks { m with cpu := { m.cpu with epc := epc } } with
  | none => none
  | some (m₁, os) =>
    if diffTime m₁.past now ≥ p.questTickInterval then
      some ({ raiseRunning m₁ guestTimerInt with past := later },
        os ++ m₁.executing.toList.map fun i => .raised i guestTimerInt)
    else some (m₁, os)

/-- A handler that returns has run the scheduler, and has raised the line if it was time. -/
theorem timerInterruptHandler_eq_some {p : Params} {m m' : Machine n} {epc : Word}
    {now later : Nat} {os : List (Obs n)}
    (h : timerInterruptHandler p m epc now later = some (m', os)) :
    ∃ m₁ os₁, runScheduler p.ticks { m with cpu := { m.cpu with epc := epc } } = some (m₁, os₁) ∧
      ((m' = { raiseRunning m₁ guestTimerInt with past := later } ∧
          os = os₁ ++ m₁.executing.toList.map fun i => .raised i guestTimerInt) ∨
        (m' = m₁ ∧ os = os₁)) := by
  unfold timerInterruptHandler at h
  split at h
  case h_1 => cases h
  case h_2 m₁ os₁ hsched =>
    refine ⟨m₁, os₁, hsched, ?_⟩
    split at h
    case isTrue =>
      obtain ⟨rfl, rfl⟩ := Prod.mk.inj (Option.some.inj h)
      exact Or.inl ⟨rfl, rfl⟩
    case isFalse =>
      obtain ⟨rfl, rfl⟩ := Prod.mk.inj (Option.some.inj h)
      exact Or.inr ⟨rfl, rfl⟩

end PrplHypervisor
