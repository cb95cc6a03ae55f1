import PrplHypervisor.Drivers.InterVm

/-!
# Redirected interrupts (drivers/pic32mz-interrupt-redirect.c)

- `injectOne`: the body of the loop of `interrupt_injection` for one entry of the
  mapping list.
- `interruptInjection`: the loop. Each entry whose interrupt flag is set raises its
  line, in `GuestCTL2` when its VCPU executes and in the saved word otherwise.
-/

namespace PrplHypervisor

open Machine Word32

variable {n : Nat}

/-- Raise a line in `GuestCTL2`. -/
def raiseRunning (m : Machine n) (line : Nat) : Machine n :=
  { m with cpu := { m.cpu with guestCtl2 := m.cpu.guestCtl2 ||| gripl line } }

/-- Disable an interrupt and clear its flag. -/
def acknowledge (m : Machine n) (irq : Nat) : Machine n :=
  { m with cpu := { m.cpu with
    iec := Function.update m.cpu.iec irq false
    ifs := Function.update m.cpu.ifs irq false } }

/-- One entry of the mapping list, with VCPU `self` in execution. -/
def injectOne (self : Fin n) (m : Machine n) (e : InterruptMapping n) :
    Machine n × List (Obs n) :=
  if m.cpu.ifs e.irqNumber then
    let m₁ := acknowledge m e.irqNumber
    if e.vcpu = self then (raiseRunning m₁ e.irqGuest, [.raised e.vcpu e.irqGuest])
    else (raiseSaved m₁ e.vcpu e.irqGuest, [.raised e.vcpu e.irqGuest])
  else (m, [])

/-- The loop over the mapping list. -/
def injectAll (self : Fin n) : Machine n → List (InterruptMapping n) → Machine n × List (Obs n)
  | m, [] => (m, [])
  | m, e :: es =>
    let (m₁, os) := injectOne self m e
    let (m₂, os') := injectAll self m₁ es
    (m₂, os ++ os')

/-- Virtual interrupt injection on guests. The entry whose flag is set compares its VCPU
with the one in execution: without one it reads through a null pointer and the routine
does not return. -/
def interruptInjection (m : Machine n) : Option (Machine n × List (Obs n)) :=
  match m.executing with
  | none => if ∃ e ∈ m.interruptMappingList, m.cpu.ifs e.irqNumber = true then none
    else some (m, [])
  | some self => some (injectAll self m m.interruptMappingList)

/-- A call that returns has found no flag set or a VCPU in execution. -/
theorem interruptInjection_cases {m m' : Machine n} {os : List (Obs n)}
    (h : interruptInjection m = some (m', os)) : (m' = m ∧ os = []) ∨
      ∃ self, m.executing = some self ∧ injectAll self m m.interruptMappingList = (m', os) := by
  unfold interruptInjection at h
  split at h
  case h_1 =>
    split at h
    · cases h
    · obtain ⟨rfl, rfl⟩ := Prod.mk.inj (Option.some.inj h)
      exact Or.inl ⟨rfl, rfl⟩
  case h_2 self hself => exact Or.inr ⟨self, hself, Option.some.inj h⟩

/-- What acknowledging an interrupt and raising a line keep is kept by the whole pass. -/
theorem injectAll_induction {I : Machine n → Prop}
    (hack : ∀ m irq, I m → I (acknowledge m irq))
    (hrunning : ∀ m line, I m → I (raiseRunning m line))
    (hsaved : ∀ m i line, I m → I (raiseSaved m i line)) (self : Fin n)
    (es : List (InterruptMapping n)) {m : Machine n} (h : I m) : I (injectAll self m es).1 := by
  induction es generalizing m with
  | nil => exact h
  | cons e es ih =>
    have hone : I (injectOne self m e).1 := by
      unfold injectOne
      split
      · have hm₁ := hack m e.irqNumber h
        dsimp only
        split
        · exact hrunning _ _ hm₁
        · exact hsaved _ _ _ hm₁
      · exact h
    exact ih hone

end PrplHypervisor
