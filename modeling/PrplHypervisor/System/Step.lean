import PrplHypervisor.Arch.Timer
import PrplHypervisor.Guest.Network
import PrplHypervisor.Lib.Lts

/-!
# Steps of the whole system

Hypercalls, interrupt handlers and the guests' own actions as the events of one
machine. Handlers and hypercalls run with interrupts disabled, so each is one
event; the guest's `irq_network` can be interrupted by the hypervisor between its
fetches, so each of its transitions is an event. Events may come in any order.

- `Event`: what can happen next.
- `step`: the machine after it, and what it shows.
- `Reaches`: runs from an initial state.
-/

namespace PrplHypervisor

open Machine Word32

variable {n : Nat}

/-- What can happen next. -/
inductive Event (n : Nat) where
  /-- The timer interrupt, with the guest's PC and the two values read from Count. -/
  | timer (epc : Word) (now later : Nat)
  /-- A driver asks for a fast switch to the VCPU of a VM. -/
  | fastInterrupt (i : Fin n)
  /-- A device sets its interrupt flag. -/
  | deviceInterrupt (irq : Nat)
  /-- A redirected interrupt is handled. -/
  | injection
  /-- The guest in execution writes one of its CP0 registers. -/
  | writeCp0 (r : Cp0) (w : Word)
  /-- The guest in execution takes the pending lines selected by `mask`. -/
  | takeInterrupt (mask : Word)
  /-- The guest in execution sends a message. -/
  | sendMsg (targetId size : Nat) (src : Nat → UInt8)
  /-- The guest in execution advances its `irq_network` handler. -/
  | irqNetwork (bufferAddr : Nat)
  /-- The guest in execution calls `ReceiveMessage`. -/
  | receiveMessage (bufsz : Nat) (block : Bool)

/-- A guest outside its handler takes some of the lines pending in `GuestCTL2`; the
inter-VM line enters `irq_network`. -/
def takeInterrupt (m : Machine n) (self : Fin n) (mask : Word) :
    Option (Machine n × List (Obs n)) :=
  let g := m.guest self
  let taken := m.cpu.guestCtl2 &&& mask
  if g.net ≠ .idle then none
  else
    let m₁ := { m with cpu := { m.cpu with guestCtl2 := m.cpu.guestCtl2 &&& ~~~mask } }
    let m₂ := if taken &&& gripl guestIntervmInt ≠ 0
      then m₁.setGuest self { g with net := .entered } else m₁
    some (m₂, [.taken self taken])

/-- One event. Events of a guest need that guest in execution. -/
def step (p : Params) (m : Machine n) : Event n → Option (Machine n × List (Obs n))
  | .timer epc now later => timerInterruptHandler p m epc now later
  | .fastInterrupt i => some (fastInterruptDelivery m (.own i), [])
  | .deviceInterrupt irq =>
    some ({ m with cpu := { m.cpu with ifs := Function.update m.cpu.ifs irq true } }, [])
  | .injection => interruptInjection m
  | .writeCp0 r w =>
    m.executing.map fun _ =>
      ({ m with cpu := { m.cpu with guestCp0 := Function.update m.cpu.guestCp0 r w } }, [])
  | .takeInterrupt mask => m.executing.bind fun self => takeInterrupt m self mask
  | .sendMsg targetId size src =>
    m.executing.map fun self =>
      let (m', v0, raised) := intervmSendMsg m self targetId size src
      (m', .sendReturned self targetId v0 (sentDelivery (m.vm self).id size src) ::
        raised.toList.map fun t => Obs.raised t guestIntervmInt)
  | .irqNetwork bufferAddr =>
    m.executing.bind fun self => (irqNetwork m self bufferAddr).map fun m' => (m', [])
  | .receiveMessage bufsz block =>
    m.executing.bind fun self =>
      (receiveMessage m self bufsz block).map fun r => (r.1, [.receiveReturned self r.2])

/-- Runs of the machine from `m₀` whose events meet `ok`. -/
abbrev Reaches (p : Params) (ok : Machine n → Event n → Prop) (m₀ : Machine n)
    (tr : List (Obs n)) (m : Machine n) : Prop :=
  Lts.Run (step p) ok m₀ tr m

/-! ## Taking an interrupt -/

/-- The effect of taking interrupts. -/
structure Taken (m : Machine n) (i : Fin n) (mask : Word) (m' : Machine n)
    (os : List (Obs n)) : Prop where
  idle : (m.guest i).net = .idle
  executing : m'.executing = m.executing
  vm : m'.vm = m.vm
  vcpu : m'.vcpu = m.vcpu
  guestCp0 : m'.cpu.guestCp0 = m.cpu.guestCp0
  guestCtl2 : m'.cpu.guestCtl2 = m.cpu.guestCtl2 &&& ~~~mask
  guest_of_ne : ∀ j, j ≠ i → m'.guest j = m.guest j
  messageList : (m'.guest i).messageList = (m.guest i).messageList
  net : (m'.guest i).net =
    if m.cpu.guestCtl2 &&& mask &&& gripl guestIntervmInt ≠ 0 then .entered else .idle
  obs : os = [.taken i (m.cpu.guestCtl2 &&& mask)]

theorem takeInterrupt_some {m m' : Machine n} {self : Fin n} {mask : Word} {os : List (Obs n)}
    (h : takeInterrupt m self mask = some (m', os)) : Taken m self mask m' os := by
  unfold takeInterrupt at h
  by_cases hidle : (m.guest self).net = .idle
  · simp only [hidle, ne_eq, not_true_eq_false, if_false, Option.some.injEq, Prod.mk.injEq] at h
    obtain ⟨rfl, rfl⟩ := h
    by_cases hnet : m.cpu.guestCtl2 &&& mask &&& gripl guestIntervmInt = 0
    · simp only [hnet, not_true_eq_false, if_false]
      exact ⟨hidle, rfl, rfl, rfl, rfl, rfl, fun _ _ => rfl, rfl,
        by rw [if_neg (not_not.mpr hnet)]; exact hidle, rfl⟩
    · simp only [hnet, not_false_eq_true, if_true]
      exact ⟨hidle, rfl, rfl, rfl, rfl, rfl, fun j hj => setGuest_guest_of_ne _ hj _,
        by rw [setGuest_guest_self], by rw [setGuest_guest_self, if_pos hnet], rfl⟩
  · simp only [hidle, ne_eq, not_false_eq_true, if_true] at h
    cases h

end PrplHypervisor
