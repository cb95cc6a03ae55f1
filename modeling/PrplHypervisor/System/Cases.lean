import PrplHypervisor.System.Step

/-!
# What a step can do

Hypervisor events decompose into a few actions: bookkeeping that no guest sees, a
context switch, raising a line in one of its two places, refusing a message, queuing
one and raising the line for it. Guest events are single actions of the VCPU in execution.

- `Action`: the hypervisor's actions, with what they show; `Actions`: sequences.
- `StepCase`: an event is a sequence of actions or one guest action.
- `step_cases`: every step is one of these, provided whoever executes has been
  restored before; `step_runsInitialized`: which stays true.
-/

namespace PrplHypervisor

open Machine

variable {n : Nat}

/-- One action of the hypervisor. -/
inductive Action (m : Machine n) : Machine n → List (Obs n) → Prop where
  | quiet (m' : Machine n) (h : SameContext m m') : Action m m' []
  | switch (t : Fin n) (m' : Machine n) (os : List (Obs n)) (h : Switched m t m' os) :
      Action m m' os
  | raiseRunning (line : Nat) :
      Action m (raiseRunning m line) (m.executing.toList.map fun i => .raised i line)
  | raiseSaved (i : Fin n) (line : Nat) : Action m (raiseSaved m i line) [.raised i line]
  | refuse (self : Fin n) (targetId : Nat) (v0 : Int) (hv0 : v0 < 0) (d : Delivery) :
      Action m m [.sendReturned self targetId v0 d]
  | enqueue (self t : Fin n) (targetId size : Nat) (src : Nat → UInt8)
      (ht : getVcpuFromId m targetId = some t) (hsize : size ≤ messageSz)
      (hroom : (m.vcpu t).messages.numMessages ≠ messagelistSz) :
      Action m (raiseSaved (enqueue m self t size src) t guestIntervmInt)
        [.sendReturned self targetId size (sentDelivery (m.vm self).id size src),
          .raised t guestIntervmInt]

/-- Sequences of actions. -/
inductive Actions : Machine n → Machine n → List (Obs n) → Prop where
  | nil (m : Machine n) : Actions m m []
  | cons {m m₁ m₂ : Machine n} {os₁ os₂ : List (Obs n)} :
      Action m m₁ os₁ → Actions m₁ m₂ os₂ → Actions m m₂ (os₁ ++ os₂)

theorem Actions.single {m m' : Machine n} {os : List (Obs n)} (h : Action m m' os) :
    Actions m m' os := by
  have := Actions.cons h (.nil m')
  rwa [List.append_nil] at this

theorem Actions.trans {m m₁ m₂ : Machine n} {os₁ os₂ : List (Obs n)} (h₁ : Actions m m₁ os₁)
    (h₂ : Actions m₁ m₂ os₂) : Actions m m₂ (os₁ ++ os₂) := by
  induction h₁ with
  | nil => exact h₂
  | cons ha _ ih =>
    rw [List.append_assoc]
    exact .cons ha (ih h₂)

/-- A relation on machines and traces that every action keeps, a sequence keeps. -/
theorem Actions.invariant (I : List (Obs n) → Machine n → Prop)
    (haction : ∀ tr m m' os, I tr m → Action m m' os → I (tr ++ os) m')
    {m m' : Machine n} {os : List (Obs n)} (h : Actions m m' os) :
    ∀ tr, I tr m → I (tr ++ os) m' := by
  induction h with
  | nil => exact fun tr hI => by rwa [List.append_nil]
  | cons ha _ ih =>
    intro tr hI
    rw [← List.append_assoc]
    exact ih _ (haction _ _ _ _ hI ha)

/-- What one event does. -/
inductive StepCase (m : Machine n) : Event n → Machine n → List (Obs n) → Prop where
  | hypervisor (e : Event n) (m' : Machine n) (os : List (Obs n)) (h : Actions m m' os) :
      StepCase m e m' os
  | writeCp0 (self : Fin n) (hself : m.executing = some self) (r : Cp0) (w : Word) :
      StepCase m (.writeCp0 r w)
        { m with cpu := { m.cpu with guestCp0 := Function.update m.cpu.guestCp0 r w } } []
  | takeInterrupt (self : Fin n) (hself : m.executing = some self) (mask : Word)
      (m' : Machine n) (os : List (Obs n)) (h : takeInterrupt m self mask = some (m', os)) :
      StepCase m (.takeInterrupt mask) m' os
  | irqNetwork (self : Fin n) (hself : m.executing = some self) (bufferAddr : Nat)
      (m' : Machine n) (h : irqNetwork m self bufferAddr = some m') :
      StepCase m (.irqNetwork bufferAddr) m' []
  | receiveMessage (self : Fin n) (hself : m.executing = some self) (bufsz : Nat)
      (block : Bool) (m' : Machine n) (got : Option Delivery)
      (h : receiveMessage m self bufsz block = some (m', got)) :
      StepCase m (.receiveMessage bufsz block) m' [.receiveReturned self got]

/-! ## Hypervisor events are sequences of actions -/

theorem timer_actions {p : Params} {m m' : Machine n} {epc : Word} {now later : Nat}
    {os : List (Obs n)} (hm : RunsInitialized m)
    (h : timerInterruptHandler p m epc now later = some (m', os)) : Actions m m' os := by
  obtain ⟨m₁, os₁, hsched, hline⟩ := timerInterruptHandler_eq_some h
  have hm₁ : RunsInitialized { m with cpu := { m.cpu with epc := epc } } := hm
  have hfirst : Action m m₁ os₁ := by
    rcases runScheduler_cases hm₁ hsched with ⟨⟨h1, h2, h3, h4, h5, h6⟩, rfl⟩ | ⟨t, hsw⟩
    · exact .quiet m₁ ⟨h1, h2, h3, h4, h5, h6⟩
    · obtain ⟨h1, h2, h3, h4, h5, h6, h7, h8, h9, h10⟩ := hsw
      exact .switch t m₁ os₁ ⟨h1, h2, h3, h4, h5, h6, h7, h8, h9, h10⟩
  rcases hline with ⟨rfl, rfl⟩ | ⟨rfl, rfl⟩
  · have hraise : Actions m₁ { raiseRunning m₁ guestTimerInt with past := later }
        ((m₁.executing.toList.map fun i => .raised i guestTimerInt) ++ []) :=
      .cons (.raiseRunning guestTimerInt) (.single (.quiet _ ⟨rfl, rfl, rfl, rfl, rfl, rfl⟩))
    rw [List.append_nil] at hraise
    exact .cons hfirst hraise
  · exact .single hfirst

theorem injectOne_actions {self : Fin n} {m : Machine n} (hself : m.executing = some self)
    (e : InterruptMapping n) : Actions m (injectOne self m e).1 (injectOne self m e).2 ∧
      (injectOne self m e).1.executing = some self := by
  unfold injectOne
  split
  case isFalse => exact ⟨.nil m, hself⟩
  case isTrue =>
    have hack : Action m (acknowledge m e.irqNumber) [] := .quiet _ ⟨rfl, rfl, rfl, rfl, rfl, rfl⟩
    split
    case isTrue hv =>
      refine ⟨?_, hself⟩
      have hraise := Action.raiseRunning (m := acknowledge m e.irqNumber) e.irqGuest
      have hobs : (acknowledge m e.irqNumber).executing.toList.map
          (fun i => Obs.raised i e.irqGuest) = [.raised e.vcpu e.irqGuest] := by
        show m.executing.toList.map _ = _
        rw [hself, hv]
        rfl
      rw [hobs] at hraise
      exact .cons hack (.single hraise)
    case isFalse => exact ⟨.cons hack (.single (.raiseSaved e.vcpu e.irqGuest)), hself⟩

theorem injectAll_actions {self : Fin n} (es : List (InterruptMapping n)) {m : Machine n}
    (hself : m.executing = some self) :
    Actions m (injectAll self m es).1 (injectAll self m es).2 := by
  induction es generalizing m with
  | nil => exact .nil m
  | cons e es ih =>
    obtain ⟨hfirst, hself₁⟩ := injectOne_actions hself e
    exact hfirst.trans (ih hself₁)

theorem sendMsg_actions (m : Machine n) (self : Fin n) (targetId size : Nat)
    (src : Nat → UInt8) {m' : Machine n} {v0 : Int} {raised : Option (Fin n)}
    (h : intervmSendMsg m self targetId size src = (m', v0, raised)) :
    Actions m m' (.sendReturned self targetId v0 (sentDelivery (m.vm self).id size src) ::
      raised.toList.map fun t => Obs.raised t guestIntervmInt) := by
  have hcases := intervmSendMsg_cases m self targetId size src
  rw [h] at hcases
  cases hcases with
  | refused _ hv0 => exact .single (.refuse self targetId v0 hv0 _)
  | full t ht hinit hfull =>
    exact .cons (.refuse self targetId messageFull (by decide) _)
      (.single (.raiseSaved t guestIntervmInt))
  | queued t ht hinit hroom hsize =>
    exact .single (.enqueue self t targetId size src ht hsize hroom)

/-! ## Every event -/

theorem step_cases {p : Params} {m m' : Machine n} {e : Event n} {os : List (Obs n)}
    (hm : RunsInitialized m) (h : step p m e = some (m', os)) : StepCase m e m' os := by
  cases e with
  | timer epc now later => exact .hypervisor _ _ _ (timer_actions hm h)
  | fastInterrupt i =>
    obtain ⟨rfl, rfl⟩ := Prod.mk.inj (Option.some.inj h)
    refine .hypervisor _ _ _ (.single (.quiet _ ?_))
    unfold fastInterruptDelivery
    split <;> exact ⟨rfl, rfl, rfl, rfl, rfl, rfl⟩
  | deviceInterrupt irq =>
    obtain ⟨rfl, rfl⟩ := Prod.mk.inj (Option.some.inj h)
    exact .hypervisor _ _ _ (.single (.quiet _ ⟨rfl, rfl, rfl, rfl, rfl, rfl⟩))
  | injection =>
    rcases interruptInjection_cases h with ⟨rfl, rfl⟩ | ⟨self, hself, hinj⟩
    · exact .hypervisor _ _ _ (.nil _)
    · have hall := injectAll_actions m.interruptMappingList hself
      rw [hinj] at hall
      exact .hypervisor _ _ _ hall
  | writeCp0 r w =>
    obtain ⟨self, hself, heq⟩ := Option.map_eq_some_iff.mp h
    obtain ⟨rfl, rfl⟩ := Prod.mk.inj heq
    exact .writeCp0 self hself r w
  | takeInterrupt mask =>
    obtain ⟨self, hself, htake⟩ := Option.bind_eq_some_iff.mp h
    exact .takeInterrupt self hself mask m' os htake
  | sendMsg targetId size src =>
    obtain ⟨self, hself, heq⟩ := Option.map_eq_some_iff.mp h
    obtain ⟨rfl, rfl⟩ := Prod.mk.inj heq
    exact .hypervisor _ _ _ (sendMsg_actions m self targetId size src rfl)
  | irqNetwork bufferAddr =>
    obtain ⟨self, hself, hnet⟩ := Option.bind_eq_some_iff.mp h
    obtain ⟨m₁, hm₁, heq⟩ := Option.map_eq_some_iff.mp hnet
    obtain ⟨rfl, rfl⟩ := Prod.mk.inj heq
    exact .irqNetwork self hself bufferAddr m₁ hm₁
  | receiveMessage bufsz block =>
    obtain ⟨self, hself, hrecv⟩ := Option.bind_eq_some_iff.mp h
    obtain ⟨⟨m₁, got⟩, hr, heq⟩ := Option.map_eq_some_iff.mp hrecv
    obtain ⟨rfl, rfl⟩ := Prod.mk.inj heq
    exact .receiveMessage self hself bufsz block m₁ got hr

/-! ## Whoever executes has been restored -/

theorem action_runsInitialized {m m' : Machine n} {os : List (Obs n)} (h : Action m m' os)
    (hm : RunsInitialized m) : RunsInitialized m' := by
  intro j hj
  cases h with
  | quiet _ h =>
    rw [h.executing] at hj
    rw [h.vcpu]
    exact hm j hj
  | switch t _ _ h =>
    rw [h.executing] at hj
    rw [h.init, if_pos (Option.some.inj hj).symm]
  | raiseRunning => exact hm j hj
  | raiseSaved i line =>
    rw [raiseSaved_frame]
    exact hm j hj
  | refuse => exact hm j hj
  | enqueue self t =>
    rw [raiseSaved_frame, enqueue_frame]
    exact hm j hj

theorem step_runsInitialized {p : Params} {m m' : Machine n} {e : Event n} {os : List (Obs n)}
    (hm : RunsInitialized m) (h : step p m e = some (m', os)) : RunsInitialized m' := by
  cases step_cases hm h with
  | hypervisor _ _ _ hact =>
    exact hact.invariant (fun _ m => RunsInitialized m)
      (fun _ _ _ _ hm ha => action_runsInitialized ha hm) [] hm
  | writeCp0 => exact hm
  | takeInterrupt self hself mask _ _ htake =>
    have hsame := takeInterrupt_some htake
    intro i hi
    rw [hsame.executing] at hi
    rw [hsame.vcpu]
    exact hm i hi
  | irqNetwork self hself addr _ hnet =>
    obtain ⟨hexec, -, -, -, hvcpu⟩ := irqNetwork_frame hnet
    intro i hi
    rw [hexec] at hi
    rw [hvcpu]
    exact hm i hi
  | receiveMessage self hself bufsz block _ got hrecv =>
    obtain ⟨hexec, -, hvcpu, -, -⟩ := receiveMessage_frame hrecv
    intro i hi
    rw [hexec] at hi
    rw [hvcpu]
    exact hm i hi

/-! ## The VM table never changes -/

theorem action_vm {m m' : Machine n} {os : List (Obs n)} (h : Action m m' os) :
    m'.vm = m.vm := by
  cases h with
  | quiet _ h => exact h.vm
  | switch t _ _ h => exact h.vm
  | raiseRunning => rfl
  | raiseSaved => rfl
  | refuse => rfl
  | enqueue => rfl

theorem step_vm {m m' : Machine n} {e : Event n} {os : List (Obs n)} (h : StepCase m e m' os) :
    m'.vm = m.vm := by
  cases h with
  | hypervisor _ _ _ h =>
    exact h.invariant (fun _ m₁ => m₁.vm = m.vm)
      (fun _ _ _ _ hI ha => (action_vm ha).trans hI) [] rfl
  | writeCp0 => rfl
  | takeInterrupt self hself mask _ _ h => exact (takeInterrupt_some h).vm
  | irqNetwork self hself bufferAddr _ h => exact (irqNetwork_frame h).2.1
  | receiveMessage self hself bufsz block _ got h => exact (receiveMessage_frame h).2.1

/-! ## Runs -/

theorem runsInitialized_of_initial {m : Machine n} (h : m.Initial) : RunsInitialized m := by
  intro i hi
  rw [Machine.executing, h.scheduler] at hi
  cases hi

/-- An invariant of the machine proved for every case of a step holds after every
run from an initial state. -/
theorem Reaches.invariant {p : Params} {ok : Machine n → Event n → Prop} {m₀ m : Machine n}
    {tr : List (Obs n)} (I : List (Obs n) → Machine n → Prop) (h₀ : m₀.Initial)
    (hinit : I [] m₀)
    (hstep : ∀ tr m e m' os, RunsInitialized m → I tr m → ok m e → StepCase m e m' os →
      I (tr ++ os) m')
    (h : Reaches p ok m₀ tr m) : I tr m := by
  have hboth := Lts.Run.invariant (fun tr m => RunsInitialized m ∧ I tr m)
    ⟨runsInitialized_of_initial h₀, hinit⟩
    (fun tr m e m' os hI hok hs => ⟨step_runsInitialized hI.1 hs,
      hstep tr m e m' os hI.1 hI.2 hok (step_cases hI.1 hs)⟩) h
  exact hboth.2

theorem Reaches.vm {p : Params} {ok : Machine n → Event n → Prop} {m₀ m : Machine n}
    {tr : List (Obs n)} (h₀ : m₀.Initial) (h : Reaches p ok m₀ tr m) : m.vm = m₀.vm :=
  h.invariant (fun _ m => m.vm = m₀.vm) h₀ rfl
    fun _ _ _ _ _ _ hI _ hcase => (step_vm hcase).trans hI

end PrplHypervisor
