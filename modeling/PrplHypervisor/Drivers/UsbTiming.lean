import PrplHypervisor.Drivers.UsbHost

/-!
# The phases of bringing a device up (drivers/pic32mz-usb.c)

After a connect interrupt the driver waits for the device to settle, resets the bus and
waits again. Each phase ends at the first poll that finds enough time gone since
`wait_debounce`, read off the 32-bit Count register; the phase of the reset starts without
setting it.

- `TimedHost`, `timedStep`: polls at any distances, with time that does not wrap.
- `Stay.Respected`: a phase has lasted as long as it has to.
- `ResetHeld`: a poll that ends the reset comes late enough.
- `usb_phases`: then every phase lasts long enough, and otherwise the reset does not.
-/

namespace PrplHypervisor

open Word32

/-- The driver at time `time`, in ticks of Count since it was last 0. It has been in its
state since `since`. -/
structure TimedHost where
  host : UsbHost
  time : Nat
  since : Nat

/-- A poll, so long after the last one. The second read of Count comes a little later. -/
structure TimedPoll where
  wait : Nat
  lag : Nat
  readings : UsbReadings

/-- A state that has been left, and how long the driver was in it. -/
structure Stay where
  state : UsbDeviceState
  ticks : Nat
  deriving Repr, DecidableEq

namespace TimedHost

/-- When a poll reads Count. -/
def pollTime (s : TimedHost) (e : TimedPoll) : Nat := s.time + e.wait

/-- What a poll without overcurrent reads. -/
def readings (s : TimedHost) (e : TimedPoll) : UsbReadings :=
  { e.readings with
    now := u32 (s.pollTime e)
    later := u32 (s.pollTime e + e.lag)
    overcurrent := false }

/-- One poll. -/
def timedStep (s : TimedHost) (e : TimedPoll) : Option (TimedHost × List Stay) :=
  let host := (s.host.usbPolling (s.readings e)).1
  if host.state = s.host.state then some (⟨host, s.pollTime e + e.lag, s.since⟩, [])
  else some (⟨host, s.pollTime e + e.lag, s.pollTime e⟩, [⟨s.host.state, s.pollTime e - s.since⟩])

/-- The driver after a connect interrupt at time `t`. -/
def connectedAt (s : UsbHost) (t : Nat) (ep0if : Bool) : TimedHost :=
  ⟨s.usbIntHandler ⟨true, false, false, ep0if, u32 t⟩, t, t⟩

end TimedHost

/-- How long each phase has to last. -/
def minimumTicks : UsbDeviceState → Nat
  | .debounce => debounceMs * milisecond
  | .usbReset => resetMs * milisecond
  | .afterResetDelay => postResetDelayMs * milisecond
  | _ => 0

def Stay.Respected (o : Stay) : Prop := minimumTicks o.state ≤ o.ticks

instance : DecidablePred Stay.Respected := fun o => inferInstanceAs (Decidable (_ ≤ o.ticks))

/-- A poll during the reset finds Count no more than `RESET_MS` past the connect interrupt,
so that the reset goes on, or it comes `RESET_MS` after the poll that has begun the reset. -/
def ResetHeld (s : TimedHost) (e : TimedPoll) : Prop :=
  s.host.state = .usbReset →
    calcWaitTime s.host.waitDebounce resetMs (u32 (s.pollTime e)) = false ∨
      resetMs * milisecond ≤ s.pollTime e - s.since

instance : DecidableRel ResetHeld := fun s e => inferInstanceAs (Decidable
  (s.host.state = .usbReset →
    calcWaitTime s.host.waitDebounce resetMs (u32 (s.pollTime e)) = false ∨
      resetMs * milisecond ≤ s.pollTime e - s.since))

/-! ## What a poll does -/

/-- Count tells no more time than has passed. -/
theorem sub32_u32_le {start now : Nat} (h : start ≤ now) :
    sub32 (u32 now) (u32 start) ≤ now - start := by
  unfold sub32 u32
  omega

/-- A phase that ends has lasted at least since `wait_debounce` was read. -/
theorem lasted_of_calcWaitTime {start now ms : Nat} (h : start ≤ now)
    (hwait : calcWaitTime (u32 start) ms (u32 now) = true) : ms * milisecond ≤ now - start := by
  have hlong : sub32 (u32 now) (u32 start) > ms * milisecond := of_decide_eq_true hwait
  have hle := sub32_u32_le h
  omega

/-- Where the driver is after the interrupt, as far as the phases go: the phase and what
`wait_debounce` tells about it. -/
structure Phased (s : TimedHost) : Prop where
  since : s.since ≤ s.time
  debounce : s.host.state = .debounce → s.host.waitDebounce = u32 s.since
  afterReset : s.host.state = .afterResetDelay →
    ∃ start, s.since ≤ start ∧ start ≤ s.time ∧ s.host.waitDebounce = u32 start

namespace UsbHost

variable {s : UsbHost} {r : UsbReadings}

/-- Without overcurrent a poll only moves one of the machines. -/
theorem usbPolling_eq_advance (hover : r.overcurrent = false) (hrun : s.state ≠ .running) :
    (s.usbPolling r).1 = (s.advance r).1 := by
  unfold usbPolling updateStateMachine
  rw [if_neg hrun, hover]
  rfl

/-- The three phases begin with an interrupt. -/
theorem usbPolling_state_other (hover : r.overcurrent = false) (hd : s.state ≠ .debounce)
    (hr : s.state ≠ .usbReset) (ha : s.state ≠ .afterResetDelay) :
    (s.usbPolling r).1.state ≠ .debounce ∧ (s.usbPolling r).1.state ≠ .afterResetDelay := by
  by_cases hrun : s.state = .running
  · have hsame : (s.usbPolling r).1.state = s.state := by
      unfold usbPolling
      rw [if_pos hrun]
      exact updateTransferStateMachine_frame.2.1
    rw [hsame]
    exact ⟨hd, ha⟩
  · rw [usbPolling_eq_advance hover hrun]
    unfold advance
    cases hstate : s.state with
    | debounce => exact absurd hstate hd
    | usbReset => exact absurd hstate hr
    | afterResetDelay => exact absurd hstate ha
    | running => exact absurd hstate hrun
    | readDescriptor =>
      dsimp only
      split <;> simp
    | waitDescriptor =>
      dsimp only
      split
      · split <;> simp
      · simp [hstate]
    | requestDescriptor | waitTxInt | handshake | idle | vbusError | generalError => simp [hstate]

end UsbHost

section Step

variable {s s' : TimedHost} {e : TimedPoll} {os : List Stay}

open TimedHost

/-- A poll that leaves the driver in its state. -/
theorem timedStep_stays (hsame : (s.host.usbPolling (s.readings e)).1 = s.host)
    (h : timedStep s e = some (s', os)) :
    os = [] ∧ s' = ⟨s.host, s.pollTime e + e.lag, s.since⟩ := by
  rw [timedStep, hsame, if_pos rfl] at h
  obtain ⟨rfl, rfl⟩ := Prod.mk.inj (Option.some.inj h)
  exact ⟨rfl, rfl⟩

/-- A poll that ends the state. -/
theorem timedStep_leaves {host : UsbHost} (hhost : (s.host.usbPolling (s.readings e)).1 = host)
    (hne : host.state ≠ s.host.state) (h : timedStep s e = some (s', os)) :
    os = [⟨s.host.state, s.pollTime e - s.since⟩] ∧
      s' = ⟨host, s.pollTime e + e.lag, s.pollTime e⟩ := by
  rw [timedStep, hhost, if_neg hne] at h
  obtain ⟨rfl, rfl⟩ := Prod.mk.inj (Option.some.inj h)
  exact ⟨rfl, rfl⟩

theorem Phased.later (hs : Phased s) : Phased ⟨s.host, s.pollTime e + e.lag, s.since⟩ := by
  have hle : s.time ≤ s.pollTime e + e.lag := by
    unfold pollTime
    omega
  constructor
  case since => exact Nat.le_trans hs.since hle
  case debounce => exact hs.debounce
  case afterReset =>
    intro hstate
    obtain ⟨start, hsince, htime, hwait⟩ := hs.afterReset hstate
    exact ⟨start, hsince, Nat.le_trans htime hle, hwait⟩

/-- The next state is none of those with a promise about `wait_debounce`. -/
theorem phased_of_other {host : UsbHost} {time since : Nat} (hle : since ≤ time)
    (hd : host.state ≠ .debounce) (ha : host.state ≠ .afterResetDelay) :
    Phased ⟨host, time, since⟩ :=
  ⟨hle, fun h => absurd h hd, fun h => absurd h ha⟩

/-- A phase whose start is in `wait_debounce` lasts long enough. -/
theorem phase_step {ms start : Nat} {host : UsbHost} (hs : Phased s) (hsince : s.since ≤ start)
    (htime : start ≤ s.time) (hstart : s.host.waitDebounce = u32 start)
    (hmin : minimumTicks s.host.state = ms * milisecond)
    (hpoll : (s.host.usbPolling (s.readings e)).1 =
      if calcWaitTime s.host.waitDebounce ms (u32 (s.pollTime e)) then host else s.host)
    (hne : host.state ≠ s.host.state) (hd : host.state ≠ .debounce)
    (ha : host.state ≠ .afterResetDelay) (h : timedStep s e = some (s', os)) :
    Phased s' ∧ ∀ o ∈ os, o.Respected := by
  have hlater : start ≤ s.pollTime e := Nat.le_trans htime (Nat.le_add_right ..)
  split at hpoll
  case isTrue hwait =>
    obtain ⟨rfl, rfl⟩ := timedStep_leaves hpoll hne h
    refine ⟨phased_of_other (Nat.le_add_right ..) hd ha, fun o ho => ?_⟩
    obtain rfl := List.mem_singleton.mp ho
    rw [hstart] at hwait
    rw [Stay.Respected, hmin]
    exact Nat.le_trans (lasted_of_calcWaitTime hlater hwait) (Nat.sub_le_sub_left hsince _)
  case isFalse =>
    obtain ⟨rfl, rfl⟩ := timedStep_stays hpoll h
    exact ⟨hs.later, fun o ho => absurd ho List.not_mem_nil⟩

theorem debounce_step (hs : Phased s) (hstate : s.host.state = .debounce)
    (h : timedStep s e = some (s', os)) : Phased s' ∧ ∀ o ∈ os, o.Respected := by
  have hadv := UsbHost.usbPolling_eq_advance (r := s.readings e) rfl
    (show s.host.state ≠ .running by rw [hstate]; decide)
  have hhost : (s.host.advance (s.readings e)).1 =
      if calcWaitTime s.host.waitDebounce debounceMs (u32 (s.pollTime e)) then
        { s.host with state := .usbReset } else s.host := by
    cases hwait : calcWaitTime s.host.waitDebounce debounceMs (u32 (s.pollTime e)) <;>
      simp only [UsbHost.advance, hstate, readings, hwait, Bool.false_eq_true, if_false, if_true]
  refine phase_step hs (Nat.le_refl _) hs.since (hs.debounce hstate) ?_ (hadv.trans hhost) ?_
    UsbDeviceState.noConfusion UsbDeviceState.noConfusion h
  · rw [hstate]
    rfl
  · rw [hstate]
    exact UsbDeviceState.noConfusion

/-- The reset is the phase whose start is not in `wait_debounce`. -/
theorem usbReset_step (hs : Phased s) (hstate : s.host.state = .usbReset)
    (h : timedStep s e = some (s', os)) :
    Phased s' ∧ ((∀ o ∈ os, o.Respected) ↔ ResetHeld s e) := by
  have hadv := UsbHost.usbPolling_eq_advance (r := s.readings e) rfl
    (show s.host.state ≠ .running by rw [hstate]; decide)
  cases hwait : calcWaitTime s.host.waitDebounce resetMs (u32 (s.pollTime e)) with
  | true =>
    obtain ⟨host, hhost, hnext, hstart⟩ : ∃ host, (s.host.advance (s.readings e)).1 = host ∧
        host.state = .afterResetDelay ∧ host.waitDebounce = u32 (s.pollTime e + e.lag) := by
      refine ⟨_, rfl, ?_, ?_⟩ <;>
        simp only [UsbHost.advance, hstate, readings, hwait, if_true]
    obtain ⟨rfl, rfl⟩ := timedStep_leaves (hadv.trans hhost) (by rw [hnext, hstate]; decide) h
    constructor
    · refine ⟨Nat.le_add_right .., fun h => ?_, fun _ => ?_⟩
      · rw [hnext] at h
        cases h
      · exact ⟨_, Nat.le_add_right .., Nat.le_refl _, hstart⟩
    · rw [ResetHeld, hwait, hstate]
      simp only [List.mem_singleton, forall_eq, Stay.Respected, minimumTicks, Bool.true_eq_false,
        false_or, forall_const]
  | false =>
    have hhost : (s.host.advance (s.readings e)).1 = s.host := by
      simp only [UsbHost.advance, hstate, readings, hwait, Bool.false_eq_true, if_false]
    obtain ⟨rfl, rfl⟩ := timedStep_stays (hadv.trans hhost) h
    exact ⟨hs.later, fun _ _ => Or.inl hwait, fun _ o ho => absurd ho List.not_mem_nil⟩

theorem afterResetDelay_step (hs : Phased s) (hstate : s.host.state = .afterResetDelay)
    (h : timedStep s e = some (s', os)) : Phased s' ∧ ∀ o ∈ os, o.Respected := by
  have hadv := UsbHost.usbPolling_eq_advance (r := s.readings e) rfl
    (show s.host.state ≠ .running by rw [hstate]; decide)
  have hhost : (s.host.advance (s.readings e)).1 =
      if calcWaitTime s.host.waitDebounce postResetDelayMs (u32 (s.pollTime e)) then
        { s.host with state := .requestDescriptor } else s.host := by
    cases hwait : calcWaitTime s.host.waitDebounce postResetDelayMs (u32 (s.pollTime e)) <;>
      simp only [UsbHost.advance, hstate, readings, hwait, Bool.false_eq_true, if_false, if_true]
  obtain ⟨start, hsince, htime, hstart⟩ := hs.afterReset hstate
  refine phase_step hs hsince htime hstart ?_ (hadv.trans hhost) ?_ UsbDeviceState.noConfusion
    UsbDeviceState.noConfusion h
  · rw [hstate]
    rfl
  · rw [hstate]
    exact UsbDeviceState.noConfusion

/-- No other state has to last. -/
theorem other_step (hs : Phased s) (hd : s.host.state ≠ .debounce)
    (hr : s.host.state ≠ .usbReset) (ha : s.host.state ≠ .afterResetDelay)
    (h : timedStep s e = some (s', os)) : Phased s' ∧ ∀ o ∈ os, o.Respected := by
  obtain ⟨hd', ha'⟩ := UsbHost.usbPolling_state_other (r := s.readings e) rfl hd hr ha
  have hle : s.since ≤ s.pollTime e + e.lag :=
    Nat.le_trans hs.since (Nat.le_trans (Nat.le_add_right ..) (Nat.le_add_right ..))
  unfold timedStep at h
  dsimp only at h
  split at h
  case isTrue =>
    obtain ⟨rfl, rfl⟩ := Prod.mk.inj (Option.some.inj h)
    exact ⟨phased_of_other hle hd' ha', fun o ho => absurd ho List.not_mem_nil⟩
  case isFalse =>
    obtain ⟨rfl, rfl⟩ := Prod.mk.inj (Option.some.inj h)
    refine ⟨phased_of_other (Nat.le_add_right ..) hd' ha', fun o ho => ?_⟩
    obtain rfl := List.mem_singleton.mp ho
    have hzero : minimumTicks s.host.state = 0 := by
      unfold minimumTicks
      split <;> simp_all
    rw [Stay.Respected, hzero]
    exact Nat.zero_le _

/-- A poll keeps what is known about the phase, and the phase it ends has lasted long
enough exactly if it does not cut the reset short. -/
theorem timedStep_spec (hs : Phased s) (h : timedStep s e = some (s', os)) :
    Phased s' ∧ ((∀ o ∈ os, o.Respected) ↔ ResetHeld s e) := by
  by_cases hr : s.host.state = .usbReset
  · exact usbReset_step hs hr h
  · have hheld : ResetHeld s e := fun hreset => absurd hreset hr
    have hkeeps : Phased s' ∧ ∀ o ∈ os, o.Respected := by
      by_cases hd : s.host.state = .debounce
      · exact debounce_step hs hd h
      · by_cases ha : s.host.state = .afterResetDelay
        · exact afterResetDelay_step hs ha h
        · exact other_step hs hd hr ha h
    exact ⟨hkeeps.1, fun _ => hheld, fun _ => hkeeps.2⟩

end Step

/-- **Phases of bringing a device up.** After a connect interrupt, whatever the driver was
doing, every phase that ends in a run of polls has lasted as long as it has to, if no poll
cuts the reset short; and from there the phase that a poll ends has exactly if it does not. -/
theorem usb_phases (s₀ : UsbHost) (t : Nat) (ep0if : Bool) {tr : List Stay} {s : TimedHost}
    (hrun : Lts.Run TimedHost.timedStep ResetHeld (TimedHost.connectedAt s₀ t ep0if) tr s) :
    (∀ o ∈ tr, o.Respected) ∧ ∀ e s' os, s.timedStep e = some (s', os) →
      ((∀ o ∈ os, o.Respected) ↔ ResetHeld s e) := by
  have hinit : Phased (TimedHost.connectedAt s₀ t ep0if) := by
    have hconn : (TimedHost.connectedAt s₀ t ep0if).host.state = .debounce ∧
        (TimedHost.connectedAt s₀ t ep0if).host.waitDebounce = u32 t := by
      set f : UsbFlags := ⟨true, false, false, ep0if, u32 t⟩
      show ((s₀.onConnect f).onEndpoint0 f).state = _ ∧
        ((s₀.onConnect f).onEndpoint0 f).waitDebounce = _
      rcases UsbHost.onEndpoint0_cases (s := s₀.onConnect f) (f := f) with
        h | ⟨hwaits, -⟩ | ⟨hwaits, -⟩ | ⟨-, h⟩
      · rw [h]
        exact ⟨rfl, rfl⟩
      · cases hwaits
      · cases hwaits
      · rw [h]
        exact ⟨rfl, rfl⟩
    refine ⟨Nat.le_refl t, fun _ => hconn.2, fun h => ?_⟩
    rw [hconn.1] at h
    cases h
  obtain ⟨hphased, hall⟩ : Phased s ∧ ∀ o ∈ tr, o.Respected := by
    refine hrun.invariant (fun tr s => Phased s ∧ ∀ o ∈ tr, o.Respected)
      ⟨hinit, fun o ho => absurd ho List.not_mem_nil⟩ fun _ _ _ _ _ ⟨hs, hall⟩ hok hstep => ?_
    obtain ⟨hs', hiff⟩ := timedStep_spec hs hstep
    exact ⟨hs', fun o ho => (List.mem_append.mp ho).elim (hall o) (hiff.mpr hok o)⟩
  exact ⟨hall, fun _ _ _ hstep => (timedStep_spec hphased hstep).2⟩

/-- A poll after `wait` ticks that finds a full-speed device. -/
def pollAfter (wait : Nat) : TimedPoll :=
  ⟨wait, 0, ⟨0, 0, true, false, false, false, true, ⟨0, by decide⟩, fun _ => 0⟩⟩

/-- With a poll every hundred milliseconds, as the driver asks for, the reset begins at the
sixth and lasts until the seventh. -/
theorem usb_phases_polled : ∃ tr s,
    Lts.Run TimedHost.timedStep ResetHeld (TimedHost.connectedAt .start 0 false) tr s ∧
    tr = [⟨.debounce, 60000000⟩, ⟨.usbReset, 10000000⟩] ∧ ∀ o ∈ tr, o.Respected := by
  have hrun := Lts.exec_run (show (Lts.exec TimedHost.timedStep ResetHeld
    (TimedHost.connectedAt .start 0 false) (List.replicate 7 (pollAfter 10000000))).isSome = true
    by decide +kernel)
  exact ⟨_, _, hrun, by decide +kernel, (usb_phases .start 0 false hrun).1⟩

/-- Two polls in a row: the reset lasts a single tick. -/
theorem reset_cut_short : ∃ tr s,
    Lts.Run TimedHost.timedStep Lts.anyEvent (TimedHost.connectedAt .start 0 false) tr s ∧
    ¬ ∀ o ∈ tr, o.Respected := by
  have hrun := Lts.exec_run (show (Lts.exec TimedHost.timedStep Lts.anyEvent
    (TimedHost.connectedAt .start 0 false) [pollAfter 60000000, pollAfter 1]).isSome = true
    by decide +kernel)
  exact ⟨_, _, hrun, by decide +kernel⟩

end PrplHypervisor
