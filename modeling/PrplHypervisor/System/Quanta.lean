import PrplHypervisor.System.Dispatch

/-!
# Quanta and fast interrupts

A round-robin decision is due at every quantum boundary, when the tick count is a multiple
of `TICKS_BEFORE_SCHEDULING`. A fast switch that is pending at that tick takes its place,
and the correction meant to give the decision back never applies.

- `Ticked`: the machine with the calls of the scheduler since the last decision.
- `callsToQuantum`: the calls up to the next boundary, which also comes when the 32-bit
  tick count wraps.
- `QuantumKept`: a boundary is given up only where the next one is near enough.
- `round_robin_in_time`: then no `2 * ticks` calls in a row go by without a decision, and
  otherwise they do.
-/

namespace PrplHypervisor

open Machine Word32

variable {n : Nat}

/-- The machine and the scheduler calls since the last round-robin decision, or since
startup. -/
structure Ticked (n : Nat) where
  machine : Machine n
  since : Nat

/-- What can happen next; drivers may ask for any node. -/
inductive TickEvent (n : Nat) where
  | system (e : Event n)
  | delivery (target : Node n)

/-- A call of the scheduler would invoke round robin. -/
def DecisionDue (ticks : Nat) (m : Machine n) : Prop :=
  m.scheduler.nextVcpu = none ∧ m.scheduler.tickCount % ticks = 0

instance (ticks : Nat) (m : Machine n) : Decidable (DecisionDue ticks m) :=
  inferInstanceAs (Decidable (_ ∧ _))

/-- The count after an event; only timer interrupts call the scheduler. -/
def countCall (p : Params) (s : Ticked n) (e : Event n) : Nat :=
  if e.IsTimer then if DecisionDue p.ticks s.machine then 0 else s.since + 1 else s.since

theorem countCall_due {p : Params} {s : Ticked n} {e : Event n} (he : e.IsTimer)
    (hdue : DecisionDue p.ticks s.machine) : countCall p s e = 0 := by
  rw [countCall, if_pos he, if_pos hdue]

theorem countCall_notDue {p : Params} {s : Ticked n} {e : Event n} (he : e.IsTimer)
    (hnot : ¬ DecisionDue p.ticks s.machine) : countCall p s e = s.since + 1 := by
  rw [countCall, if_pos he, if_neg hnot]

def tickStep (p : Params) (s : Ticked n) : TickEvent n → Option (Ticked n × List (Obs n))
  | .system e => (step p s.machine e).map fun r => (⟨r.1, countCall p s e⟩, r.2)
  | .delivery target => some (⟨fastInterruptDelivery s.machine target, s.since⟩, [])

/-! ## Distance to the next boundary -/

/-- Calls of the scheduler before the one at the next quantum boundary. -/
def callsToQuantum (ticks tick : Nat) : Nat :=
  if tick % ticks = 0 then 0 else min (ticks - tick % ticks) (2 ^ 32 - tick)

theorem callsToQuantum_lt {ticks : Nat} (hticks : 0 < ticks) (tick : Nat) :
    callsToQuantum ticks tick < ticks := by
  unfold callsToQuantum
  split
  · exact hticks
  · have hmod := Nat.mod_lt tick hticks
    omega

/-- Off a boundary every call brings the next one nearer. -/
theorem callsToQuantum_succ {ticks tick : Nat} (hticks : 0 < ticks) (hlt : tick < 2 ^ 32)
    (hoff : tick % ticks ≠ 0) :
    callsToQuantum ticks tick = callsToQuantum ticks (add32 tick 1) + 1 := by
  have hmod := Nat.mod_lt tick hticks
  have hsucc : (tick + 1) % ticks = (tick % ticks + 1) % ticks := (Nat.mod_add_mod ..).symm
  unfold callsToQuantum add32 u32
  rw [if_neg hoff]
  by_cases hwrap : tick + 1 = 2 ^ 32
  · -- the count wraps to 0, a boundary
    rw [hwrap, Nat.mod_self, Nat.zero_mod, if_pos rfl]
    omega
  · rw [Nat.mod_eq_of_lt (show tick + 1 < 2 ^ 32 by omega), hsucc]
    by_cases hend : tick % ticks + 1 = ticks
    · rw [hend, Nat.mod_self, if_pos rfl]
      omega
    · rw [Nat.mod_eq_of_lt (show tick % ticks + 1 < ticks by omega), if_neg (Nat.succ_ne_zero _)]
      omega

/-! ## What an event does to the count -/

/-- The tick count and the calls since the last decision after an event. -/
inductive TickCase (ticks : Nat) (s s' : Ticked n) : TickEvent n → Prop
  | other (e : TickEvent n) (he : ∀ epc now later, e ≠ .system (.timer epc now later))
      (htick : s'.machine.scheduler.tickCount = s.machine.scheduler.tickCount)
      (hsince : s'.since = s.since) : TickCase ticks s s' e
  | decision (e : TickEvent n) (hdue : DecisionDue ticks s.machine)
      (htick : s'.machine.scheduler.tickCount = add32 s.machine.scheduler.tickCount 1)
      (hsince : s'.since = 0) : TickCase ticks s s' e
  | call (epc : Word) (now later : Nat) (hnot : ¬ DecisionDue ticks s.machine)
      (htick : s'.machine.scheduler.tickCount = add32 s.machine.scheduler.tickCount 1)
      (hsince : s'.since = s.since + 1) : TickCase ticks s s' (.system (.timer epc now later))

theorem fastInterruptDelivery_tickCount (m : Machine n) (target : Node n) :
    (fastInterruptDelivery m target).scheduler.tickCount = m.scheduler.tickCount := by
  unfold fastInterruptDelivery
  split <;> rfl

theorem tickStep_cases {p : Params} (hticks : 0 < p.ticks) {s s' : Ticked n} {e : TickEvent n}
    {os : List (Obs n)} (h : tickStep p s e = some (s', os)) : TickCase p.ticks s s' e := by
  cases e with
  | delivery target =>
    obtain ⟨rfl, -⟩ := Prod.mk.inj (Option.some.inj h)
    exact .other _ (fun _ _ _ h => by cases h) (fastInterruptDelivery_tickCount _ _) rfl
  | system e =>
    obtain ⟨⟨m', os'⟩, hstep, heq⟩ := Option.map_eq_some_iff.mp h
    obtain ⟨rfl, -⟩ := Prod.mk.inj heq
    have hcase := step_scheduler hstep
    generalize hsched : m'.scheduler = sched at hcase
    cases hcase with
    | timer epc now later hcall =>
      -- every call of the scheduler counts one tick
      have htick : m'.scheduler.tickCount = add32 s.machine.scheduler.tickCount 1 := by
        rw [hsched]
        cases hcall with
        | fast nd hnext tick htick => exact htick hticks
        | roundRobin => rfl
        | count => rfl
      have htimer : (Event.timer epc now later : Event n).IsTimer := trivial
      by_cases hdue : DecisionDue p.ticks s.machine
      · exact .decision _ hdue htick (countCall_due htimer hdue)
      · exact .call epc now later hdue htick (countCall_notDue htimer hdue)
    | fastInterrupt i =>
      refine .other _ (fun _ _ _ h => by cases h) ?_ rfl
      show m'.scheduler.tickCount = _
      rw [hsched]
      exact fastInterruptDelivery_tickCount _ _
    | other _ he =>
      refine .other _ (fun _ _ _ h => ?_) ?_ (if_neg he)
      · cases h
        exact he trivial
      · show m'.scheduler.tickCount = _
        rw [hsched]

/-! ## Runs -/

/-- A pending fast switch takes a quantum boundary only where the next boundary is reached
in time. -/
def QuantumKept (p : Params) (s : Ticked n) : TickEvent n → Prop
  | .system (.timer ..) =>
    s.machine.scheduler.nextVcpu ≠ none → s.machine.scheduler.tickCount % p.ticks = 0 →
      s.since + 1 + callsToQuantum p.ticks (add32 s.machine.scheduler.tickCount 1) < 2 * p.ticks
  | _ => True

/-- The next boundary is reached before `2 * ticks` calls. -/
structure InTime (ticks : Nat) (s : Ticked n) : Prop where
  lt : s.machine.scheduler.tickCount < 2 ^ 32
  since : s.since + callsToQuantum ticks s.machine.scheduler.tickCount < 2 * ticks

theorem InTime.step {p : Params} (hticks : 0 < p.ticks) {s s' : Ticked n} {e : TickEvent n}
    {os : List (Obs n)} (hs : InTime p.ticks s) (hok : QuantumKept p s e)
    (h : tickStep p s e = some (s', os)) : InTime p.ticks s' := by
  obtain ⟨hlt, hsince⟩ := hs
  cases tickStep_cases hticks h with
  | other _ _ htick hsame =>
    rw [← htick] at hlt hsince
    rw [← hsame] at hsince
    exact ⟨hlt, hsince⟩
  | decision _ _ htick hzero =>
    have hnear := callsToQuantum_lt hticks s'.machine.scheduler.tickCount
    exact ⟨htick ▸ u32_lt _, by omega⟩
  | call epc now later hnot htick hsucc =>
    refine ⟨htick ▸ u32_lt _, ?_⟩
    rw [hsucc, htick]
    by_cases hquantum : s.machine.scheduler.tickCount % p.ticks = 0
    · -- the boundary goes to a fast switch
      exact hok (fun hnext => hnot ⟨hnext, hquantum⟩) hquantum
    · have hnear := callsToQuantum_succ hticks hlt hquantum
      omega

/-- The next boundary is `2 * ticks` calls or more after the last decision. -/
structure Late (ticks : Nat) (s : Ticked n) : Prop where
  lt : s.machine.scheduler.tickCount < 2 ^ 32
  since : 2 * ticks ≤ s.since + callsToQuantum ticks s.machine.scheduler.tickCount

/-- Before the boundary nothing can change that. -/
theorem Late.step {p : Params} (hticks : 0 < p.ticks) {s s' : Ticked n} {e : TickEvent n}
    {os : List (Obs n)} (hs : Late p.ticks s)
    (hoff : s.machine.scheduler.tickCount % p.ticks ≠ 0)
    (h : tickStep p s e = some (s', os)) : Late p.ticks s' := by
  obtain ⟨hlt, hsince⟩ := hs
  cases tickStep_cases hticks h with
  | other _ _ htick hsame =>
    rw [← htick] at hlt hsince
    rw [← hsame] at hsince
    exact ⟨hlt, hsince⟩
  | decision _ hdue => exact absurd hdue.2 hoff
  | call epc now later hnot htick hsucc =>
    have hnear := callsToQuantum_succ hticks hlt hoff
    refine ⟨htick ▸ u32_lt _, ?_⟩
    rw [hsucc, htick]
    omega

/-- The condition fails only at a boundary that goes to a fast switch. -/
theorem timer_of_not_kept {p : Params} {s : Ticked n} {e : TickEvent n}
    (hlost : ¬ QuantumKept p s e) : (∃ epc now later, e = .system (.timer epc now later)) ∧
      s.machine.scheduler.nextVcpu ≠ none ∧ 2 * p.ticks ≤
        s.since + 1 + callsToQuantum p.ticks (add32 s.machine.scheduler.tickCount 1) := by
  unfold QuantumKept at hlost
  split at hlost
  case h_1 epc now later =>
    obtain ⟨hnext, hquantum, hfar⟩ : _ ∧ _ ∧ ¬ _ := by
      simpa only [Classical.not_imp] using hlost
    exact ⟨⟨epc, now, later, rfl⟩, hnext, Nat.not_lt.mp hfar⟩
  case h_2 => exact absurd trivial hlost

/-- Such a boundary makes the next one late. -/
theorem late_of_not_kept {p : Params} (hticks : 0 < p.ticks) {s s' : Ticked n} {e : TickEvent n}
    {os : List (Obs n)} (hlost : ¬ QuantumKept p s e) (h : tickStep p s e = some (s', os)) :
    Late p.ticks s' := by
  obtain ⟨⟨epc, now, later, rfl⟩, hnext, hfar⟩ := timer_of_not_kept hlost
  cases tickStep_cases hticks h with
  | other _ he => exact absurd rfl (he epc now later)
  | decision _ hdue => exact absurd hdue.1 hnext
  | call _ _ _ hnot htick hsucc =>
    refine ⟨htick ▸ u32_lt _, ?_⟩
    rw [hsucc, htick]
    exact hfar

/-- **Fast interrupts and round robin.** If a pending fast switch takes a quantum boundary
only where the next one is reached in time, there is a decision in any `2 * ticks` calls of
the scheduler. A boundary given up otherwise is followed by as many calls without one. -/
theorem round_robin_in_time {p : Params} (hticks : 2 ≤ p.ticks) {m₀ : Machine n}
    (hinit : m₀.Initial) :
    (∀ tr s, Lts.Run (tickStep p) (QuantumKept p) ⟨m₀, 0⟩ tr s → s.since < 2 * p.ticks) ∧
    ∀ (s s₁ s₂ : Ticked n) (e : TickEvent n) (os tr : List (Obs n)),
      ¬ QuantumKept p s e → tickStep p s e = some (s₁, os) →
      Lts.Run (tickStep p) (fun s _ => s.machine.scheduler.tickCount % p.ticks ≠ 0) s₁ tr s₂ →
      s₂.machine.scheduler.tickCount % p.ticks = 0 → 2 * p.ticks ≤ s₂.since := by
  have hpos : 0 < p.ticks := by omega
  have hzero : m₀.scheduler.tickCount = 0 := by rw [hinit.scheduler]
  constructor
  · intro tr s hrun
    -- the calls so far and those up to the next boundary stay below the bound
    have hin : InTime p.ticks s := by
      refine hrun.invariant (fun _ s => InTime p.ticks s) ⟨?_, ?_⟩
        fun _ _ _ _ _ hs hok hstep => hs.step hpos hok hstep
      · show m₀.scheduler.tickCount < 2 ^ 32
        rw [hzero]
        decide
      · have hnear := callsToQuantum_lt hpos m₀.scheduler.tickCount
        show 0 + callsToQuantum p.ticks m₀.scheduler.tickCount < 2 * p.ticks
        omega
    exact Nat.lt_of_le_of_lt (Nat.le_add_right ..) hin.since
  · intro s s₁ s₂ e os tr hlost hstep hrest hquantum
    -- from the lost boundary on the sum is too large already
    have hlate : Late p.ticks s₂ := by
      refine hrest.invariant (fun _ s => Late p.ticks s) (late_of_not_kept hpos hlost hstep)
        fun _ _ _ _ _ hs hoff hstep => hs.step hpos hoff hstep
    have hsince := hlate.since
    rwa [callsToQuantum, if_pos hquantum, Nat.add_zero] at hsince

instance (p : Params) : DecidableRel (QuantumKept (n := n) p)
  | _, .system (.timer ..) => inferInstanceAs (Decidable (_ → _ → _))
  | _, .delivery _ | _, .system (.fastInterrupt _) | _, .system (.deviceInterrupt _)
  | _, .system .injection | _, .system (.takeInterrupt _) | _, .system (.sendMsg ..)
  | _, .system (.writeCp0 ..) | _, .system (.irqNetwork _) | _, .system (.receiveMessage ..) =>
    .isTrue trivial

/-- Quanta of two ticks, every second of which goes to a fast switch. -/
theorem round_robin_in_time_pingPong :
    ∃ tr s, Lts.Run (tickStep ⟨2, 30000⟩) (QuantumKept ⟨2, 30000⟩) ⟨pingPongMachine, 0⟩ tr s ∧
      s.since = 3 ∧ s.since < 2 * 2 := by
  have hrun := Lts.exec_run (show (Lts.exec (tickStep ⟨2, 30000⟩) (QuantumKept ⟨2, 30000⟩)
    ⟨pingPongMachine, 0⟩ [.system (.timer 0 0 0), .system (.timer 0 0 0), .delivery (.own 1),
      .system (.timer 0 0 0), .system (.timer 0 0 0)]).isSome = true by decide)
  exact ⟨_, _, hrun, by decide,
    (round_robin_in_time (by decide) pingPongMachine_initial).1 _ _ hrun⟩

/-- Two boundaries in a row go to fast switches. -/
theorem quanta_lost_pingPong :
    ∃ tr s, Lts.Run (tickStep ⟨2, 30000⟩) Lts.anyEvent ⟨pingPongMachine, 0⟩ tr s ∧
      ¬ s.since < 2 * 2 := by
  have hrun := Lts.exec_run (show (Lts.exec (tickStep ⟨2, 30000⟩) Lts.anyEvent
    ⟨pingPongMachine, 0⟩ [.system (.timer 0 0 0), .system (.timer 0 0 0), .delivery (.own 1),
      .system (.timer 0 0 0), .system (.timer 0 0 0), .delivery (.own 0),
      .system (.timer 0 0 0)]).isSome = true by decide)
  exact ⟨_, _, hrun, by decide⟩

end PrplHypervisor
