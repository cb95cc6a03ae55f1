import PrplHypervisor.System.Quanta

/-!
# Fast interrupts and the VCPU in execution

A fast interrupt for the running VCPU ought to change nothing, and the target of a fast
switch ought to keep the processor at the next tick. The code compares list nodes, and a
VCPU has two; and it tests for the last tick of a period after the remainder has been taken.

- `Switch`, `switchStep`: the kinds of context switches a run makes.
- `LastPlaced`: which node the last switch has put in execution.
- `running_target_unchanged`: a fast interrupt for the running VCPU changes nothing exactly if
  a fast switch has put it in execution, or its own is pending.
- `fast_target_keeps_processor`: the target of a fast switch keeps the processor exactly if
  the next tick is no quantum boundary, or it is its turn.
-/

namespace PrplHypervisor

open Machine Word32 Genconf

variable {n : Nat}

/-! ## A fast interrupt for the running VCPU -/

/-- What has put a VCPU in execution. -/
inductive Switch where
  | fast
  | roundRobin
  deriving Repr, DecidableEq

/-- The switch a timer interrupt makes. -/
def switchMade (ticks : Nat) (m : Machine n) : List Switch :=
  if m.scheduler.nextVcpu.isSome then [.fast]
  else if m.scheduler.tickCount % ticks = 0 then [.roundRobin]
  else []

/-- One event, showing the switch it makes. -/
def switchStep (p : Params) (m : Machine n) (e : Event n) : Option (Machine n × List Switch) :=
  (step p m e).map fun r => (r.1, if e.IsTimer then switchMade p.ticks m else [])

/-- The node that the last switch has put in execution. -/
inductive PlacedBy : Option Switch → Option (Node n) → Prop
  | idle : PlacedBy none none
  | fast (i : Fin n) : PlacedBy (some .fast) (some (.own i))
  | roundRobin (i : Fin n) : PlacedBy (some .roundRobin) (some (.ready i))

/-- Fast switches go to the VMs' own lists, decisions to the ready list. -/
structure LastPlaced (switches : List Switch) (m : Machine n) : Prop where
  executing : PlacedBy switches.getLast? m.scheduler.vcpuExecutingNd
  next : ∀ nd, m.scheduler.nextVcpu = some nd → ∃ i, nd = .own i
  last : ∀ nd, m.scheduler.lastScheduled = some nd → ∃ i, nd = .ready i

/-- Round robin stays in the ready list. -/
theorem roundRobinScheduler_ready {m : Machine n}
    (hlast : ∀ nd, m.scheduler.lastScheduled = some nd → ∃ i, nd = .ready i) {nd : Node n}
    (h : roundRobinScheduler m = some nd) : ∃ i, nd = .ready i := by
  have hhead : ∀ {nd : Node n}, vcpuReadyList n = some nd → ∃ i, nd = .ready i := by
    intro nd h
    unfold vcpuReadyList at h
    split at h
    · exact ⟨_, (Option.some.inj h).symm⟩
    · cases h
  unfold roundRobinScheduler at h
  split at h
  case h_1 => exact hhead h
  case h_2 last hsome =>
    obtain ⟨j, rfl⟩ := hlast last hsome
    unfold Node.next at h
    dsimp only at h
    split at h
    case h_1 => exact hhead h
    case h_2 next hnext =>
      split at hnext
      · obtain rfl := Option.some.inj hnext
        exact ⟨_, (Option.some.inj h).symm⟩
      · cases hnext

theorem LastPlaced.of_scheduler_eq {m m' : Machine n} {switches : List Switch}
    (hs : LastPlaced switches m) (h : m'.scheduler = m.scheduler) : LastPlaced switches m' := by
  constructor <;> rw [h]
  exacts [hs.executing, hs.next, hs.last]

theorem LastPlaced.tick {ticks : Nat} {m m' : Machine n} {switches : List Switch}
    (hs : LastPlaced switches m) (h : SchedulerCall ticks m m'.scheduler) :
    LastPlaced (switches ++ switchMade ticks m) m' := by
  rw [switchMade]
  generalize hsched : m'.scheduler = s at h
  cases h with
  | fast nd hnext =>
    obtain ⟨i, rfl⟩ := hs.next nd hnext
    rw [hnext, Option.isSome_some, if_pos rfl]
    constructor
    · rw [List.getLast?_concat, hsched]
      exact .fast i
    · rw [hsched]
      rintro nd ⟨⟩
    · rw [hsched]
      exact hs.last
  | roundRobin nd hnext hquantum hnd =>
    obtain ⟨i, rfl⟩ := roundRobinScheduler_ready hs.last hnd
    rw [hnext, Option.isSome_none, if_neg Bool.false_ne_true, if_pos hquantum]
    constructor
    · rw [List.getLast?_concat, hsched]
      exact .roundRobin i
    · rw [hsched]
      exact hs.next
    · rw [hsched]
      rintro nd ⟨⟩
      exact ⟨i, rfl⟩
  | count hnext hquantum =>
    rw [hnext, Option.isSome_none, if_neg Bool.false_ne_true, if_neg hquantum, List.append_nil]
    constructor <;> rw [hsched]
    exacts [hs.executing, hs.next, hs.last]

/-- A request names a node of a VM's own list. -/
theorem LastPlaced.request {m : Machine n} {switches : List Switch} (hs : LastPlaced switches m)
    (i : Fin n) : LastPlaced switches (fastInterruptDelivery m (.own i)) := by
  unfold fastInterruptDelivery
  split
  case isTrue => exact hs
  case isFalse =>
    refine ⟨hs.executing, ?_, hs.last⟩
    rintro nd ⟨⟩
    exact ⟨i, rfl⟩

theorem LastPlaced.step {p : Params} {m m' : Machine n} {switches os : List Switch} {e : Event n}
    (hs : LastPlaced switches m) (h : switchStep p m e = some (m', os)) :
    LastPlaced (switches ++ os) m' := by
  obtain ⟨⟨m₁, os₁⟩, hstep, heq⟩ := Option.map_eq_some_iff.mp h
  obtain ⟨rfl, rfl⟩ := Prod.mk.inj heq
  have hcase := step_scheduler hstep
  generalize hsched : m₁.scheduler = s at hcase
  cases hcase with
  | timer epc now later hcall =>
    have htimer : (Event.timer epc now later : Event n).IsTimer := trivial
    rw [if_pos htimer]
    exact hs.tick (hsched ▸ hcall)
  | fastInterrupt i =>
    have hnot : ¬ (Event.fastInterrupt i).IsTimer := id
    rw [if_neg hnot, List.append_nil]
    exact (hs.request i).of_scheduler_eq hsched
  | other _ he =>
    rw [if_neg he, List.append_nil]
    exact hs.of_scheduler_eq hsched

/-- On any machine the request is dropped for the node in execution and repeated for the
node already asked for. -/
theorem fastInterruptDelivery_eq_self {m : Machine n} {nd : Node n} :
    fastInterruptDelivery m nd = m ↔
      m.scheduler.vcpuExecutingNd = some nd ∨ m.scheduler.nextVcpu = some nd := by
  unfold fastInterruptDelivery
  by_cases hexec : m.scheduler.vcpuExecutingNd = some nd
  · simp [hexec]
  · rw [if_neg hexec, or_iff_right hexec]
    constructor
    · intro h
      rw [← h]
    · intro h
      rw [← h]

/-- **A fast interrupt for the running VCPU.** In every state reached from startup, whatever
VM asks for the interrupt, a request while its VCPU executes changes nothing if and only if
the VCPU has the processor from a fast switch, or the same switch is pending already. -/
theorem running_target_unchanged (irqNumber : String → Nat) (confs : List VmConf) (cpu : Cpu)
    (table : List (InterruptMapping _)) (p : Params) {switches : List Switch} {m : Machine _}
    (hrun : Lts.Run (switchStep p) Lts.anyEvent (boot (initializeMachines confs)
      (initializeMachines_lengths confs) cpu table) switches m) (fastInt : Nat) {nd : Node _}
    (hnode : getFastIntVcpuNode irqNumber m fastInt = some nd)
    (hself : m.executing = some nd.elem) :
    fastInterruptDelivery m nd = m ↔
      switches.getLast? = some .fast ∨ m.scheduler.nextVcpu = some nd := by
  have hplaced : LastPlaced switches m := by
    refine hrun.invariant LastPlaced ?_ fun _ _ _ _ _ hs _ hstep => hs.step hstep
    constructor
    case executing => exact .idle
    all_goals
      intro nd h
      cases h
  rw [fastInterruptDelivery_eq_self]
  refine or_congr_left ?_
  obtain ⟨i, -, rfl⟩ := Option.map_eq_some_iff.mp hnode
  obtain ⟨nd', hexec, helem⟩ := Option.map_eq_some_iff.mp hself
  have hby := hplaced.executing
  rw [hexec] at hby ⊢
  generalize switches.getLast? = kind at hby
  cases hby with
  | fast j =>
    obtain rfl : j = i := helem
    exact ⟨fun _ => rfl, fun _ => rfl⟩
  | roundRobin j => constructor <;> intro h <;> cases h

/-- `ping` asks for the interrupts of the Ethernet controller. -/
def fastVms : List VmSetting :=
  [{ bareVm "ping" "MEM_SIZE_32KB" with fastInterrupts := ["IRQ_ETH"] },
    bareVm "pong" "MEM_SIZE_32KB"]

def fastConfs : List VmConf := ((genConfVms (some fastVms)).toOption.getD []).map Prod.fst

def ethernetNumber (name : String) : Nat := if name = "IRQ_ETH" then 153 else 0

abbrev fastMachine : Machine (initializeMachines fastConfs).machines.length :=
  boot (initializeMachines fastConfs) (initializeMachines_lengths fastConfs) pingPongMachine.cpu []

/-- The list of `ping`. -/
abbrev pingNode : Node (initializeMachines fastConfs).machines.length := .own ⟨0, by decide⟩

/-- After a fast switch to `ping` another request changes nothing. -/
theorem running_target_unchanged_ping : ∃ switches m nd,
    Lts.Run (switchStep ⟨30, 30000⟩) Lts.anyEvent fastMachine switches m ∧
    getFastIntVcpuNode ethernetNumber m 153 = some nd ∧ m.executing = some nd.elem ∧
    fastInterruptDelivery m nd = m := by
  have hrun := Lts.exec_run (show (Lts.exec (switchStep ⟨30, 30000⟩) Lts.anyEvent fastMachine
    [.fastInterrupt ⟨0, by decide⟩, .timer 0 0 0]).isSome = true by decide)
  refine ⟨_, _, pingNode, hrun, by decide, by decide, ?_⟩
  exact (running_target_unchanged ethernetNumber fastConfs _ _ _ hrun 153
    (show _ = some pingNode by decide) (by decide)).mpr (Or.inl (by decide))

/-- `ping` has the processor because it is its turn, and a request for it is kept. -/
theorem running_target_switched : ∃ switches m nd,
    Lts.Run (switchStep ⟨30, 30000⟩) Lts.anyEvent fastMachine switches m ∧
    getFastIntVcpuNode ethernetNumber m 153 = some nd ∧ m.executing = some nd.elem ∧
    fastInterruptDelivery m nd ≠ m := by
  have hrun := Lts.exec_run (show (Lts.exec (switchStep ⟨30, 30000⟩) Lts.anyEvent fastMachine
    [.timer 0 0 0]).isSome = true by decide)
  refine ⟨_, _, pingNode, hrun, by decide, by decide, fun heq => ?_⟩
  have hnext := congrArg (·.scheduler.nextVcpu) heq
  revert hnext
  decide

/-! ## The tick after a fast switch -/

/-- Neither a tick nor a request for a fast switch. -/
def Quiet (_ : Machine n) (e : Event n) : Prop := ¬ e.IsTimer ∧ ∀ i, e ≠ .fastInterrupt i

theorem quiet_scheduler {p : Params} {m m' : Machine n} {tr : List (Obs n)}
    (hrun : Lts.Run (step p) Quiet m tr m') : m'.scheduler = m.scheduler := by
  refine hrun.invariant (fun _ m' => m'.scheduler = m.scheduler) rfl
    fun _ m₁ e m₂ _ hsame hquiet hstep => ?_
  have hcase := step_scheduler hstep
  generalize m₂.scheduler = s at hcase ⊢
  cases hcase with
  | timer epc now later => exact absurd trivial hquiet.1
  | fastInterrupt i => exact absurd rfl (hquiet.2 i)
  | other => exact hsame

theorem roundRobinScheduler_congr {m m' : Machine n}
    (h : m'.scheduler.lastScheduled = m.scheduler.lastScheduled) :
    roundRobinScheduler m' = roundRobinScheduler m := by
  rw [roundRobinScheduler, roundRobinScheduler, h]

/-- The tick of a fast switch, at any tick count. -/
theorem fastSwitch_scheduler {p : Params} (hticks : 0 < p.ticks) {m m₁ : Machine n}
    {os : List (Obs n)} {nd : Node n} (hnext : m.scheduler.nextVcpu = some nd) {epc : Word}
    {now later : Nat} (hstep : step p m (.timer epc now later) = some (m₁, os)) :
    m₁.scheduler = { m.scheduler with
      vcpuExecutingNd := some nd, nextVcpu := none,
      tickCount := add32 m.scheduler.tickCount 1 } := by
  have hcall := timerInterruptHandler_scheduler hstep
  generalize m₁.scheduler = s at hcall ⊢
  cases hcall with
  | fast nd' hnext' tick htick =>
    obtain rfl := Option.some.inj (hnext.symm.trans hnext')
    rw [htick hticks]
  | roundRobin _ hnone =>
    rw [hnext] at hnone
    cases hnone
  | count hnone =>
    rw [hnext] at hnone
    cases hnone

/-- A tick with nothing asked for replaces the node in execution only by a decision. -/
theorem tick_keeps_iff {p : Params} {m m' : Machine n} {os : List (Obs n)} {nd : Node n}
    (hexec : m.scheduler.vcpuExecutingNd = some nd) (hnone : m.scheduler.nextVcpu = none)
    {epc : Word} {now later : Nat}
    (hstep : step p m (.timer epc now later) = some (m', os)) :
    m'.executing = some nd.elem ↔ m.scheduler.tickCount % p.ticks ≠ 0 ∨
      (roundRobinScheduler m).map Node.elem = some nd.elem := by
  have hcall := timerInterruptHandler_scheduler hstep
  rw [Machine.executing]
  generalize m'.scheduler = s at hcall ⊢
  cases hcall with
  | fast nd' hnext =>
    rw [hnone] at hnext
    cases hnext
  | roundRobin nd' _ hquantum hnd => rw [hnd, or_iff_right (not_not.mpr hquantum)]
  | count _ hquantum =>
    refine ⟨fun _ => Or.inl hquantum, fun _ => ?_⟩
    dsimp only
    rw [hexec]
    rfl

/-- **Extra time for the target.** After a fast switch at any tick count, and whatever
happens before the next tick except another request, that tick leaves the target in
execution if and only if it is not at a quantum boundary, or round robin chooses the
target's VCPU. -/
theorem fast_target_keeps_processor {p : Params} (hticks : 0 < p.ticks) {m : Machine n}
    {nd : Node n} (hnext : m.scheduler.nextVcpu = some nd) (epc : Word) (now later : Nat) :
    ∃ m₁ os₁, step p m (.timer epc now later) = some (m₁, os₁) ∧ m₁.executing = some nd.elem ∧
      ∀ tr m₂, Lts.Run (step p) Quiet m₁ tr m₂ → ∀ epc' now' later',
        ∃ m₃ os₃, step p m₂ (.timer epc' now' later') = some (m₃, os₃) ∧
          (m₃.executing = some nd.elem ↔
            add32 m.scheduler.tickCount 1 % p.ticks ≠ 0 ∨
              (roundRobinScheduler m).map Node.elem = some nd.elem) := by
  have hreturns : (step p m (.timer epc now later)).isSome = true :=
    timerInterruptHandler_isSome.mpr fun hnone => by
      rw [hnext] at hnone
      cases hnone
  obtain ⟨⟨m₁, os₁⟩, hstep₁⟩ := Option.isSome_iff_exists.mp hreturns
  have hsched₁ := fastSwitch_scheduler hticks hnext hstep₁
  refine ⟨m₁, os₁, hstep₁, ?_, fun tr m₂ hquiet epc' now' later' => ?_⟩
  · rw [Machine.executing, hsched₁]
    rfl
  have hsched₂ := (quiet_scheduler hquiet).trans hsched₁
  have hreturns₂ : (step p m₂ (.timer epc' now' later')).isSome = true :=
    timerInterruptHandler_isSome.mpr fun _ _ => nd.elem.pos
  obtain ⟨⟨m₃, os₃⟩, hstep₃⟩ := Option.isSome_iff_exists.mp hreturns₂
  have hkeeps := tick_keeps_iff (show m₂.scheduler.vcpuExecutingNd = some nd by rw [hsched₂])
    (by rw [hsched₂]) hstep₃
  have htick : m₂.scheduler.tickCount = add32 m.scheduler.tickCount 1 := by rw [hsched₂]
  -- the fast switch has left the turn of round robin alone
  have hturn : roundRobinScheduler m₂ = roundRobinScheduler m :=
    roundRobinScheduler_congr (by rw [hsched₂])
  rw [htick, hturn] at hkeeps
  exact ⟨m₃, os₃, hstep₃, hkeeps⟩

/-- A fast switch at the first tick of a period of three: `pong` keeps the processor. -/
theorem fast_target_keeps_processor_pong : ∃ m₁ os₁,
    step ⟨3, 30000⟩ (fastInterruptDelivery pingPongMachine (.own 1)) (.timer 0 0 0) =
      some (m₁, os₁) ∧
    ∃ m₃ os₃, step ⟨3, 30000⟩ m₁ (.timer 0 0 0) = some (m₃, os₃) ∧ m₃.executing = some 1 := by
  obtain ⟨m₁, os₁, hstep, -, hnext⟩ := fast_target_keeps_processor (p := ⟨3, 30000⟩) (by decide)
    (m := fastInterruptDelivery pingPongMachine (.own 1)) rfl 0 0 0
  obtain ⟨m₃, os₃, hstep₃, hkeeps⟩ := hnext [] m₁ .nil 0 0 0
  exact ⟨m₁, os₁, hstep, m₃, os₃, hstep₃, hkeeps.mpr (Or.inl (by decide))⟩

/-- Switches to `pong` and `ping` at the second and third tick of a period of three: `ping`
has the processor for one tick. -/
theorem fast_target_replaced : ∃ tr m m₁ os₁ m₃ os₃,
    Reaches ⟨3, 30000⟩ Lts.anyEvent pingPongMachine tr m ∧
    m.scheduler.nextVcpu = some (.own 0) ∧
    step ⟨3, 30000⟩ m (.timer 0 0 0) = some (m₁, os₁) ∧ m₁.executing = some 0 ∧
    step ⟨3, 30000⟩ m₁ (.timer 0 0 0) = some (m₃, os₃) ∧ m₃.executing ≠ some 0 := by
  have hrun := Lts.exec_run (show (Lts.exec (step ⟨3, 30000⟩) Lts.anyEvent pingPongMachine
    [.timer 0 0 0, .fastInterrupt 1, .timer 0 0 0, .fastInterrupt 0]).isSome = true by decide)
  exact ⟨_, _, _, _, _, _, hrun, rfl, rfl, rfl, rfl, by decide⟩

end PrplHypervisor
