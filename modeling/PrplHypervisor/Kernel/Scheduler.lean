import PrplHypervisor.Kernel.Context

/-!
# The scheduler (sys/kernel/scheduler.c)

Round robin over the ready list, one decision every `TICKS_BEFORE_SCHEDULING`
ticks, with a pending fast interrupt switching to its target at the next tick.

- `roundRobinScheduler`, `fastInterruptDelivery`, `runScheduler`: the routines.
- `Switched`: everything a context switch does to the machine.
- `runScheduler_eq_some`: what a call that returns has done.
- `runScheduler_cases`: a call either only counts a tick or performs one switch.
  Every invariant of the machine is proved from this and `Switched`.
- `SchedulerCall`: what a call does to the scheduler's own variables.
-/

namespace PrplHypervisor

open Machine Word32

variable {n : Nat}

/-- Head of the ready list. -/
def vcpuReadyList (n : Nat) : Option (Node n) :=
  if h : 0 < n then some (.ready ⟨0, h⟩) else none

/-- The `next` pointer of a list node; a VM's own list has a single node. -/
def Node.next : Node n → Option (Node n)
  | .ready i => if h : i.val + 1 < n then some (.ready ⟨i.val + 1, h⟩) else none
  | .own _ => none

/-- Round-robin decision: the new value of `last_scheduled`. -/
def roundRobinScheduler (m : Machine n) : Option (Node n) :=
  match m.scheduler.lastScheduled with
  | none => vcpuReadyList n
  | some last =>
    match last.next with
    | none => vcpuReadyList n
    | some nd => some nd

/-- Ask for a switch to `target` unless it is the node in execution. -/
def fastInterruptDelivery (m : Machine n) (target : Node n) : Machine n :=
  if m.scheduler.vcpuExecutingNd = some target then m
  else { m with scheduler := { m.scheduler with nextVcpu := some target } }

/-- Save, put `nd` in execution, restore. The observations are the guest registers
the outgoing VCPU leaves and the ones the incoming VCPU finds. -/
def switchTo (m : Machine n) (nd : Option (Node n)) : Option (Machine n × List (Obs n)) :=
  let saved := contextSave m
  let entered : Machine n :=
    { saved with scheduler := { saved.scheduler with vcpuExecutingNd := nd } }
  match contextRestore entered with
  | none => none
  | some m' =>
    some (m', (m.executing.toList.map fun i => Obs.preempted i m.cpu.guestCp0) ++
      (m'.executing.toList.map fun i => Obs.resumed i m'.cpu.guestCp0))

/-- One call of the scheduler, with `ticks` for `TICKS_BEFORE_SCHEDULING`. -/
def runScheduler (ticks : Nat) (m : Machine n) : Option (Machine n × List (Obs n)) :=
  match m.scheduler.nextVcpu with
  | some nd =>
    match switchTo m (some nd) with
    | none => none
    | some (m', os) =>
      -- the comparison below never holds for a remainder
      let tick := if m'.scheduler.tickCount % ticks ≥ ticks
        then sub32 m'.scheduler.tickCount 2 else m'.scheduler.tickCount
      some ({ m' with scheduler := { m'.scheduler with
        nextVcpu := none, tickCount := add32 tick 1 } }, os)
  | none =>
    if m.scheduler.tickCount % ticks = 0 then
      let last := roundRobinScheduler m
      match switchTo { m with scheduler := { m.scheduler with lastScheduled := last } } last with
      | none => none
      | some (m', os) =>
        some ({ m' with scheduler := { m'.scheduler with
          tickCount := add32 m'.scheduler.tickCount 1 } }, os)
    else
      some ({ m with scheduler := { m.scheduler with
        tickCount := add32 m.scheduler.tickCount 1 } }, [])

/-- VCPU of the first VM whose id is `id`. -/
def getVcpuFromId (m : Machine n) (id : Nat) : Option (Fin n) :=
  (List.finRange n).find? fun i => (m.vm i).id == id

/-- List of the first VM with `fastInt` among its fast interrupts. The configuration has
their names, macros of the platform's header. -/
def getFastIntVcpuNode (irqNumber : String → Nat) (m : Machine n) (fastInt : Nat) :
    Option (Node n) :=
  ((List.finRange n).find? fun i =>
    (m.vm i).vmconf.fastInterrupts.any fun name => fastInt == irqNumber name).map .own

/-! ## What a switch does -/

/-- The effect of a switch to VCPU `t`, with observations `os`. -/
structure Switched (m : Machine n) (t : Fin n) (m' : Machine n) (os : List (Obs n)) : Prop where
  executing : m'.executing = some t
  vm : m'.vm = m.vm
  guest : m'.guest = m.guest
  messages : ∀ j, (m'.vcpu j).messages = (m.vcpu j).messages
  init : ∀ j, (m'.vcpu j).init = if j = t then false else (m.vcpu j).init
  cp0Registers : ∀ j, (m'.vcpu j).cp0Registers = if m.executing = some j
    then fun k => m.cpu.guestCp0 (savedCp0 k) else (m.vcpu j).cp0Registers
  guestclt2 : ∀ j, (m'.vcpu j).guestclt2 = if j = t then 0 else if m.executing = some j
    then (m.vcpu j).guestclt2 ||| m.cpu.guestCtl2 else (m.vcpu j).guestclt2
  guestCtl2 : m'.cpu.guestCtl2 = if m.executing = some t
    then (m.vcpu t).guestclt2 ||| m.cpu.guestCtl2 else (m.vcpu t).guestclt2
  guestCp0 : m'.cpu.guestCp0 = loadCp0 (m'.vcpu t).cp0Registers m.cpu.guestCp0
  obs : os = (m.executing.toList.map fun i => Obs.preempted i m.cpu.guestCp0) ++
    [.resumed t m'.cpu.guestCp0]

theorem switchTo_some {m m' : Machine n} {nd : Node n} {os : List (Obs n)}
    (hm : RunsInitialized m) (h : switchTo m (some nd) = some (m', os)) :
    Switched m nd.elem m' os := by
  unfold switchTo at h
  rw [contextSave_eq] at h
  simp only [contextRestore, Machine.executing, Option.map_some] at h
  obtain ⟨rfl, rfl⟩ := Prod.mk.inj (Option.some.inj h)
  have htarget : Function.update (savedVcpu m) nd.elem
      { savedVcpu m nd.elem with init := false, guestclt2 := 0 } nd.elem =
      { savedVcpu m nd.elem with init := false, guestclt2 := 0 } := Function.update_self ..
  have hother : ∀ {j}, j ≠ nd.elem → Function.update (savedVcpu m) nd.elem
      { savedVcpu m nd.elem with init := false, guestclt2 := 0 } j = savedVcpu m j :=
    fun hj => Function.update_of_ne hj ..
  refine ⟨rfl, rfl, rfl, fun j => ?_, fun j => ?_, fun j => ?_, fun j => ?_,
    savedVcpu_guestclt2 nd.elem hm, ?_, rfl⟩
  · show (Function.update (savedVcpu m) nd.elem _ j).messages = _
    by_cases hj : j = nd.elem
    · rw [hj, htarget]
      exact savedVcpu_messages m nd.elem
    · rw [hother hj, savedVcpu_messages]
  · show (Function.update (savedVcpu m) nd.elem _ j).init = _
    by_cases hj : j = nd.elem
    · rw [if_pos hj, hj, htarget]
    · rw [if_neg hj, hother hj, savedVcpu_init]
  · show (Function.update (savedVcpu m) nd.elem _ j).cp0Registers = _
    by_cases hj : j = nd.elem
    · rw [hj, htarget]
      exact savedVcpu_cp0Registers nd.elem hm
    · rw [hother hj, savedVcpu_cp0Registers j hm]
  · show (Function.update (savedVcpu m) nd.elem _ j).guestclt2 = _
    by_cases hj : j = nd.elem
    · rw [if_pos hj, hj, htarget]
    · rw [if_neg hj, hother hj, savedVcpu_guestclt2 j hm]
  · show loadCp0 _ _ = loadCp0 (Function.update (savedVcpu m) nd.elem _ nd.elem).cp0Registers _
    rw [htarget]

/-- What guests and hypercalls can see is unchanged: only the scheduler's variables,
interrupt flags and time keeping may differ. -/
structure SameContext (m m' : Machine n) : Prop where
  executing : m'.executing = m.executing
  vm : m'.vm = m.vm
  vcpu : m'.vcpu = m.vcpu
  guestCp0 : m'.cpu.guestCp0 = m.cpu.guestCp0
  guestCtl2 : m'.cpu.guestCtl2 = m.cpu.guestCtl2
  guest : m'.guest = m.guest

/-- There is nothing to switch to without a node. -/
theorem switchTo_none (m : Machine n) : switchTo m none = none := by
  simp [switchTo, contextRestore, Machine.executing]

/-- A call that returns has made the pending switch, or a round-robin decision, or it has only
counted the tick. -/
theorem runScheduler_eq_some {ticks : Nat} {m m' : Machine n} {os : List (Obs n)}
    (h : runScheduler ticks m = some (m', os)) :
    (∃ nd m₁ tick, m.scheduler.nextVcpu = some nd ∧ switchTo m (some nd) = some (m₁, os) ∧
      (0 < ticks → tick = add32 m₁.scheduler.tickCount 1) ∧
      m' = { m₁ with scheduler := { m₁.scheduler with nextVcpu := none, tickCount := tick } }) ∨
    (m.scheduler.nextVcpu = none ∧ m.scheduler.tickCount % ticks = 0 ∧
      ∃ nd m₁, roundRobinScheduler m = some nd ∧
        switchTo { m with scheduler := { m.scheduler with lastScheduled := some nd } } (some nd) =
          some (m₁, os) ∧
        m' = { m₁ with scheduler := { m₁.scheduler with
          tickCount := add32 m₁.scheduler.tickCount 1 } }) ∨
    (m.scheduler.nextVcpu = none ∧ m.scheduler.tickCount % ticks ≠ 0 ∧ os = [] ∧
      m' = { m with scheduler := { m.scheduler with
        tickCount := add32 m.scheduler.tickCount 1 } }) := by
  unfold runScheduler at h
  split at h
  case h_1 nd hnext =>
    split at h
    case h_1 => cases h
    case h_2 m₁ os₁ hsw =>
      obtain ⟨rfl, rfl⟩ := Prod.mk.inj (Option.some.inj h)
      refine Or.inl ⟨nd, m₁, _, hnext, hsw, fun hticks => ?_, rfl⟩
      -- a remainder is never as large as the divisor
      rw [if_neg (Nat.not_le.mpr (Nat.mod_lt _ hticks))]
  case h_2 hnext =>
    split at h
    case isTrue hquantum =>
      dsimp only at h
      split at h
      case h_1 => cases h
      case h_2 m₁ os₁ hsw =>
        obtain ⟨rfl, rfl⟩ := Prod.mk.inj (Option.some.inj h)
        cases hlast : roundRobinScheduler m with
        | none =>
          rw [hlast, switchTo_none] at hsw
          cases hsw
        | some nd =>
          rw [hlast] at hsw
          exact Or.inr (Or.inl ⟨hnext, hquantum, nd, m₁, rfl, hsw, rfl⟩)
    case isFalse hquantum =>
      obtain ⟨rfl, rfl⟩ := Prod.mk.inj (Option.some.inj h)
      exact Or.inr (Or.inr ⟨hnext, hquantum, rfl, rfl⟩)

/-- A scheduler call either counts a tick or performs one switch. -/
theorem runScheduler_cases {ticks : Nat} {m m' : Machine n} {os : List (Obs n)}
    (hm : RunsInitialized m) (h : runScheduler ticks m = some (m', os)) :
    (SameContext m m' ∧ os = []) ∨ ∃ t, Switched m t m' os := by
  rcases runScheduler_eq_some h with ⟨nd, m₁, tick, -, hsw, -, rfl⟩ |
    ⟨-, -, nd, m₁, -, hsw, rfl⟩ | ⟨-, -, rfl, rfl⟩
  · obtain ⟨h1, h2, h3, h4, h5, h6, h7, h8, h9, h10⟩ := switchTo_some hm hsw
    exact Or.inr ⟨nd.elem, h1, h2, h3, h4, h5, h6, h7, h8, h9, h10⟩
  · have hm₁ : RunsInitialized
        { m with scheduler := { m.scheduler with lastScheduled := some nd } } := hm
    obtain ⟨h1, h2, h3, h4, h5, h6, h7, h8, h9, h10⟩ := switchTo_some hm₁ hsw
    exact Or.inr ⟨nd.elem, h1, h2, h3, h4, h5, h6, h7, h8, h9, h10⟩
  · exact Or.inl ⟨⟨rfl, rfl, rfl, rfl, rfl, rfl⟩, rfl⟩

/-! ## What a call does to the scheduler's variables -/

theorem vcpuReadyList_isSome : (vcpuReadyList n).isSome = true ↔ 0 < n := by
  unfold vcpuReadyList
  split
  case isTrue h => simp [h]
  case isFalse h => simp [h]

/-- Round robin finds a node as soon as there is a VCPU. -/
theorem roundRobinScheduler_isSome (m : Machine n) :
    (roundRobinScheduler m).isSome = true ↔ 0 < n := by
  unfold roundRobinScheduler
  split
  case h_1 => exact vcpuReadyList_isSome
  case h_2 last _ =>
    split
    case h_1 => exact vcpuReadyList_isSome
    case h_2 nd _ => exact ⟨fun _ => nd.elem.pos, fun _ => rfl⟩

theorem contextSave_scheduler (m : Machine n) : (contextSave m).scheduler = m.scheduler := by
  rw [contextSave_eq]

/-- A switch changes one of the scheduler's variables. -/
theorem switchTo_scheduler {m m' : Machine n} {nd : Node n} {os : List (Obs n)}
    (h : switchTo m (some nd) = some (m', os)) :
    m'.scheduler = { m.scheduler with vcpuExecutingNd := some nd } := by
  simp only [switchTo, contextRestore, Machine.executing, Option.map_some] at h
  obtain ⟨rfl, -⟩ := Prod.mk.inj (Option.some.inj h)
  show { (contextSave m).scheduler with vcpuExecutingNd := some nd } = _
  rw [contextSave_scheduler]

/-- The scheduler's variables after a call that returns. -/
inductive SchedulerCall (ticks : Nat) (m : Machine n) : SchedulerInfo n → Prop
  /-- A pending fast interrupt takes the processor, whatever tick it is. -/
  | fast (nd : Node n) (hnext : m.scheduler.nextVcpu = some nd) (tick : Nat)
      (htick : 0 < ticks → tick = add32 m.scheduler.tickCount 1) :
      SchedulerCall ticks m { m.scheduler with
        vcpuExecutingNd := some nd, nextVcpu := none, tickCount := tick }
  /-- A round-robin decision. -/
  | roundRobin (nd : Node n) (hnext : m.scheduler.nextVcpu = none)
      (hquantum : m.scheduler.tickCount % ticks = 0) (hnd : roundRobinScheduler m = some nd) :
      SchedulerCall ticks m { m.scheduler with
        vcpuExecutingNd := some nd, lastScheduled := some nd,
        tickCount := add32 m.scheduler.tickCount 1 }
  /-- Only the tick is counted. -/
  | count (hnext : m.scheduler.nextVcpu = none) (hquantum : m.scheduler.tickCount % ticks ≠ 0) :
      SchedulerCall ticks m { m.scheduler with tickCount := add32 m.scheduler.tickCount 1 }

theorem runScheduler_call {ticks : Nat} {m m' : Machine n} {os : List (Obs n)}
    (h : runScheduler ticks m = some (m', os)) : SchedulerCall ticks m m'.scheduler := by
  rcases runScheduler_eq_some h with ⟨nd, m₁, tick, hnext, hsw, htick, rfl⟩ |
    ⟨hnext, hquantum, nd, m₁, hnd, hsw, rfl⟩ | ⟨hnext, hquantum, -, rfl⟩
  · rw [switchTo_scheduler hsw] at htick
    rw [switchTo_scheduler hsw]
    exact SchedulerCall.fast nd hnext tick htick
  · rw [switchTo_scheduler hsw]
    exact SchedulerCall.roundRobin nd hnext hquantum hnd
  · exact SchedulerCall.count hnext hquantum

/-- The call fails to return only where round robin has nobody to choose. -/
theorem runScheduler_isSome {ticks : Nat} {m : Machine n} :
    (runScheduler ticks m).isSome = true ↔
      (m.scheduler.nextVcpu = none → m.scheduler.tickCount % ticks = 0 → 0 < n) := by
  unfold runScheduler
  split
  case h_1 nd hnext =>
    constructor
    · intro _ hnone
      rw [hnext] at hnone
      cases hnone
    · exact fun _ => rfl
  case h_2 hnext =>
    split
    case isTrue hquantum =>
      rw [← roundRobinScheduler_isSome m]
      cases hnd : roundRobinScheduler m with
      | none =>
        simp [switchTo_none, hnext, hquantum]
      | some nd =>
        exact ⟨fun _ _ _ => rfl, fun _ => rfl⟩
    case isFalse hquantum => exact ⟨fun _ _ h => absurd h hquantum, fun _ => rfl⟩

end PrplHypervisor
