import PrplHypervisor.System.Step

/-!
# The VCPU in execution

`vcpu_executing_nd` is null until the first timer interrupt. Interrupts are enabled a
little earlier, so a handler may run before there is a VCPU.

- `SchedulerCase`: what an event does to the scheduler's variables.
- `exec_executing`: after any events from startup there is a VCPU in execution exactly
  if one of them was a timer interrupt.
- `handlers_find_vcpu`: which interrupts are handled without reading through the null
  pointer.
-/

namespace PrplHypervisor

open Machine Word32 Genconf

variable {n : Nat}

/-! ## The scheduler's variables -/

def Event.IsTimer : Event n → Prop
  | .timer .. => True
  | _ => False

instance : DecidablePred (Event.IsTimer (n := n))
  | .timer .. => .isTrue trivial
  | .fastInterrupt _ | .deviceInterrupt _ | .injection | .writeCp0 .. | .takeInterrupt _
  | .sendMsg .. | .irqNetwork _ | .receiveMessage .. => .isFalse id

/-- The scheduler's variables after an event. -/
inductive SchedulerCase (p : Params) (m : Machine n) : Event n → SchedulerInfo n → Prop
  | timer (epc : Word) (now later : Nat) {s : SchedulerInfo n} (h : SchedulerCall p.ticks m s) :
      SchedulerCase p m (.timer epc now later) s
  | fastInterrupt (i : Fin n) :
      SchedulerCase p m (.fastInterrupt i) (fastInterruptDelivery m (.own i)).scheduler
  | other (e : Event n) (he : ¬ e.IsTimer) : SchedulerCase p m e m.scheduler

theorem timerInterruptHandler_scheduler {p : Params} {m m' : Machine n} {epc : Word}
    {now later : Nat} {os : List (Obs n)}
    (h : timerInterruptHandler p m epc now later = some (m', os)) :
    SchedulerCall p.ticks m m'.scheduler := by
  obtain ⟨m₁, os₁, hsched, hline⟩ := timerInterruptHandler_eq_some h
  have hsame : m'.scheduler = m₁.scheduler := by
    rcases hline with ⟨rfl, -⟩ | ⟨rfl, -⟩ <;> rfl
  have hcall := runScheduler_call hsched
  rw [hsame]
  generalize m₁.scheduler = s at hcall
  -- the handler only stores `epc` before it calls the scheduler
  cases hcall with
  | fast nd hnext tick htick => exact SchedulerCall.fast (m := m) nd hnext tick htick
  | roundRobin nd hnext hquantum hnd =>
    exact SchedulerCall.roundRobin (m := m) nd hnext hquantum hnd
  | count hnext hquantum => exact SchedulerCall.count (m := m) hnext hquantum

theorem timerInterruptHandler_isSome {p : Params} {m : Machine n} {epc : Word} {now later : Nat} :
    (timerInterruptHandler p m epc now later).isSome = true ↔
      (m.scheduler.nextVcpu = none → m.scheduler.tickCount % p.ticks = 0 → 0 < n) := by
  have hsched : (timerInterruptHandler p m epc now later).isSome =
      (runScheduler p.ticks { m with cpu := { m.cpu with epc := epc } }).isSome := by
    unfold timerInterruptHandler
    split
    case h_1 hnone => rw [hnone]
    case h_2 hsome =>
      rw [hsome]
      split <;> rfl
  rw [hsched, runScheduler_isSome]

theorem injectAll_scheduler (self : Fin n) (es : List (InterruptMapping n)) (m : Machine n) :
    (injectAll self m es).1.scheduler = m.scheduler :=
  injectAll_induction (I := fun m₁ => m₁.scheduler = m.scheduler) (fun _ _ h => h) (fun _ _ h => h)
    (fun _ _ _ h => h) self es rfl

theorem intervmSendMsg_scheduler (m : Machine n) (self : Fin n) (targetId size : Nat)
    (src : Nat → UInt8) :
    (intervmSendMsg m self targetId size src).1.scheduler = m.scheduler := by
  have hcases := intervmSendMsg_cases m self targetId size src
  generalize intervmSendMsg m self targetId size src = r at hcases
  cases hcases with
  | refused => rfl
  | full => rfl
  | queued => rfl

theorem takeInterrupt_scheduler {m m' : Machine n} {self : Fin n} {mask : Word}
    {os : List (Obs n)} (h : takeInterrupt m self mask = some (m', os)) :
    m'.scheduler = m.scheduler := by
  unfold takeInterrupt at h
  dsimp only at h
  split at h
  · cases h
  · obtain ⟨rfl, -⟩ := Prod.mk.inj (Option.some.inj h)
    split <;> rfl

/-- Only the timer and the drivers' requests reach the scheduler. -/
theorem step_scheduler {p : Params} {m m' : Machine n} {e : Event n} {os : List (Obs n)}
    (h : step p m e = some (m', os)) : SchedulerCase p m e m'.scheduler := by
  have hother : ¬ e.IsTimer → m'.scheduler = m.scheduler → SchedulerCase p m e m'.scheduler := by
    intro he hsame
    rw [hsame]
    exact .other e he
  -- every other event leaves the variables alone
  cases e with
  | timer epc now later => exact .timer epc now later (timerInterruptHandler_scheduler h)
  | fastInterrupt i =>
    obtain ⟨rfl, -⟩ := Prod.mk.inj (Option.some.inj h)
    exact .fastInterrupt i
  | deviceInterrupt irq =>
    obtain ⟨rfl, -⟩ := Prod.mk.inj (Option.some.inj h)
    exact hother id rfl
  | injection =>
    refine hother id ?_
    rcases interruptInjection_cases h with ⟨rfl, -⟩ | ⟨self, -, hinj⟩
    · rfl
    · have hsame := injectAll_scheduler self m.interruptMappingList m
      rwa [hinj] at hsame
  | writeCp0 r w =>
    obtain ⟨self, -, heq⟩ := Option.map_eq_some_iff.mp h
    obtain ⟨rfl, -⟩ := Prod.mk.inj heq
    exact hother id rfl
  | takeInterrupt mask =>
    obtain ⟨self, -, htake⟩ := Option.bind_eq_some_iff.mp h
    exact hother id (takeInterrupt_scheduler htake)
  | sendMsg targetId size src =>
    obtain ⟨self, -, heq⟩ := Option.map_eq_some_iff.mp h
    obtain ⟨rfl, -⟩ := Prod.mk.inj heq
    exact hother id (intervmSendMsg_scheduler m self targetId size src)
  | irqNetwork bufferAddr =>
    obtain ⟨self, -, hnet⟩ := Option.bind_eq_some_iff.mp h
    obtain ⟨m₁, hm₁, heq⟩ := Option.map_eq_some_iff.mp hnet
    obtain ⟨rfl, -⟩ := Prod.mk.inj heq
    refine hother id ?_
    cases irqNetwork_cases hm₁ <;> rfl
  | receiveMessage bufsz block =>
    obtain ⟨self, -, hrecv⟩ := Option.bind_eq_some_iff.mp h
    obtain ⟨⟨m₁, got⟩, hr, heq⟩ := Option.map_eq_some_iff.mp hrecv
    obtain ⟨rfl, -⟩ := Prod.mk.inj heq
    refine hother id ?_
    obtain ⟨-, hcase⟩ := receiveMessage_cases hr
    cases hcase <;> rfl

/-! ## Who executes -/

/-- No VCPU executes before the first tick. -/
def IdleBefore (m : Machine n) : Prop := m.executing = none → m.scheduler.tickCount = 0

/-- A timer interrupt leaves a VCPU in execution, every other event leaves things as
they are. -/
theorem step_executing {p : Params} {m m' : Machine n} {e : Event n} {os : List (Obs n)}
    (hm : IdleBefore m) (h : step p m e = some (m', os)) :
    IdleBefore m' ∧ (m'.executing.isSome = true ↔ e.IsTimer ∨ m.executing.isSome = true) := by
  have hcase := step_scheduler h
  unfold IdleBefore Machine.executing at *
  generalize m'.scheduler = s at hcase
  cases hcase with
  | timer epc now later hcall =>
    cases hcall with
    | fast nd => simp [Event.IsTimer]
    | roundRobin nd => simp [Event.IsTimer]
    | count hnext hquantum =>
      -- an idle processor is at tick 0, where a decision is due
      cases hexec : m.scheduler.vcpuExecutingNd with
      | none =>
        rw [hexec] at hm
        rw [hm rfl, Nat.zero_mod] at hquantum
        exact absurd rfl hquantum
      | some nd => simp [Event.IsTimer]
  | fastInterrupt i =>
    have hsame : (fastInterruptDelivery m (.own i)).scheduler.vcpuExecutingNd =
        m.scheduler.vcpuExecutingNd ∧
        (fastInterruptDelivery m (.own i)).scheduler.tickCount = m.scheduler.tickCount := by
      unfold fastInterruptDelivery
      split <;> exact ⟨rfl, rfl⟩
    rw [hsame.1, hsame.2]
    exact ⟨hm, by simp [Event.IsTimer]⟩
  | other _ he => exact ⟨hm, by simp [he]⟩

/-- After any events from startup there is a VCPU in execution exactly if one of them
was a timer interrupt. -/
theorem exec_executing {p : Params} {es : List (Event n)} {m₀ m : Machine n} {tr : List (Obs n)}
    (hidle : IdleBefore m₀) (h : Lts.exec (step p) Lts.anyEvent m₀ es = some (m, tr)) :
    IdleBefore m ∧
      (m.executing.isSome = true ↔ (∃ e ∈ es, e.IsTimer) ∨ m₀.executing.isSome = true) := by
  induction es generalizing m₀ tr with
  | nil =>
    obtain ⟨rfl, -⟩ := Prod.mk.inj (Option.some.inj h)
    exact ⟨hidle, by simp⟩
  | cons e es ih =>
    obtain ⟨m₁, os, tr', -, hstep, hrest, -⟩ := Lts.exec_cons h
    obtain ⟨hidle₁, hexec₁⟩ := step_executing hidle hstep
    obtain ⟨hidle', hexec'⟩ := ih hidle₁ hrest
    refine ⟨hidle', ?_⟩
    rw [hexec', hexec₁, List.exists_mem_cons_iff, or_assoc, or_left_comm]

/-! ## The handlers -/

/-- The events that are interrupts, as opposed to what guests do. -/
def Event.IsInterrupt : Event n → Prop
  | .timer .. | .fastInterrupt _ | .deviceInterrupt _ | .injection => True
  | _ => False

/-- What handling an interrupt needs after the events `es`: the timer a VCPU to choose,
a redirected interrupt an earlier timer interrupt. -/
def FindsVcpu (confs : List VmConf) (es : List (Event n)) (m : Machine n) : Event n → Prop
  | .timer .. => confs ≠ []
  | .injection => (∃ e ∈ es, e.IsTimer) ∨
      ∀ entry ∈ m.interruptMappingList, m.cpu.ifs entry.irqNumber = false
  | _ => True

theorem interruptInjection_isSome {m : Machine n} : (interruptInjection m).isSome = true ↔
    m.executing.isSome = true ∨
      ∀ entry ∈ m.interruptMappingList, m.cpu.ifs entry.irqNumber = false := by
  unfold interruptInjection
  cases m.executing with
  | none =>
    show (if _ then none else _).isSome = true ↔ _
    by_cases hflag : ∃ e ∈ m.interruptMappingList, m.cpu.ifs e.irqNumber = true
    · obtain ⟨entry, hentry, hset⟩ := hflag
      rw [if_pos ⟨entry, hentry, hset⟩]
      constructor
      · intro h
        cases h
      · rintro (h | h)
        · cases h
        · rw [h entry hentry] at hset
          cases hset
    · rw [if_neg hflag]
      have hclear : ∀ entry ∈ m.interruptMappingList, m.cpu.ifs entry.irqNumber = false :=
        fun entry hentry => Bool.eq_false_iff.mpr fun h => hflag ⟨entry, hentry, h⟩
      exact ⟨fun _ => Or.inr hclear, fun _ => rfl⟩
  | some self => simp

/-- On an idle machine at tick 0 the timer handler returns exactly if there is a VCPU. -/
theorem timer_isSome {p : Params} {m : Machine n} (hm : IdleBefore m) {epc : Word}
    {now later : Nat} :
    (timerInterruptHandler p m epc now later).isSome = true ↔ 0 < n := by
  rw [timerInterruptHandler_isSome]
  constructor
  · intro hsafe
    by_contra hn
    have hnone : ∀ o : Option (Node n), o = none := by
      rintro (_ | nd)
      · rfl
      · exact absurd nd.elem.pos hn
    have hidle : m.executing = none := by
      rw [Machine.executing, hnone m.scheduler.vcpuExecutingNd]
      rfl
    refine hn (hsafe (hnone _) ?_)
    rw [hm hidle, Nat.zero_mod]
  · exact fun hn _ _ => hn

/-- **No handler without a VCPU.** After any events from startup an interrupt is handled
without reading through a null pointer exactly if it finds a VCPU: the timer if there is
one at all, a redirected interrupt after the first timer interrupt. -/
theorem handlers_find_vcpu (confs : List VmConf) (cpu : Cpu) (table : List (InterruptMapping _))
    (p : Params) {es : List (Event _)} {m : Machine _} {tr : List (Obs _)}
    (hrun : Lts.exec (step p) Lts.anyEvent (boot (initializeMachines confs)
      (initializeMachines_lengths confs) cpu table) es = some (m, tr))
    {e : Event _} (he : e.IsInterrupt) :
    (step p m e).isSome = true ↔ FindsVcpu confs es m e := by
  obtain ⟨hidle, hexec⟩ := exec_executing (fun _ => rfl) hrun
  cases e with
  | timer epc now later =>
    have hpos : 0 < (initializeMachines confs).machines.length ↔ confs ≠ [] := by
      rw [initializeMachines_length, List.length_pos_iff]
    exact (timer_isSome hidle).trans hpos
  | fastInterrupt i => exact ⟨fun _ => trivial, fun _ => rfl⟩
  | deviceInterrupt irq => exact ⟨fun _ => trivial, fun _ => rfl⟩
  | injection =>
    -- nothing executes at startup
    have hexec' : m.executing.isSome = true ↔ ∃ e ∈ es, e.IsTimer := by
      rw [hexec]
      exact or_iff_left (by simp [boot, Machine.executing])
    show (interruptInjection m).isSome = true ↔ _
    rw [interruptInjection_isSome, hexec']
    rfl
  | writeCp0 | takeInterrupt | sendMsg | irqNetwork | receiveMessage => exact he.elim

/-- The redirection sample: the receive interrupt of a UART goes to `ping`. -/
def redirectVms : List VmSetting :=
  [{ bareVm "ping" "MEM_SIZE_32KB" with interruptRedirect := ["IRQ_U2RX"] },
    bareVm "pong" "MEM_SIZE_32KB"]

def redirectRows : List (VmConf × VmInfo) := (genConfVms (some redirectVms)).toOption.getD []

/-- It has started; interrupt 146 raises the first user-defined line of `ping`. -/
def redirectMachine : Machine 2 :=
  boot (initializeMachines (redirectRows.map Prod.fst)) (initializeMachines_lengths _)
    pingPongMachine.cpu [⟨146, 0x10, (0 : Fin 2)⟩]

/-- A machine without VMs. -/
def emptyMachine : Machine 0 :=
  boot (initializeMachines []) (initializeMachines_lengths _) pingPongMachine.cpu []

/-- The UART interrupts before the timer, and in the other machine the timer does. -/
theorem vcpu_missing :
    genConfVms (some redirectVms) = .ok redirectRows ∧
    (∃ m tr, Lts.exec (step ⟨30, 30000⟩) Lts.anyEvent redirectMachine [.deviceInterrupt 146] =
      some (m, tr) ∧ (step ⟨30, 30000⟩ m .injection).isSome = false) ∧
    (step ⟨30, 30000⟩ emptyMachine (.timer 0 0 0)).isSome = false :=
  ⟨rfl, ⟨_, _, rfl, by decide⟩, by decide⟩

/-- After the first timer interrupt the UART is served. -/
theorem handlers_find_vcpu_redirect :
    ∃ m tr, Lts.exec (step ⟨30, 30000⟩) Lts.anyEvent redirectMachine
        [.timer 0 0 0, .deviceInterrupt 146] = some (m, tr) ∧
      (step ⟨30, 30000⟩ m .injection).isSome = true := by
  obtain ⟨⟨m, tr⟩, hrun⟩ := Option.isSome_iff_exists.mp (show (Lts.exec (step ⟨30, 30000⟩)
    Lts.anyEvent redirectMachine [.timer 0 0 0, .deviceInterrupt 146]).isSome = true by decide)
  refine ⟨m, tr, hrun, ?_⟩
  exact (handlers_find_vcpu (redirectRows.map Prod.fst) _ _ _ hrun (e := .injection) trivial).mpr
    (Or.inl ⟨.timer 0 0 0, List.mem_cons_self, trivial⟩)

end PrplHypervisor
