import PrplHypervisor.System.Interrupts

/-!
# No lost wake-up

A guest learns of a queued message through the inter-VM line only. Its handler takes
the line when it is entered and then fetches; messages it leaves behind need the line
to be raised again. The handler leaves messages behind when its list is full and
after a message of size 0.

- `InterVmPending`, `Notified`: the line is pending; messages wait only with it
  pending or the handler running.
- `Rewakes`: where the handler stops short, the queue is empty or the line has been
  raised again.
- `no_lost_wakeup`: `Notified` in the runs that meet this; the first step that does
  not meet it leads to a state in which a message waits for nothing.
-/

namespace PrplHypervisor

open Machine

variable {n : Nat}

/-- Bit of the inter-VM line in the pending field. -/
def intervmLine : Nat := 1

/-- The inter-VM line of `v` is pending, saved or in `GuestCTL2`. -/
def InterVmPending (v : Fin n) (m : Machine n) : Prop :=
  lineBit intervmLine (m.vcpu v).guestclt2 = true ∨
    (m.executing = some v ∧ lineBit intervmLine m.cpu.guestCtl2 = true)

/-- While the handler of `v` is not running, messages wait with the line pending. -/
def Notified (v : Fin n) (m : Machine n) : Prop :=
  (m.guest v).net = .idle → (m.vcpu v).messages.numMessages ≠ 0 → InterVmPending v m

/-- A message waits, the list of `v` has room for it, and nothing will fetch it. -/
def Stranded (v : Fin n) (m : Machine n) : Prop :=
  (m.guest v).net = .idle ∧ (m.vcpu v).messages.numMessages ≠ 0 ∧
    (m.guest v).messageList.numMessages ≠ messagelistSz ∧ ¬ InterVmPending v m

variable {m m' : Machine n} {tr os : List (Obs n)} {v : Fin n}

theorem pending_iff : (lineOf m tr v intervmLine).Pending ↔ InterVmPending v m := by
  simp [Line.Pending, InterVmPending, lineOf]

theorem lineBit_guestIntervmInt : lineBit intervmLine (gripl guestIntervmInt) = true := by decide

/-! ## The line between two takes -/

/-- The line of `v` is conserved and its messages are announced. -/
structure Announced (v : Fin n) (tr : List (Obs n)) (m : Machine n) : Prop where
  conserved : (lineOf m tr v intervmLine).Conserved
  notified : Notified v m

/-- Operations on the line that do not take it leave it pending. -/
theorem pending_of_steps
    (h : Line.Steps (lineOf m tr v intervmLine) (lineOf m' (tr ++ os) v intervmLine))
    (hl : (lineOf m tr v intervmLine).Conserved) (hos : ∀ o ∈ os, takes v intervmLine o = false)
    (hp : InterVmPending v m) : InterVmPending v m' := by
  have hserv : (lineOf m' (tr ++ os) v intervmLine).services =
      (lineOf m tr v intervmLine).services := by
    show (tr ++ os).countP _ = tr.countP _
    have hzero : os.countP (takes v intervmLine) = 0 :=
      List.countP_eq_zero.mpr fun o ho => by rw [hos o ho]; decide
    rw [List.countP_append, hzero, Nat.add_zero]
  exact pending_iff.mp (h.pending_mono hl hserv (pending_iff.mpr hp))

/-- A step that takes nothing, starts no idle handler and queues nothing for `v`. -/
theorem Announced.frame (h : Announced v tr m)
    (hline : Line.Steps (lineOf m tr v intervmLine) (lineOf m' (tr ++ os) v intervmLine))
    (hos : ∀ o ∈ os, takes v intervmLine o = false)
    (hnet : (m'.guest v).net = .idle → (m.guest v).net = .idle)
    (hqueue : (m'.vcpu v).messages.numMessages ≠ 0 → (m.vcpu v).messages.numMessages ≠ 0) :
    Announced v (tr ++ os) m' where
  conserved := hline.conserved h.conserved
  notified hidle hwait :=
    pending_of_steps hline h.conserved hos (h.notified (hnet hidle) (hqueue hwait))

theorem action_announced (hI : Announced v tr m) (h : Action m m' os) :
    Announced v (tr ++ os) m' := by
  have hline : Line.Steps (lineOf m tr v intervmLine) (lineOf m' (tr ++ os) v intervmLine) :=
    action_line (by decide) h
  cases h with
  | quiet _ h =>
    exact hI.frame hline (fun o ho => by cases ho) (by rw [h.guest]; exact id)
      (by rw [h.vcpu]; exact id)
  | switch t _ _ h =>
    refine hI.frame hline (fun o ho => (h.irrelevant o ho).2) (by rw [h.guest]; exact id) ?_
    rw [h.messages]
    exact id
  | raiseRunning line =>
    refine hI.frame hline (fun o ho => ?_) id id
    obtain ⟨i, -, rfl⟩ := List.mem_map.mp ho
    rfl
  | raiseSaved i line =>
    refine hI.frame hline (fun o ho => ?_) id (by rw [raiseSaved_frame]; exact id)
    rw [List.mem_singleton.mp ho]
    rfl
  | refuse self targetId v0 hv0 d =>
    refine hI.frame hline (fun o ho => ?_) id id
    rw [List.mem_singleton.mp ho]
    rfl
  | enqueue self t targetId size src =>
    by_cases hv : v = t
    · -- whoever waited before, the line is raised now
      refine ⟨hline.conserved hI.conserved, fun _ _ => Or.inl ?_⟩
      rw [raiseSaved_guestclt2, if_pos hv, lineBit_or, lineBit_guestIntervmInt, Bool.or_true]
    · refine hI.frame hline (fun o ho => ?_) id ?_
      · rcases List.mem_pair.mp ho with rfl | rfl <;> rfl
      · rw [raiseSaved_frame, enqueue_messages, if_neg hv]
        exact id

/-! ## The handler -/

/-- Where the handler of `v` stops on a full list or after a message of size 0, its
queue is empty or the line is pending again. -/
def Rewakes (v : Fin n) (m : Machine n) : Event n → Prop
  | .irqNetwork _ => m.executing = some v → Stops (m.guest v) →
      (m.vcpu v).messages.numMessages = 0 ∨ InterVmPending v m
  | _ => True

theorem irqNetwork_announced {self : Fin n} {bufferAddr : Nat}
    (hok : self = v → Stops (m.guest v) →
      (m.vcpu v).messages.numMessages = 0 ∨ InterVmPending v m)
    (hline : Line.Steps (lineOf m tr v intervmLine) (lineOf m' (tr ++ []) v intervmLine))
    (hI : Announced v tr m) (h : irqNetwork m self bufferAddr = some m') :
    Announced v (tr ++ []) m' := by
  have hpending := pending_of_steps hline hI.conserved fun o ho => by cases ho
  by_cases hself : self = v
  · subst hself
    refine ⟨hline.conserved hI.conserved, fun hidle hwait => hpending ?_⟩
    cases irqNetwork_cases h with
    | stop hstop => exact (hok rfl hstop).resolve_left hwait
    | enter =>
      rw [setGuest_guest_self] at hidle
      cases hidle
    | empty ret inIdx hnet hroom hempty => exact absurd hempty hwait
    | fetch =>
      rw [setGuest_guest_self] at hidle
      cases hidle
  · refine hI.frame hline (fun o ho => by cases ho) ?_ ?_
    · rw [(irqNetwork_frame h).2.2.2.1 v (Ne.symm hself)]
      exact id
    · cases irqNetwork_cases h with
      | stop => exact id
      | enter => exact id
      | empty => exact id
      | fetch =>
        rw [setGuest_vcpu, setVcpu_vcpu_of_ne _ (Ne.symm hself)]
        exact id

theorem step_announced {e : Event n} (hI : Announced v tr m) (hok : Rewakes v m e)
    (h : StepCase m e m' os) : Announced v (tr ++ os) m' := by
  have hline : Line.Steps (lineOf m tr v intervmLine) (lineOf m' (tr ++ os) v intervmLine) :=
    step_line (by decide) h
  cases h with
  | hypervisor _ _ _ h =>
    exact h.invariant (Announced v) (fun _ _ _ _ hI ha => action_announced hI ha) tr hI
  | writeCp0 => exact hI.frame hline (fun o ho => by cases ho) id id
  | takeInterrupt self hself mask _ _ h =>
    -- what matters is whether the guest itself takes the inter-VM line
    have h := takeInterrupt_some h
    by_cases hv : self = v
    · subst hv
      by_cases hnet : m.cpu.guestCtl2 &&& mask &&& gripl guestIntervmInt = 0
      · -- the inter-VM line is not among the lines taken
        have hbit : lineBit intervmLine (m.cpu.guestCtl2 &&& mask) = false := by
          have := congrArg (lineBit intervmLine) hnet
          rw [lineBit_zero] at this
          rw [lineBit, BitVec.getLsbD_and] at this
          rw [← lineBit, ← lineBit, lineBit_guestIntervmInt, Bool.and_true] at this
          exact this
        refine hI.frame hline (fun o ho => ?_) (fun _ => h.idle) (by rw [h.vcpu]; exact id)
        rw [h.obs] at ho
        rw [List.mem_singleton.mp ho, takes, hbit, Bool.and_false]
      · -- the guest has entered the handler, so it does not sleep
        refine ⟨hline.conserved hI.conserved, fun hidle => ?_⟩
        rw [h.net, if_pos hnet] at hidle
        cases hidle
    · refine hI.frame hline (fun o ho => ?_) ?_ (by rw [h.vcpu]; exact id)
      · rw [h.obs] at ho
        rw [List.mem_singleton.mp ho, takes, decide_eq_false hv, Bool.false_and]
      · rw [h.guest_of_ne v (Ne.symm hv)]
        exact id
  | irqNetwork self hself bufferAddr _ h =>
    exact irqNetwork_announced (fun hv => hok (hv ▸ hself)) hline hI h
  | receiveMessage self hself bufsz block _ got h =>
    obtain ⟨hidle, hcase⟩ := receiveMessage_cases h
    obtain ⟨-, -, hvcpu, -, hguest⟩ := receiveMessage_frame h
    refine hI.frame hline (fun o ho => ?_) (fun hnet => ?_) (by rw [hvcpu]; exact id)
    · rw [List.mem_singleton.mp ho]
      rfl
    · by_cases hv : v = self
      · rw [hv]
        exact hidle
      · rwa [hguest v hv] at hnet

/-! ## Runs -/

/-- With the list full and nothing pending, taking one message makes room that nothing
fills. -/
theorem stranded_of_full (p : Params) (hself : m.executing = some v)
    (hidle : (m.guest v).net = .idle) (hwait : (m.vcpu v).messages.numMessages ≠ 0)
    (hfull : (m.guest v).messageList.numMessages = messagelistSz) (hno : ¬ InterVmPending v m) :
    ∃ m' os, Lts.exec (step p) Lts.anyEvent m [.receiveMessage messageSz false] = some (m', os) ∧
      Stranded v m' := by
  obtain ⟨got, hrecv⟩ := receiveMessage_returns messageSz false hidle (by rw [hfull]; decide)
  refine ⟨m.setGuest v { m.guest v with messageList := (m.guest v).messageList.pop },
    [.receiveReturned v got], ?_, ?_, hwait, ?_, hno⟩
  · simp only [Lts.exec, Lts.anyEvent_eq, if_true, step, hself, Option.bind_some, hrecv,
      Option.map_some, List.append_nil]
  · rw [setGuest_guest_self]
    exact hidle
  · rw [setGuest_guest_self]
    simp only [MessageBuffer.pop, hfull]
    decide

/-- What a handler that stops short leaves behind. -/
theorem stranded_of_stop {p : Params} {bufferAddr : Nat}
    (hs : step p m (.irqNetwork bufferAddr) = some (m', os))
    (hbad : ¬ Rewakes v m (.irqNetwork bufferAddr)) :
    ∃ es m'' os', Lts.exec (step p) Lts.anyEvent m' es = some (m'', os') ∧ Stranded v m'' := by
  simp only [Rewakes, Classical.not_imp, not_or] at hbad
  obtain ⟨hself, hstop, hwait, hno⟩ := hbad
  obtain ⟨self, hself', hnet⟩ := Option.bind_eq_some_iff.mp hs
  obtain rfl : v = self := Option.some.inj (hself.symm.trans hself')
  rw [irqNetwork_stops bufferAddr hstop] at hnet
  obtain ⟨rfl, rfl⟩ := Prod.mk.inj (Option.some.inj hnet)
  have hguest := setGuest_guest_self m v { m.guest v with net := .idle }
  by_cases hfull : (m.guest v).messageList.numMessages = messagelistSz
  · exact ⟨_, stranded_of_full p hself (by rw [hguest]) hwait (by rw [hguest]; exact hfull) hno⟩
  · exact ⟨[], _, _, rfl, by rw [hguest], hwait, by rw [hguest]; exact hfull, hno⟩

/-- **No lost wake-up.** In every run in which the handler of `v` leaves messages behind
only with the inter-VM line pending, messages wait for `v` only with the line pending
or the handler running. The first step that breaks the condition can be followed to a
state in which a message waits, the list has room and nothing is pending. -/
theorem no_lost_wakeup {p : Params} {m₀ : Machine n} (h₀ : m₀.Initial) (v : Fin n)
    (h : Reaches p (Rewakes v) m₀ tr m) :
    ¬ Stranded v m ∧
      ∀ e m' os, step p m e = some (m', os) → ¬ Rewakes v m e →
        ∃ es m'' os', Lts.exec (step p) Lts.anyEvent m' es = some (m'', os') ∧
          Stranded v m'' := by
  have hinit : Announced v [] m₀ := by
    refine ⟨lines_conserved h₀ (.nil : Reaches p Lts.anyEvent m₀ [] m₀) (by decide), ?_⟩
    intro _ hwait
    rw [h₀.messages] at hwait
    exact absurd rfl hwait
  have hI := h.invariant (Announced v) h₀ hinit
    fun _ _ _ _ _ _ hI hok hcase => step_announced hI hok hcase
  refine ⟨fun ⟨hidle, hwait, _, hno⟩ => hno (hI.notified hidle hwait), fun e m' os hs hbad => ?_⟩
  cases e with
  | irqNetwork bufferAddr => exact stranded_of_stop hs hbad
  | timer => exact absurd trivial hbad
  | fastInterrupt => exact absurd trivial hbad
  | deviceInterrupt => exact absurd trivial hbad
  | injection => exact absurd trivial hbad
  | writeCp0 => exact absurd trivial hbad
  | takeInterrupt => exact absurd trivial hbad
  | sendMsg => exact absurd trivial hbad
  | receiveMessage => exact absurd trivial hbad

instance (v : Fin n) (m : Machine n) : Decidable (InterVmPending v m) :=
  inferInstanceAs (Decidable (_ ∨ _))

instance (v : Fin n) (m : Machine n) : Decidable (Stranded v m) :=
  inferInstanceAs (Decidable (_ ∧ _))

instance (v : Fin n) : DecidableRel (Rewakes v)
  | m, .irqNetwork _ => inferInstanceAs (Decidable (m.executing = some v → Stops (m.guest v) →
      (m.vcpu v).messages.numMessages = 0 ∨ InterVmPending v m))
  | _, .timer .. | _, .fastInterrupt _ | _, .deviceInterrupt _ | _, .injection | _, .takeInterrupt _
  | _, .sendMsg .. | _, .writeCp0 .. | _, .receiveMessage .. => .isTrue trivial

/-- `ping` sends an empty message and one of a byte; `pong` fetches the first and stops. -/
theorem stranded_pingPong :
    ∃ tr m, Reaches ⟨1, 30000⟩ Lts.anyEvent pingPongMachine tr m ∧ Stranded 1 m := by
  have hrun := Lts.exec_run (show (Lts.exec (step ⟨1, 30000⟩) Lts.anyEvent pingPongMachine
    [.timer 0 0 0, .timer 0 0 0, .timer 0 0 0, .sendMsg 2 0 (fun _ => 0),
      .sendMsg 2 1 (fun _ => 8), .timer 0 0 0, .takeInterrupt (gripl guestIntervmInt),
      .irqNetwork 0, .irqNetwork 0, .irqNetwork 0]).isSome = true by decide)
  exact ⟨_, _, hrun, by decide⟩

/-- The same with the messages the other way round: the handler stops on an empty
queue. -/
theorem no_lost_wakeup_pingPong :
    ∃ tr m, Reaches ⟨1, 30000⟩ (Rewakes 1) pingPongMachine tr m ∧
      (m.guest 1).messageList.numMessages = 2 ∧ ¬ Stranded 1 m := by
  have hrun := Lts.exec_run (show (Lts.exec (step ⟨1, 30000⟩) (Rewakes 1) pingPongMachine
    [.timer 0 0 0, .timer 0 0 0, .timer 0 0 0, .sendMsg 2 1 (fun _ => 8),
      .sendMsg 2 0 (fun _ => 0), .timer 0 0 0, .takeInterrupt (gripl guestIntervmInt),
      .irqNetwork 0, .irqNetwork 0, .irqNetwork 0, .irqNetwork 0]).isSome = true by decide)
  exact ⟨_, _, hrun, by decide, (no_lost_wakeup pingPongMachine_initial 1 hrun).1⟩

end PrplHypervisor
