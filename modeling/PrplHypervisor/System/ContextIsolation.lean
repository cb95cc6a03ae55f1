import PrplHypervisor.System.Cases

/-!
# Guest CP0 registers across context switches

A VCPU that resumes should find each saved register as it left it. Fifteen of the
sixteen do, in every run. `Compare` is saved and never loaded back, so a VCPU finds
whatever the last guest that ran left there.

- `ResumesAsLeft k tr`: element `k` of the save list in every resumption of a trace.
- `resumesAsLeft_of_ne`: the fifteen registers.
- `context_isolation`: all sixteen, in the runs in which no guest changes `Compare`
  while another VCPU waits to resume; the first change of this kind can be followed
  by a switch to that VCPU, which then finds the changed value.
-/

namespace PrplHypervisor

open Machine

variable {n : Nat}

/-! ## Resuming as left -/

/-- The observation is one of a context switch. -/
def isSwitch : Obs n → Bool
  | .preempted _ _ => true
  | .resumed _ _ => true
  | _ => false

/-- Guest registers of VCPU `j` at the last preemption in a trace. -/
def lastPreempted (j : Fin n) (tr : List (Obs n)) : Option (Cp0 → Word) :=
  tr.foldl (fun left o => match o with
    | .preempted i regs => if i = j then some regs else left
    | _ => left) none

/-- Whoever resumes finds element `k` of the save list as it was when it was last
preempted. -/
def ResumesAsLeft (k : Fin 16) (tr : List (Obs n)) : Prop :=
  ∀ pre j regs post left, tr = pre ++ .resumed j regs :: post →
    lastPreempted j pre = some left → regs (savedCp0 k) = left (savedCp0 k)

/-- Whoever resumes finds all sixteen registers as they were. -/
def Isolated (tr : List (Obs n)) : Prop := ∀ k, ResumesAsLeft k tr

section Trace

variable {j : Fin n} {tr : List (Obs n)} {k : Fin 16}

theorem lastPreempted_preempted (i : Fin n) (regs : Cp0 → Word) :
    lastPreempted j (tr ++ [.preempted i regs]) =
      if i = j then some regs else lastPreempted j tr := by
  simp [lastPreempted]

theorem lastPreempted_resumed (i : Fin n) (regs : Cp0 → Word) :
    lastPreempted j (tr ++ [.resumed i regs]) = lastPreempted j tr := by
  simp [lastPreempted]

theorem resumesAsLeft_nil : ResumesAsLeft k ([] : List (Obs n)) := by
  intro pre j regs post left h
  have := congrArg List.length h
  simp at this

/-- The last observation decides, once the ones before it are fine. -/
theorem ResumesAsLeft.snoc (h : ResumesAsLeft k tr) {o : Obs n}
    (ho : ∀ j regs left, o = .resumed j regs → lastPreempted j tr = some left →
      regs (savedCp0 k) = left (savedCp0 k)) : ResumesAsLeft k (tr ++ [o]) := by
  intro pre j regs post left heq hleft
  rcases List.eq_nil_or_concat post with rfl | ⟨post', o', rfl⟩
  · obtain ⟨rfl, hlast⟩ := List.append_inj' heq rfl
    exact ho j regs left (List.singleton_inj.mp hlast) hleft
  · rw [List.concat_eq_append, ← List.cons_append, ← List.append_assoc] at heq
    obtain ⟨hpre, -⟩ := List.append_inj' heq rfl
    exact h pre j regs post' left hpre hleft

/-- Observations that are not of a switch change nothing. -/
theorem lastPreempted_append {os : List (Obs n)} (hos : ∀ o ∈ os, isSwitch o = false) :
    lastPreempted j (tr ++ os) = lastPreempted j tr := by
  unfold lastPreempted
  rw [List.foldl_append]
  generalize List.foldl _ none tr = left
  induction os with
  | nil => rfl
  | cons o os ih =>
    have ho := hos o List.mem_cons_self
    rw [List.foldl_cons]
    cases o with
    | preempted => cases ho
    | resumed => cases ho
    | raised => exact ih fun o' ho' => hos o' (List.mem_cons_of_mem _ ho')
    | taken => exact ih fun o' ho' => hos o' (List.mem_cons_of_mem _ ho')
    | sendReturned => exact ih fun o' ho' => hos o' (List.mem_cons_of_mem _ ho')
    | receiveReturned => exact ih fun o' ho' => hos o' (List.mem_cons_of_mem _ ho')

theorem ResumesAsLeft.append (h : ResumesAsLeft k tr) {os : List (Obs n)}
    (hos : ∀ o ∈ os, isSwitch o = false) : ResumesAsLeft k (tr ++ os) := by
  induction os generalizing tr with
  | nil => rwa [List.append_nil]
  | cons o os ih =>
    rw [← List.singleton_append, ← List.append_assoc]
    refine ih (h.snoc fun j regs left ho _ => ?_) fun o' ho' => hos o' (List.mem_cons_of_mem _ ho')
    have := hos o List.mem_cons_self
    rw [ho] at this
    cases this

/-- A resumption that finds a register changed breaks the trace for good. -/
theorem not_isolated_append {regs left : Cp0 → Word} (hleft : lastPreempted j tr = some left)
    (hne : regs (savedCp0 k) ≠ left (savedCp0 k)) (post : List (Obs n)) :
    ¬ Isolated (tr ++ .resumed j regs :: post) :=
  fun h => hne (h k tr j regs post left rfl hleft)

end Trace

/-! ## The invariant -/

/-- A VCPU that ran before and is not in execution: it was preempted, and its saved
registers are the ones it left. One that never ran was never preempted. -/
structure SavedAsLeft (tr : List (Obs n)) (m : Machine n) : Prop where
  fresh : ∀ j, (m.vcpu j).init = true → lastPreempted j tr = none
  saved : ∀ j, m.executing ≠ some j → (m.vcpu j).init = false →
    ∃ left, lastPreempted j tr = some left ∧
      ∀ k, (m.vcpu j).cp0Registers k = left (savedCp0 k)

/-- `Compare` is what every VCPU waiting to resume left there. -/
def CompareKept (m : Machine n) : Prop :=
  ∀ j, m.executing ≠ some j → (m.vcpu j).init = false →
    (m.vcpu j).cp0Registers 3 = m.cpu.guestCp0 compareReg

variable {m m' : Machine n} {tr os : List (Obs n)} {j t : Fin n} {k : Fin 16}

/-- The trace when a switch has saved the outgoing VCPU. -/
def preemptedTrace (m : Machine n) (tr : List (Obs n)) : List (Obs n) :=
  tr ++ m.executing.toList.map fun i => .preempted i m.cpu.guestCp0

theorem lastPreempted_preemptedTrace :
    lastPreempted j (preemptedTrace m tr) =
      if m.executing = some j then some m.cpu.guestCp0 else lastPreempted j tr := by
  unfold preemptedTrace
  cases hexec : m.executing with
  | none => simp
  | some i =>
    rw [Option.toList_some, List.map_singleton, lastPreempted_preempted]
    simp only [Option.some.injEq]

theorem ResumesAsLeft.preemptedTrace (h : ResumesAsLeft k tr) :
    ResumesAsLeft k (preemptedTrace m tr) := by
  unfold PrplHypervisor.preemptedTrace
  cases m.executing with
  | none => rwa [Option.toList_none, List.map_nil, List.append_nil]
  | some i => exact h.snoc fun j regs left ho => by cases ho

theorem Switched.trace (h : Switched m t m' os) :
    tr ++ os = preemptedTrace m tr ++ [.resumed t m'.cpu.guestCp0] := by
  rw [h.obs, preemptedTrace, List.append_assoc]

/-- What VCPU `t` left is what a switch to it finds in `cp0_registers`. -/
theorem SavedAsLeft.switched (hinv : SavedAsLeft tr m) (h : Switched m t m' os)
    {left : Cp0 → Word} (hleft : lastPreempted t (preemptedTrace m tr) = some left) :
    (m'.vcpu t).cp0Registers k = left (savedCp0 k) := by
  rw [lastPreempted_preemptedTrace] at hleft
  rw [h.cp0Registers]
  by_cases hexec : m.executing = some t
  · rw [if_pos hexec] at hleft ⊢
    rw [← Option.some.inj hleft]
  · rw [if_neg hexec] at hleft ⊢
    cases hinit : (m.vcpu t).init with
    | true =>
      rw [hinv.fresh t hinit] at hleft
      cases hleft
    | false =>
      obtain ⟨left', hleft', hsaved⟩ := hinv.saved t hexec hinit
      rw [hsaved, Option.some.inj (hleft'.symm.trans hleft)]

/-- A switch keeps the books of every VCPU. -/
theorem switched_savedAsLeft (hm : RunsInitialized m) (hinv : SavedAsLeft tr m)
    (h : Switched m t m' os) : SavedAsLeft (tr ++ os) m' := by
  refine ⟨fun j hinit => ?_, fun j hexec hinit => ?_⟩
  · rw [h.trace, lastPreempted_resumed, lastPreempted_preemptedTrace]
    rw [h.init] at hinit
    by_cases hj : j = t
    · rw [if_pos hj] at hinit
      cases hinit
    · rw [if_neg hj] at hinit
      have hout : m.executing ≠ some j := by
        intro hexec
        rw [hm j hexec] at hinit
        cases hinit
      rw [if_neg hout]
      exact hinv.fresh j hinit
  · have hj : j ≠ t := fun he => hexec (he ▸ h.executing)
    rw [h.init, if_neg hj] at hinit
    rw [h.trace, lastPreempted_resumed, lastPreempted_preemptedTrace]
    simp only [h.cp0Registers]
    by_cases hout : m.executing = some j
    · exact ⟨m.cpu.guestCp0, by rw [if_pos hout], fun k => by rw [if_pos hout]⟩
    · simp only [if_neg hout]
      exact hinv.saved j hout hinit

/-- A step without a switch keeps the books, whatever it does to the guest registers. -/
theorem SavedAsLeft.frame (hinv : SavedAsLeft tr m) (hexec : m'.executing = m.executing)
    (hinit : ∀ j, (m'.vcpu j).init = (m.vcpu j).init)
    (hregs : ∀ j, (m'.vcpu j).cp0Registers = (m.vcpu j).cp0Registers)
    (hos : ∀ o ∈ os, isSwitch o = false) : SavedAsLeft (tr ++ os) m' := by
  refine ⟨fun j h => ?_, fun j hj h => ?_⟩
  · rw [hinit] at h
    rw [lastPreempted_append hos]
    exact hinv.fresh j h
  · rw [hexec] at hj
    rw [hinit] at h
    rw [lastPreempted_append hos, hregs]
    exact hinv.saved j hj h

/-! ## Actions -/

/-- Besides a switch, an action changes neither who executes, nor the saved contexts,
nor the guest registers. -/
theorem action_context (h : Action m m' os) :
    (∃ t, Switched m t m' os) ∨
      (m'.executing = m.executing ∧ m'.cpu.guestCp0 = m.cpu.guestCp0 ∧
        (∀ j, (m'.vcpu j).init = (m.vcpu j).init) ∧
        (∀ j, (m'.vcpu j).cp0Registers = (m.vcpu j).cp0Registers) ∧
        ∀ o ∈ os, isSwitch o = false) := by
  cases h with
  | quiet _ h =>
    exact Or.inr ⟨h.executing, h.guestCp0, fun j => by rw [h.vcpu], fun j => by rw [h.vcpu],
      fun o ho => by cases ho⟩
  | switch t _ _ h => exact Or.inl ⟨t, h⟩
  | raiseRunning line =>
    refine Or.inr ⟨rfl, rfl, fun _ => rfl, fun _ => rfl, fun o ho => ?_⟩
    obtain ⟨i, -, rfl⟩ := List.mem_map.mp ho
    rfl
  | raiseSaved i line =>
    refine Or.inr ⟨rfl, rfl, fun j => by rw [raiseSaved_frame],
      fun j => by rw [raiseSaved_frame], fun o ho => ?_⟩
    rw [List.mem_singleton.mp ho]
    rfl
  | refuse self targetId v0 hv0 d =>
    refine Or.inr ⟨rfl, rfl, fun _ => rfl, fun _ => rfl, fun o ho => ?_⟩
    rw [List.mem_singleton.mp ho]
    rfl
  | enqueue self t targetId size src =>
    refine Or.inr ⟨rfl, rfl, fun j => by rw [raiseSaved_frame, enqueue_frame],
      fun j => by rw [raiseSaved_frame, enqueue_frame], fun o ho => ?_⟩
    rcases List.mem_pair.mp ho with rfl | rfl <;> rfl

/-- What a guest's own event does to the books: it may write a register, no more. -/
theorem guest_context {e : Event n} (h : StepCase m e m' os) :
    Actions m m' os ∨
      (m'.executing = m.executing ∧ (∀ j, (m'.vcpu j).init = (m.vcpu j).init) ∧
        (∀ j, (m'.vcpu j).cp0Registers = (m.vcpu j).cp0Registers) ∧
        (∀ o ∈ os, isSwitch o = false) ∧
        ((∃ r w, e = .writeCp0 r w ∧
          m'.cpu.guestCp0 = Function.update m.cpu.guestCp0 r w) ∨
          m'.cpu.guestCp0 = m.cpu.guestCp0)) := by
  cases h with
  | hypervisor _ _ _ h => exact Or.inl h
  | writeCp0 self hself r w =>
    exact Or.inr ⟨rfl, fun _ => rfl, fun _ => rfl, fun o ho => (by cases ho),
      Or.inl ⟨r, w, rfl, rfl⟩⟩
  | takeInterrupt self hself mask _ _ h =>
    have h := takeInterrupt_some h
    refine Or.inr ⟨h.executing, fun j => by rw [h.vcpu], fun j => by rw [h.vcpu], fun o ho => ?_,
      Or.inr h.guestCp0⟩
    rw [h.obs] at ho
    rw [List.mem_singleton.mp ho]
    rfl
  | irqNetwork self hself bufferAddr _ h =>
    obtain ⟨hexec, -, hcpu, -, hvcpu⟩ := irqNetwork_frame h
    exact Or.inr ⟨hexec, fun j => by rw [hvcpu], fun j => by rw [hvcpu], fun o ho => (by cases ho),
      Or.inr (by rw [hcpu])⟩
  | receiveMessage self hself bufsz block _ got h =>
    obtain ⟨hexec, -, hvcpu, hcpu, -⟩ := receiveMessage_frame h
    refine Or.inr ⟨hexec, fun j => by rw [hvcpu], fun j => by rw [hvcpu], fun o ho => ?_,
      Or.inr (by rw [hcpu])⟩
    rw [List.mem_singleton.mp ho]
    rfl

/-! ## The fifteen registers -/

/-- The books are right, and so were all resumptions, element 3 aside. -/
def FifteenKept (tr : List (Obs n)) (m : Machine n) : Prop :=
  RunsInitialized m ∧ SavedAsLeft tr m ∧ ∀ k, k ≠ 3 → ResumesAsLeft k tr

theorem action_fifteenKept (hI : FifteenKept tr m) (h : Action m m' os) :
    FifteenKept (tr ++ os) m' := by
  obtain ⟨hm, hinv, hfine⟩ := hI
  refine ⟨action_runsInitialized h hm, ?_⟩
  rcases action_context h with ⟨t, hsw⟩ | ⟨hexec, -, hinit, hregs, hos⟩
  · refine ⟨switched_savedAsLeft hm hinv hsw, fun k hk => ?_⟩
    rw [hsw.trace]
    refine (hfine k hk).preemptedTrace.snoc ?_
    intro j regs left ho hleft
    obtain ⟨rfl, rfl⟩ := Obs.resumed.inj ho
    rw [hsw.guestCp0, loadCp0_saved _ _ hk]
    exact hinv.switched hsw hleft
  · exact ⟨hinv.frame hexec hinit hregs hos, fun k hk => (hfine k hk).append hos⟩

theorem step_fifteenKept {e : Event n} (hI : FifteenKept tr m) (h : StepCase m e m' os) :
    FifteenKept (tr ++ os) m' := by
  rcases guest_context h with hact | ⟨hexec, hinit, hregs, hos, -⟩
  · exact hact.invariant FifteenKept (fun _ _ _ _ hI ha => action_fifteenKept hI ha) tr hI
  · obtain ⟨hm, hinv, hfine⟩ := hI
    refine ⟨fun i hi => ?_, hinv.frame hexec hinit hregs hos, fun k hk => (hfine k hk).append hos⟩
    rw [hexec] at hi
    rw [hinit]
    exact hm i hi

theorem fifteenKept_of_initial (h₀ : m.Initial) : FifteenKept [] m :=
  ⟨runsInitialized_of_initial h₀, ⟨fun _ _ => rfl, fun j _ hinit => by
    rw [h₀.init] at hinit
    cases hinit⟩, fun _ _ => resumesAsLeft_nil⟩

/-- Every saved register but `Compare` is found as it was left, in every run. -/
theorem resumesAsLeft_of_ne {p : Params} {ok : Machine n → Event n → Prop} {m₀ : Machine n}
    (h₀ : m₀.Initial) (h : Reaches p ok m₀ tr m) (hk : k ≠ 3) : ResumesAsLeft k tr :=
  (h.invariant FifteenKept h₀ (fifteenKept_of_initial h₀)
    fun _ _ _ _ _ _ hI _ hcase => step_fifteenKept hI hcase).2.2 k hk

/-! ## The sixteenth -/

/-- The event does not change `Compare` while another VCPU waits to resume. -/
def CompareUndisturbed (m : Machine n) : Event n → Prop
  | .writeCp0 r w => r = compareReg →
      w = m.cpu.guestCp0 compareReg ∨
        ∀ j, m.executing ≠ some j → (m.vcpu j).init = true
  | _ => True

instance (m : Machine n) : DecidablePred (CompareUndisturbed m)
  | .writeCp0 r w => inferInstanceAs (Decidable (r = compareReg → w = m.cpu.guestCp0 compareReg ∨
      ∀ j, m.executing ≠ some j → (m.vcpu j).init = true))
  | .timer .. | .fastInterrupt _ | .deviceInterrupt _ | .injection | .takeInterrupt _
  | .sendMsg .. | .irqNetwork _ | .receiveMessage .. => .isTrue trivial

/-- All books are right, and so were all resumptions. -/
def SixteenKept (tr : List (Obs n)) (m : Machine n) : Prop :=
  FifteenKept tr m ∧ CompareKept m ∧ ResumesAsLeft 3 tr

theorem switched_compare (h : Switched m t m' os) :
    m'.cpu.guestCp0 compareReg = m.cpu.guestCp0 compareReg := by
  rw [h.guestCp0, loadCp0_compare]

theorem action_sixteenKept (hI : SixteenKept tr m) (h : Action m m' os) :
    SixteenKept (tr ++ os) m' := by
  obtain ⟨h15, hkept, hfine⟩ := hI
  refine ⟨action_fifteenKept h15 h, ?_⟩
  rcases action_context h with ⟨t, hsw⟩ | ⟨hexec, hcp0, hinit, hregs, hos⟩
  · refine ⟨fun j hj hinit => ?_, ?_⟩
    -- whoever is not in execution now was saved now or before
    · have hne : j ≠ t := fun he => hj (he ▸ hsw.executing)
      rw [hsw.init, if_neg hne] at hinit
      rw [hsw.cp0Registers, switched_compare hsw]
      by_cases hout : m.executing = some j
      · rw [if_pos hout]
        rfl
      · rw [if_neg hout]
        exact hkept j hout hinit
    · rw [hsw.trace]
      refine hfine.preemptedTrace.snoc ?_
      intro j regs left ho hleft
      obtain ⟨rfl, rfl⟩ := Obs.resumed.inj ho
      rw [← h15.2.1.switched hsw hleft]
      show m'.cpu.guestCp0 compareReg = _
      rw [switched_compare hsw, hsw.cp0Registers]
      -- the VCPU switched to finds what it left: just now, or at its last preemption
      rw [lastPreempted_preemptedTrace] at hleft
      by_cases hout : m.executing = some t
      · rw [if_pos hout]
        rfl
      · rw [if_neg hout] at hleft ⊢
        cases hinit : (m.vcpu t).init with
        | true =>
          rw [h15.2.1.fresh t hinit] at hleft
          cases hleft
        | false => exact (hkept t hout hinit).symm
  · refine ⟨fun j hj hi => ?_, hfine.append hos⟩
    rw [hexec] at hj
    rw [hinit] at hi
    rw [hregs, hcp0]
    exact hkept j hj hi

theorem step_sixteenKept {e : Event n} (hI : SixteenKept tr m) (hok : CompareUndisturbed m e)
    (h : StepCase m e m' os) : SixteenKept (tr ++ os) m' := by
  have h15 := step_fifteenKept hI.1 h
  rcases guest_context h with hact | ⟨hexec, hinit, hregs, hos, hcp0⟩
  · exact hact.invariant SixteenKept (fun _ _ _ _ hI ha => action_sixteenKept hI ha) tr hI
  · obtain ⟨-, hkept, hfine⟩ := hI
    refine ⟨h15, fun j hj hi => ?_, hfine.append hos⟩
    rw [hexec] at hj
    rw [hinit] at hi
    rw [hregs, hkept j hj hi]
    rcases hcp0 with ⟨r, w, rfl, hwrite⟩ | hsame
    · rw [hwrite]
      by_cases hr : compareReg = r
      · subst hr
        rw [Function.update_self]
        rcases hok rfl with hw | hfresh
        · exact hw.symm
        · rw [hfresh j hj] at hi
          cases hi
      · rw [Function.update_of_ne hr]
    · rw [hsame]

/-- The timer interrupt that finds a pending switch performs it. -/
theorem timer_switch (p : Params) {nd : Node n} (hnext : m.scheduler.nextVcpu = some nd)
    {m₁ : Machine n} (epc : Word) (now later : Nat)
    (hsw : switchTo { m with cpu := { m.cpu with epc := epc } } (some nd) = some (m₁, os)) :
    ∃ m₂ extra, timerInterruptHandler p m epc now later = some (m₂, os ++ extra) := by
  simp only [timerInterruptHandler, runScheduler, hnext, hsw]
  split
  · exact ⟨_, _, rfl⟩
  · exact ⟨_, [], by rw [List.append_nil]⟩

/-- A fast interrupt for a VCPU that is not in execution and the next timer interrupt
switch to it. -/
theorem fast_switch (p : Params) (hm : RunsInitialized m) (hj : m.executing ≠ some j) :
    ∃ m₁ m₂ os extra, Lts.exec (step p) Lts.anyEvent m [.fastInterrupt j, .timer 0 0 0] =
      some (m₂, os ++ extra) ∧ Switched m j m₁ os := by
  have hreq : fastInterruptDelivery m (.own j) =
      { m with scheduler := { m.scheduler with nextVcpu := some (.own j) } } := by
    refine if_neg fun hnd => hj ?_
    rw [Machine.executing, hnd]
    rfl
  obtain ⟨m₁, os, hsw⟩ : ∃ m₁ os, switchTo { m with
      scheduler := { m.scheduler with nextVcpu := some (.own j) }
      cpu := { m.cpu with epc := 0 } } (some (.own j)) = some (m₁, os) := ⟨_, _, rfl⟩
  have hm' : RunsInitialized { m with
      scheduler := { m.scheduler with nextVcpu := some (.own j) }
      cpu := { m.cpu with epc := 0 } } := hm
  obtain ⟨h1, h2, h3, h4, h5, h6, h7, h8, h9, h10⟩ := switchTo_some hm' hsw
  obtain ⟨m₂, extra, htimer⟩ := timer_switch (m := { m with
    scheduler := { m.scheduler with nextVcpu := some (.own j) } }) p rfl 0 0 0 hsw
  refine ⟨m₁, m₂, os, extra, ?_, h1, h2, h3, h4, h5, h6, h7, h8, h9, h10⟩
  simp only [Lts.exec, Lts.anyEvent_eq, if_true, step, hreq, htimer, List.append_nil,
    List.nil_append]

/-- **Context isolation.** In a run in which no guest changes `Compare` while another
VCPU waits to resume, whoever resumes finds all sixteen saved registers as it left
them. A guest event that breaks this condition can be followed by a switch after
which a VCPU does not. -/
theorem context_isolation {p : Params} {m₀ : Machine n} (h₀ : m₀.Initial)
    (h : Reaches p CompareUndisturbed m₀ tr m) :
    Isolated tr ∧
      ∀ e m' os, step p m e = some (m', os) → ¬ CompareUndisturbed m e →
        ∃ es m'' os', Lts.exec (step p) Lts.anyEvent m' es = some (m'', os') ∧
          ¬ Isolated (tr ++ os ++ os') := by
  have hinit : SixteenKept [] m₀ := by
    refine ⟨fifteenKept_of_initial h₀, fun j _ hi => ?_, resumesAsLeft_nil⟩
    rw [h₀.init] at hi
    cases hi
  -- fifteen registers are always kept, and the sixteenth one in runs without a disturbance
  obtain ⟨⟨hm, hinv, h15⟩, hkept, h3⟩ := h.invariant SixteenKept h₀ hinit
    fun _ _ _ _ _ _ hI hok hcase => step_sixteenKept hI hok hcase
  refine ⟨fun k => ?_, fun e m' os hs hbad => ?_⟩
  · by_cases hk : k = 3
    · exact hk ▸ h3
    · exact h15 k hk
  · have hcase := step_cases hm hs
    cases e with
    | writeCp0 r w =>
      simp only [CompareUndisturbed, not_forall, not_or, Bool.not_eq_true] at hbad
      obtain ⟨rfl, hw, j, hj, hi⟩ := hbad
      obtain ⟨left, hleft, hsaved⟩ := hinv.saved j hj hi
      obtain ⟨self, -, heq⟩ := Option.map_eq_some_iff.mp hs
      obtain ⟨rfl, rfl⟩ := Prod.mk.inj heq
      -- a disturbed VCPU is switched to next and finds the other value
      obtain ⟨m₁, m₂, os, extra, hexec, hsw⟩ := fast_switch p (step_runsInitialized hm hs) hj
      refine ⟨_, m₂, _, hexec, ?_⟩
      rw [List.append_nil, ← List.append_assoc, hsw.trace, List.append_assoc,
        List.singleton_append]
      refine not_isolated_append (k := 3) (show lastPreempted j _ = some left from ?_) ?_ extra
      · rw [lastPreempted_preemptedTrace]
        exact (if_neg hj).trans hleft
      · rw [← hsaved 3, hkept j hj hi]
        show m₁.cpu.guestCp0 compareReg ≠ _
        rw [switched_compare hsw]
        exact fun he => hw (by simpa using he)
    | timer => exact absurd trivial hbad
    | fastInterrupt => exact absurd trivial hbad
    | deviceInterrupt => exact absurd trivial hbad
    | injection => exact absurd trivial hbad
    | takeInterrupt => exact absurd trivial hbad
    | sendMsg => exact absurd trivial hbad
    | irqNetwork => exact absurd trivial hbad
    | receiveMessage => exact absurd trivial hbad

/-- `pong` writes `Compare` while `ping` waits to resume: outside the condition, and
`ping` finds the value. -/
theorem compare_leaks_pingPong :
    ∃ tr m, Reaches ⟨1, 30000⟩ Lts.anyEvent pingPongMachine tr m ∧ ¬ Isolated tr := by
  have hrun := Lts.exec_run (show (Lts.exec (step ⟨1, 30000⟩) Lts.anyEvent pingPongMachine
    [.timer 0 0 0, .timer 0 0 0, .writeCp0 compareReg 5, .timer 0 0 0]).isSome = true by decide)
  refine ⟨_, _, hrun, fun h => ?_⟩
  exact absurd (h 3 [_, _, _, _] 0 _ [] _ rfl rfl) (by decide)

/-- Both write `EPC`, and `ping` writes `Compare` before `pong` first runs. -/
theorem context_isolation_pingPong :
    ∃ tr m, Reaches ⟨1, 30000⟩ CompareUndisturbed pingPongMachine tr m ∧
      m.cpu.guestCp0 compareReg = 5 ∧ Isolated tr := by
  have hrun := Lts.exec_run (show (Lts.exec (step ⟨1, 30000⟩) CompareUndisturbed pingPongMachine
    [.timer 0 0 0, .writeCp0 compareReg 5, .writeCp0 (14, 0) 6, .timer 0 0 0,
      .writeCp0 (14, 0) 7, .timer 0 0 0]).isSome = true by decide)
  exact ⟨_, _, hrun, by decide, (context_isolation pingPongMachine_initial hrun).1⟩

end PrplHypervisor
