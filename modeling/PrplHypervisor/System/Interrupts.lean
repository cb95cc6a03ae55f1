import PrplHypervisor.Lib.PendingLine
import PrplHypervisor.System.Cases

/-!
# Virtual interrupts are conserved

A line of `GuestCTL2` is pending for a VCPU in one of two places: its saved word, or
the register while it executes. The hypervisor raises lines in either place, a
context switch moves them, a guest takes them from the register only.

- `lineOf`: one line of one VCPU as a two-place pending line, counting from the
  trace how often it was raised and taken.
- `step_line`: every step acts on it by the operations of such a line.
- `interrupts_conserved`: hence, after every run, a line raised and not taken since
  is pending, and what is pending or was taken was raised for that VCPU.
-/

namespace PrplHypervisor

open Machine

variable {n : Nat}

/-! ## A line and its history -/

/-- Bit of line `k` in a `GuestCTL2` value. -/
def lineBit (k : Nat) (w : Word) : Bool := w.getLsbD (guestclt2GriplShift + k)

/-- The observation raises line `k` of VCPU `j`. -/
def raises (j : Fin n) (k : Nat) : Obs n → Bool
  | .raised i line => decide (i = j) && line.testBit k
  | _ => false

/-- The observation takes line `k` of VCPU `j`. -/
def takes (j : Fin n) (k : Nat) : Obs n → Bool
  | .taken i lines => decide (i = j) && lineBit k lines
  | _ => false

/-- The last of these two things that happened to line `k` of VCPU `j` is that it was
raised. -/
def owed (j : Fin n) (k : Nat) (tr : List (Obs n)) : Bool :=
  tr.foldl (fun b o => if raises j k o then true else if takes j k o then false else b) false

/-- Line `k` of VCPU `j`, with its history. -/
def lineOf (m : Machine n) (tr : List (Obs n)) (j : Fin n) (k : Nat) : Line where
  saved := lineBit k (m.vcpu j).guestclt2
  live := decide (m.executing = some j) && lineBit k m.cpu.guestCtl2
  running := decide (m.executing = some j)
  requests := tr.countP (raises j k)
  services := tr.countP (takes j k)
  owed := owed j k tr

theorem lineBit_or (k : Nat) (v w : Word) : lineBit k (v ||| w) = (lineBit k v || lineBit k w) :=
  BitVec.getLsbD_or

theorem lineBit_zero (k : Nat) : lineBit k 0 = false := BitVec.getLsbD_zero

/-- Lines below `0x100` fit the pending field. -/
theorem lineBit_gripl {k : Nat} (hk : k < 8) (line : Nat) :
    lineBit k (gripl line) = line.testBit k := by
  have h32 : guestclt2GriplShift + k < 32 := by
    simp only [guestclt2GriplShift]
    omega
  rw [lineBit, gripl, BitVec.getLsbD_ofNat, Nat.testBit_shiftLeft]
  simp [h32]

/-! ## Observations that are about other things -/

/-- The observation neither raises nor takes line `k` of VCPU `j`. -/
def Irrelevant (j : Fin n) (k : Nat) (o : Obs n) : Prop :=
  raises j k o = false ∧ takes j k o = false

/-- A machine change that leaves both places alone, with irrelevant observations,
leaves the line alone. -/
theorem lineOf_eq {m m' : Machine n} {tr os : List (Obs n)} {j : Fin n} {k : Nat}
    (hexec : m'.executing = m.executing)
    (hsaved : lineBit k (m'.vcpu j).guestclt2 = lineBit k (m.vcpu j).guestclt2)
    (hlive : m.executing = some j → lineBit k m'.cpu.guestCtl2 = lineBit k m.cpu.guestCtl2)
    (hos : ∀ o ∈ os, Irrelevant j k o) : lineOf m' (tr ++ os) j k = lineOf m tr j k := by
  have hreq : os.countP (raises j k) = 0 :=
    List.countP_eq_zero.mpr fun o ho => by rw [(hos o ho).1]; decide
  have hserv : os.countP (takes j k) = 0 :=
    List.countP_eq_zero.mpr fun o ho => by rw [(hos o ho).2]; decide
  have howed : owed j k (tr ++ os) = owed j k tr := by
    unfold owed
    rw [List.foldl_append]
    clear hreq hserv
    generalize List.foldl _ false tr = b
    -- an observation that is irrelevant leaves the debt as it is
    induction os generalizing b with
    | nil => rfl
    | cons o os ih =>
      obtain ⟨hr, ht⟩ := hos o List.mem_cons_self
      rw [List.foldl_cons, ih fun o' ho' => hos o' (List.mem_cons_of_mem _ ho')]
      simp [hr, ht]
  unfold lineOf
  rw [hexec, hsaved, List.countP_append, List.countP_append, hreq, hserv, howed, Nat.add_zero,
    Nat.add_zero]
  congr 1
  by_cases hj : m.executing = some j
  · rw [hlive hj]
  · simp [hj]

variable {m m' : Machine n} {tr os : List (Obs n)} {j : Fin n} {k : Nat}

/-- The same change as an empty sequence of operations. -/
theorem unchanged_line (hexec : m'.executing = m.executing)
    (hsaved : lineBit k (m'.vcpu j).guestclt2 = lineBit k (m.vcpu j).guestclt2)
    (hlive : m.executing = some j → lineBit k m'.cpu.guestCtl2 = lineBit k m.cpu.guestCtl2)
    (hos : ∀ o ∈ os, Irrelevant j k o) :
    Line.Steps (lineOf m tr j k) (lineOf m' (tr ++ os) j k) := by
  rw [lineOf_eq hexec hsaved hlive hos]

/-! ## Each action is an operation -/

/-- Observations of a switch concern registers only. -/
theorem Switched.irrelevant {t : Fin n} (h : Switched m t m' os) :
    ∀ o ∈ os, Irrelevant j k o := by
  rw [h.obs]
  intro o ho
  rcases List.mem_append.mp ho with ho | ho
  · obtain ⟨i, -, rfl⟩ := List.mem_map.mp ho
    exact ⟨rfl, rfl⟩
  · rw [List.mem_singleton.mp ho]
    exact ⟨rfl, rfl⟩

/-- A switch stops the line of the outgoing VCPU and starts the line of the target. -/
theorem switch_line {t : Fin n} (h : Switched m t m' os) :
    Line.Steps (lineOf m tr j k) (lineOf m' (tr ++ os) j k) := by
  -- the history does not change, so compare the bits
  have hhist : lineOf m (tr ++ os) j k = lineOf m tr j k :=
    lineOf_eq rfl rfl (fun _ => rfl) h.irrelevant
  have hreq := congrArg Line.requests hhist
  have hserv := congrArg Line.services hhist
  have howed := congrArg Line.owed hhist
  simp only [lineOf] at hreq hserv howed
  have hline : lineOf m' (tr ++ os) j k = { lineOf m tr j k with
      saved := lineBit k (m'.vcpu j).guestclt2
      live := decide (t = j) && lineBit k m'.cpu.guestCtl2
      running := decide (t = j) } := by
    simp only [lineOf, h.executing, hreq, hserv, howed, Option.some.injEq]
  rw [hline]
  by_cases hj : m.executing = some j
  · have hstop := Line.Op.stop (lineOf m tr j k) (by simp [lineOf, hj])
    by_cases ht : t = j
    · have hstart := Line.Op.start { lineOf m tr j k with
        saved := (lineOf m tr j k).saved || (lineOf m tr j k).live
        live := false
        running := false } rfl
      have hsaved : lineBit k (m'.vcpu j).guestclt2 = false := by
        rw [h.guestclt2, if_pos ht.symm, lineBit_zero]
      have hlive : lineBit k m'.cpu.guestCtl2 =
          ((lineOf m tr j k).saved || (lineOf m tr j k).live) := by
        rw [h.guestCtl2, ht, if_pos hj, lineBit_or]
        simp [lineOf, hj]
      rw [hsaved, hlive]
      simpa [ht] using (Relation.ReflTransGen.single hstop).tail hstart
    · have hsaved : lineBit k (m'.vcpu j).guestclt2 =
          ((lineOf m tr j k).saved || (lineOf m tr j k).live) := by
        rw [h.guestclt2, if_neg (Ne.symm ht), if_pos hj, lineBit_or]
        simp [lineOf, hj]
      rw [hsaved]
      simpa [ht] using Relation.ReflTransGen.single hstop
  · have hlive : (lineOf m tr j k).live = false := by simp [lineOf, hj]
    have hrun : (lineOf m tr j k).running = false := by simp [lineOf, hj]
    by_cases ht : t = j
    · have hstart := Line.Op.start (lineOf m tr j k) hrun
      have hsaved : lineBit k (m'.vcpu j).guestclt2 = false := by
        rw [h.guestclt2, if_pos ht.symm, lineBit_zero]
      have hlive' : lineBit k m'.cpu.guestCtl2 = (lineOf m tr j k).saved := by
        rw [h.guestCtl2, ht, if_neg hj]
        rfl
      rw [hsaved, hlive']
      simpa [ht] using Relation.ReflTransGen.single hstart
    · have hsaved : lineBit k (m'.vcpu j).guestclt2 = (lineOf m tr j k).saved := by
        rw [h.guestclt2, if_neg (Ne.symm ht), if_neg hj]
        rfl
      have hsame : ∀ l : Line, l.live = false → l.running = false →
          { l with live := false, running := false } = l := by
        rintro ⟨saved, live, running, requests, services, owed⟩ rfl rfl
        rfl
      rw [hsaved]
      simp only [ht, decide_false, Bool.false_and]
      rw [hsame _ hlive hrun]

/-- One more observation. -/
theorem lineOf_snoc (m : Machine n) (tr : List (Obs n)) (o : Obs n) (j : Fin n) (k : Nat) :
    lineOf m (tr ++ [o]) j k = { lineOf m tr j k with
      requests := tr.countP (raises j k) + (raises j k o).toNat
      services := tr.countP (takes j k) + (takes j k o).toNat
      owed := if raises j k o then true else if takes j k o then false else owed j k tr } := by
  have hcount : ∀ f : Obs n → Bool, (tr ++ [o]).countP f = tr.countP f + (f o).toNat := by
    intro f
    rw [List.countP_append, List.countP_singleton]
    cases f o <;> rfl
  simp only [lineOf, hcount, owed, List.foldl_append, List.foldl_cons, List.foldl_nil]

/-- A raised line is requested, wherever its bit is put. -/
theorem raised_line {i : Fin n} {line : Nat} (hexec : m'.executing = m.executing)
    (hbits : i = j → line.testBit k = true →
      (lineBit k (m'.vcpu j).guestclt2 = true ∧ m'.cpu.guestCtl2 = m.cpu.guestCtl2) ∨
      (m.executing = some j ∧ lineBit k m'.cpu.guestCtl2 = true ∧ m'.vcpu j = m.vcpu j))
    (hother : i ≠ j ∨ line.testBit k = false →
      lineBit k (m'.vcpu j).guestclt2 = lineBit k (m.vcpu j).guestclt2 ∧
        (m.executing = some j → lineBit k m'.cpu.guestCtl2 = lineBit k m.cpu.guestCtl2)) :
    Line.Steps (lineOf m tr j k) (lineOf m' (tr ++ [.raised i line]) j k) := by
  by_cases hi : i = j
  · cases hline : line.testBit k with
    | true =>
      have hraises : raises j k (.raised i line) = true := by simp [raises, hi, hline]
      have htakes : takes j k (.raised i line) = false := rfl
      rw [lineOf_snoc, hraises, htakes]
      rcases hbits hi hline with ⟨hsaved, hlive⟩ | ⟨hrun, hlive, hvcpu⟩
      -- the request goes to the saved register, or to the live one of the VCPU in execution
      · refine Relation.ReflTransGen.single ?_
        have hop := Line.Op.requestSaved (lineOf m tr j k)
        simpa [lineOf, hexec, hsaved, hlive] using hop
      · refine Relation.ReflTransGen.single ?_
        have hop := Line.Op.requestLive (lineOf m tr j k) (by simp [lineOf, hrun])
        simpa [lineOf, hexec, hrun, hlive, hvcpu] using hop
    | false =>
      obtain ⟨hsaved, hlive⟩ := hother (Or.inr hline)
      exact unchanged_line hexec hsaved hlive fun o ho => by
        rw [List.mem_singleton.mp ho]
        exact ⟨by simp [raises, hline], rfl⟩
  · obtain ⟨hsaved, hlive⟩ := hother (Or.inl hi)
    exact unchanged_line hexec hsaved hlive fun o ho => by
      rw [List.mem_singleton.mp ho]
      exact ⟨by simp [raises, hi], rfl⟩

theorem raiseSaved_line (hk : k < 8) (i : Fin n) (line : Nat) :
    Line.Steps (lineOf m tr j k) (lineOf (raiseSaved m i line) (tr ++ [.raised i line]) j k) := by
  refine raised_line rfl (fun hi hline => Or.inl ⟨?_, rfl⟩) fun hno => ⟨?_, fun _ => rfl⟩
  · rw [raiseSaved_guestclt2, if_pos hi.symm, lineBit_or, lineBit_gripl hk, hline, Bool.or_true]
  · rw [raiseSaved_guestclt2]
    split
    case isTrue hi =>
      have hline : line.testBit k = false := hno.resolve_left (not_not.mpr hi.symm)
      rw [lineBit_or, lineBit_gripl hk, hline, Bool.or_false]
    case isFalse => rfl

theorem raiseRunning_line (hk : k < 8) (line : Nat) :
    Line.Steps (lineOf m tr j k) (lineOf (raiseRunning m line)
      (tr ++ m.executing.toList.map fun i => .raised i line) j k) := by
  cases hexec : m.executing with
  | none =>
    have hno : m.executing ≠ some j := by simp [hexec]
    exact unchanged_line rfl rfl (fun h => absurd h hno) fun o ho => by cases ho
  | some i =>
    refine raised_line rfl (fun hi hline => Or.inr ⟨hi ▸ hexec, ?_, rfl⟩)
      fun hno => ⟨rfl, fun hj => ?_⟩
    · rw [raiseRunning, lineBit_or, lineBit_gripl hk, hline, Bool.or_true]
    · have hi : i = j := Option.some.inj (hexec.symm.trans hj)
      have hline : line.testBit k = false := hno.resolve_left (not_not.mpr hi)
      rw [raiseRunning, lineBit_or, lineBit_gripl hk, hline, Bool.or_false]

/-- Every action of the hypervisor operates on each line as on a two-place line. -/
theorem action_line (hk : k < 8) (h : Action m m' os) :
    Line.Steps (lineOf m tr j k) (lineOf m' (tr ++ os) j k) := by
  cases h with
  | quiet _ h =>
    exact unchanged_line h.executing (by rw [h.vcpu]) (fun _ => by rw [h.guestCtl2])
      fun o ho => by cases ho
  | switch t _ _ h => exact switch_line h
  | raiseRunning line => exact raiseRunning_line hk line
  | raiseSaved i line => exact raiseSaved_line hk i line
  | refuse self targetId v0 hv0 d =>
    exact unchanged_line rfl rfl (fun _ => rfl) fun o ho => by
      rw [List.mem_singleton.mp ho]
      exact ⟨rfl, rfl⟩
  | enqueue self t targetId size src =>
    have hqueued : Line.Steps (lineOf m tr j k) (lineOf (enqueue m self t size src)
        (tr ++ [.sendReturned self targetId size (sentDelivery (m.vm self).id size src)]) j k) :=
      unchanged_line rfl (by rw [enqueue_frame]) (fun _ => rfl) fun o ho => by
        rw [List.mem_singleton.mp ho]
        exact ⟨rfl, rfl⟩
    rw [← List.singleton_append, ← List.append_assoc]
    exact hqueued.trans (raiseSaved_line hk t guestIntervmInt)

theorem actions_line (hk : k < 8) (h : Actions m m' os) :
    Line.Steps (lineOf m tr j k) (lineOf m' (tr ++ os) j k) :=
  h.invariant (fun tr' m' => Line.Steps (lineOf m tr j k) (lineOf m' tr' j k))
    (fun _ _ _ _ hI ha => hI.trans (action_line hk ha)) tr Relation.ReflTransGen.refl

/-! ## Taking a line -/

/-- A guest that takes pending lines serves each of them. -/
theorem taken_line {i : Fin n} {mask : Word} (hk : k < 8) (hself : m.executing = some i)
    (h : Taken m i mask m' os) :
    Line.Steps (lineOf m tr j k) (lineOf m' (tr ++ os) j k) := by
  have h32 : guestclt2GriplShift + k < 32 := by
    simp only [guestclt2GriplShift]
    omega
  -- the bit is taken if it is set and asked for, and stays if it is set and not asked for
  have hand : lineBit k (m.cpu.guestCtl2 &&& mask) =
      (lineBit k m.cpu.guestCtl2 && lineBit k mask) := BitVec.getLsbD_and
  have hleft : lineBit k (m.cpu.guestCtl2 &&& ~~~mask) =
      (lineBit k m.cpu.guestCtl2 && !lineBit k mask) := by
    simp only [lineBit, BitVec.getLsbD_and, BitVec.getLsbD_not, h32, decide_true, Bool.true_and]
  rw [h.obs]
  by_cases hj : i = j ∧ lineBit k (m.cpu.guestCtl2 &&& mask) = true
  · obtain ⟨rfl, hbit⟩ := hj
    have hbits : lineBit k m.cpu.guestCtl2 = true ∧ lineBit k mask = true := by
      simpa [hand] using hbit
    have htakes : takes i k (.taken i (m.cpu.guestCtl2 &&& mask)) = true := by simp [takes, hbit]
    have hraises : raises i k (.taken i (m.cpu.guestCtl2 &&& mask)) = false := rfl
    have hop := Line.Op.serve (lineOf m tr i k) (by simp [lineOf, hself, hbits.1])
    refine Relation.ReflTransGen.single ?_
    rw [lineOf_snoc, hraises, htakes]
    simpa [lineOf, h.executing, h.vcpu, h.guestCtl2, hleft, hbits] using hop
  · refine unchanged_line h.executing (by rw [h.vcpu]) (fun hexec => ?_) fun o ho => ?_
    · have hi : i = j := Option.some.inj (hself.symm.trans hexec)
      have hno : lineBit k (m.cpu.guestCtl2 &&& mask) = false :=
        Bool.eq_false_iff.mpr fun hbit => hj ⟨hi, hbit⟩
      rw [h.guestCtl2, hleft]
      rw [hand] at hno
      cases hc : lineBit k m.cpu.guestCtl2 with
      | false => rfl
      | true =>
        rw [hc, Bool.true_and] at hno
        rw [hno]
        rfl
    · rw [List.mem_singleton.mp ho]
      refine ⟨rfl, ?_⟩
      simpa [takes] using hj

/-- Every event operates on each line as on a two-place line. -/
theorem step_line {e : Event n} (hk : k < 8) (h : StepCase m e m' os) :
    Line.Steps (lineOf m tr j k) (lineOf m' (tr ++ os) j k) := by
  cases h with
  | hypervisor _ _ _ h => exact actions_line hk h
  | writeCp0 self hself r w =>
    exact unchanged_line rfl rfl (fun _ => rfl) fun o ho => by cases ho
  | takeInterrupt self hself mask _ _ h => exact taken_line hk hself (takeInterrupt_some h)
  | irqNetwork self hself bufferAddr _ h =>
    obtain ⟨hexec, -, hcpu, -, hvcpu⟩ := irqNetwork_frame h
    exact unchanged_line hexec (by rw [hvcpu]) (fun _ => by rw [hcpu]) fun o ho => by cases ho
  | receiveMessage self hself bufsz block _ got h =>
    obtain ⟨hexec, -, hvcpu, hcpu, -⟩ := receiveMessage_frame h
    exact unchanged_line hexec (by rw [hvcpu]) (fun _ => by rw [hcpu]) fun o ho => by
      rw [List.mem_singleton.mp ho]
      exact ⟨rfl, rfl⟩

/-! ## Runs -/

/-- Every line of every VCPU is conserved in every run. -/
theorem lines_conserved {p : Params} {ok : Machine n → Event n → Prop} {m₀ m : Machine n}
    {tr : List (Obs n)} (h₀ : m₀.Initial) (h : Reaches p ok m₀ tr m) {j : Fin n} {k : Nat}
    (hk : k < 8) : (lineOf m tr j k).Conserved := by
  refine Reaches.invariant (fun tr m => (lineOf m tr j k).Conserved) h₀ ?_
    (fun _ _ _ _ _ _ hI _ hcase => (step_line hk hcase).conserved hI) h
  have hidle : m₀.executing = none := by
    rw [Machine.executing, h₀.scheduler]
    rfl
  refine ⟨fun h => absurd h (by simp [lineOf, owed]), ?_, fun h => ?_⟩
  · have hsaved : lineBit k (m₀.vcpu j).guestclt2 = false := by
      rw [h₀.guestclt2]
      exact lineBit_zero k
    simp [lineOf, hidle, hsaved]
  · simp [lineOf, hidle] at h

/-- **Virtual interrupts are conserved.** After any run of the machine, for each of the
eight lines of each VCPU: a line raised and not taken since is set in the saved word
or, while its VCPU executes, in `GuestCTL2`; and every bit set in one of the two
places, like every line taken, answers a raise of its own for that VCPU. -/
theorem interrupts_conserved {p : Params} {m₀ m : Machine n} {tr : List (Obs n)}
    (h₀ : m₀.Initial) (h : Reaches p Lts.anyEvent m₀ tr m) (j : Fin n) (k : Nat) (hk : k < 8) :
    (owed j k tr = true → lineBit k (m.vcpu j).guestclt2 = true ∨
      (m.executing = some j ∧ lineBit k m.cpu.guestCtl2 = true)) ∧
    (lineBit k (m.vcpu j).guestclt2 = true →
      tr.countP (takes j k) < tr.countP (raises j k)) ∧
    (m.executing = some j → lineBit k m.cpu.guestCtl2 = true →
      tr.countP (takes j k) + (lineBit k (m.vcpu j).guestclt2).toNat <
        tr.countP (raises j k)) := by
  obtain ⟨howed, hcount, -⟩ := lines_conserved h₀ h (j := j) hk
  simp only [lineOf, Line.Pending] at howed hcount
  refine ⟨fun hw => ?_, fun hsaved => ?_, fun hexec hlive => ?_⟩
  · simpa using howed hw
  · rw [hsaved, Bool.toNat_true] at hcount
    omega
  · rw [hexec, hlive] at hcount
    simp only [decide_true, Bool.true_and, Bool.toNat_true] at hcount
    omega

/-- `pong` is scheduled while the message line that `ping` raised for it is saved. -/
theorem interrupts_conserved_pingPong :
    ∃ tr m, Reaches ⟨1, 30000⟩ Lts.anyEvent pingPongMachine tr m ∧
      m.executing = some 1 ∧ owed 1 1 tr = true ∧ lineBit 1 m.cpu.guestCtl2 = true := by
  have hrun := Lts.exec_run (show (Lts.exec (step ⟨1, 30000⟩) Lts.anyEvent pingPongMachine
    [.timer 0 0 0, .timer 0 0 0, .timer 0 0 0, .sendMsg 2 4 (fun _ => 7),
      .timer 0 0 0]).isSome = true by decide)
  refine ⟨_, _, hrun, by decide, by decide, ?_⟩
  rcases (interrupts_conserved pingPongMachine_initial hrun 1 1 (by decide)).1 (by decide) with
    hsaved | ⟨-, hlive⟩
  · exact absurd hsaved (by decide)
  · exact hlive

end PrplHypervisor
