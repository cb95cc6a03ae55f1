import PrplHypervisor.Kernel.Lists
import PrplHypervisor.System.Quanta

/-!
# The order of turns

`last_scheduled` goes round the ready list. Fast switches use the other pointers of the
scheduler, and those of other lists, so that they leave the order alone.

- `turnStep`: events and requests of the drivers. A round-robin decision shows the VCPU it
  puts in execution, as the element of the node that the scheduler points to.
- `lastTurn`: where `last_scheduled` points to after so many decisions.
- `round_robin_turns`: decision `k` puts VCPU `k` modulo their number in execution.
-/

namespace PrplHypervisor

open Machine LinkedList Genconf

variable {α : Type} {n : Nat}

/-- What can happen next; drivers may pass any pointer. -/
inductive TurnEvent (n : Nat) where
  | system (e : Event n)
  | delivery (target : Option (Node n))

/-- `fast_interrupt_delivery` with any pointer. -/
def deliverPointer (m : Machine n) (target : Option (Node n)) : Machine n :=
  if m.scheduler.vcpuExecutingNd = target then m
  else { m with scheduler := { m.scheduler with nextVcpu := target } }

theorem deliverPointer_node (m : Machine n) (target : Node n) :
    deliverPointer m (some target) = fastInterruptDelivery m target := rfl

theorem deliverPointer_lastScheduled (m : Machine n) (target : Option (Node n)) :
    (deliverPointer m target).scheduler.lastScheduled = m.scheduler.lastScheduled := by
  unfold deliverPointer
  split <;> rfl

section Turns

variable (addr : ℕ ↪ α) (lists : KernelLists α)

/-- `vcpu_executing`, the element of the node in execution. -/
def vcpuExecuting (m : Machine n) : Option Item :=
  m.scheduler.vcpuExecutingNd.bind fun nd => (lists.cells (nd.addr addr)).map (·.elem)

/-- One event. A decision shows the VCPU it has chosen. -/
def turnStep (p : Params) (m : Machine n) :
    TurnEvent n → Option (Machine n × List (Option Item))
  | .system e => (step p m e).map fun r => (r.1,
      if e.IsTimer ∧ DecisionDue p.ticks m then [vcpuExecuting addr lists r.1] else [])
  | .delivery target => some (deliverPointer m target, [])

/-- The node of the last decision after `k` decisions. -/
def lastTurn (n : Nat) : Nat → Option (Node n)
  | 0 => none
  | k + 1 => if h : 0 < n then some (.ready ⟨k % n, Nat.mod_lt k h⟩) else none

variable {addr lists} {p : Params} {m m' : Machine n}

/-- Round robin goes on from the last turn, behind the last VCPU with the first. -/
theorem roundRobinScheduler_lastTurn (hn : 0 < n) {k : Nat}
    (hlast : m.scheduler.lastScheduled = lastTurn n k) :
    roundRobinScheduler m = lastTurn n (k + 1) := by
  rw [roundRobinScheduler, hlast]
  cases k with
  | zero =>
    show vcpuReadyList n = _
    rw [vcpuReadyList, lastTurn, dif_pos hn, dif_pos hn]
    simp only [Nat.zero_mod]
  | succ k =>
    have hsucc : (k + 1) % n = (k % n + 1) % n := (Nat.mod_add_mod k n 1).symm
    simp only [lastTurn, dif_pos hn, Node.next]
    by_cases hlt : k % n + 1 < n
    · rw [dif_pos hlt]
      simp only [hsucc, Nat.mod_eq_of_lt hlt]
    · have hmod := Nat.mod_lt k hn
      have hwrap : k % n + 1 = n := by omega
      rw [dif_neg hlt]
      show vcpuReadyList n = _
      rw [vcpuReadyList, dif_pos hn]
      simp only [hsucc, hwrap, Nat.mod_self]

/-- Only decisions move `last_scheduled`, and they execute the node they move it to. -/
theorem turnStep_cases (hlists : Lists addr lists n) {e : TurnEvent n} {os : List (Option Item)}
    (h : turnStep addr lists p m e = some (m', os)) :
    (os = [] ∧ m'.scheduler.lastScheduled = m.scheduler.lastScheduled) ∨
    ∃ nd, roundRobinScheduler m = some nd ∧ os = [some (.vcpu nd.elem.val)] ∧
      m'.scheduler.lastScheduled = some nd := by
  cases e with
  | delivery target =>
    obtain ⟨rfl, rfl⟩ := Prod.mk.inj (Option.some.inj h)
    exact Or.inl ⟨rfl, deliverPointer_lastScheduled m target⟩
  | system e =>
    obtain ⟨⟨m₁, os₁⟩, hstep, heq⟩ := Option.map_eq_some_iff.mp h
    obtain ⟨rfl, rfl⟩ := Prod.mk.inj heq
    have hcase := step_scheduler hstep
    generalize hsched : m₁.scheduler = s at hcase
    cases hcase with
    | timer epc now later hcall =>
      cases hcall with
      | fast nd hnext =>
        refine Or.inl ⟨if_neg ?_, rfl⟩
        rintro ⟨-, hnone, -⟩
        rw [hnext] at hnone
        cases hnone
      | count hnext hquantum =>
        exact Or.inl ⟨if_neg fun hdue => hquantum hdue.2.2, rfl⟩
      | roundRobin nd hnext hquantum hnd =>
        refine Or.inr ⟨nd, hnd, ?_, rfl⟩
        show (if _ then [vcpuExecuting addr lists m₁] else []) = _
        rw [if_pos ⟨trivial, hnext, hquantum⟩, vcpuExecuting, hsched]
        dsimp only
        rw [Option.bind_some, hlists.cells_node nd, Option.map_some]
    | fastInterrupt i =>
      refine Or.inl ⟨if_neg fun hdue => hdue.1, ?_⟩
      rw [← deliverPointer_node]
      exact deliverPointer_lastScheduled m _
    | other _ he =>
      exact Or.inl ⟨if_neg fun hdue => he hdue.1, rfl⟩

/-- The turns so far went round the list, and `last_scheduled` is at the last of them. -/
structure InOrder (turns : List (Option Item)) (m : Machine n) : Prop where
  last : m.scheduler.lastScheduled = lastTurn n turns.length
  turns : turns = (List.range turns.length).map fun k => some (.vcpu (k % n))

theorem InOrder.step (hn : 0 < n) (hlists : Lists addr lists n) {turns os : List (Option Item)}
    {e : TurnEvent n} (hs : InOrder turns m) (h : turnStep addr lists p m e = some (m', os)) :
    InOrder (turns ++ os) m' := by
  rcases turnStep_cases hlists h with ⟨rfl, hsame⟩ | ⟨nd, hnd, rfl, hlast⟩
  · rw [List.append_nil]
    exact ⟨hsame.trans hs.last, hs.turns⟩
  · rw [roundRobinScheduler_lastTurn hn hs.last] at hnd
    have helem : nd = .ready ⟨turns.length % n, Nat.mod_lt _ hn⟩ := by
      rw [lastTurn, dif_pos hn] at hnd
      exact (Option.some.inj hnd).symm
    constructor
    · rw [hlast, List.length_append, List.length_singleton, hnd]
    · rw [List.length_append, List.length_singleton, List.range_succ, List.map_append,
        ← hs.turns, helem]
      rfl

end Turns

/-- **Turns go round.** The ready list holds the VCPUs in the order of their creation. In
every run from startup, whatever the drivers ask for, the `k`-th round-robin decision puts
the VCPU at position `k` modulo their number in execution. -/
theorem round_robin_turns [DecidableEq α] (addr : ℕ ↪ α) (confs : List VmConf)
    (hconfs : confs ≠ []) (cpu : Cpu) (table : List (InterruptMapping _)) (p : Params) :
    ∃ lists nodes, kernelLists addr confs.length = some lists ∧
      Path lists.cells lists.vcpuReadyList nodes ∧
      nodes.map Prod.snd = (List.range confs.length).map .vcpu ∧
      ∀ turns m, Lts.Run (turnStep addr lists p) Lts.anyEvent (boot (initializeMachines confs)
          (initializeMachines_lengths confs) cpu table) turns m →
        turns = (List.range turns.length).map fun k => some (.vcpu (k % confs.length)) := by
  have hlen := initializeMachines_length confs
  obtain ⟨lists, hbuild, hlists⟩ := kernelLists_spec addr confs.length
  refine ⟨lists, _, hbuild, hlists.ready, ?_, fun turns m hrun => ?_⟩
  · rw [nodesAt, List.map_map]
    rfl
  · have hn : 0 < (initializeMachines confs).machines.length := by
      rw [hlen]
      exact List.length_pos_iff.mpr hconfs
    have horder : InOrder turns m := by
      refine hrun.invariant InOrder ⟨rfl, rfl⟩ fun _ _ _ _ _ hs _ hstep => hs.step hn ?_ hstep
      rw [hlen]
      exact hlists
    rw [← hlen]
    exact horder.turns

/-- Two VCPUs, quanta of two ticks and a fast switch off the boundary, whose target runs twice. -/
theorem round_robin_turns_pingPong : ∃ lists turns m,
    kernelLists (.refl ℕ) 2 = some lists ∧
    Lts.Run (turnStep (.refl ℕ) lists ⟨2, 30000⟩) Lts.anyEvent pingPongMachine turns m ∧
    turns = [some (.vcpu 0), some (.vcpu 1), some (.vcpu 0)] := by
  obtain ⟨lists, nodes, hbuild, -, -, hall⟩ := round_robin_turns (.refl ℕ)
    (pingPongRows.map Prod.fst) (by decide) pingPongMachine.cpu [] ⟨2, 30000⟩
  have hexec : ((Lts.exec (turnStep (.refl ℕ) lists ⟨2, 30000⟩) Lts.anyEvent pingPongMachine
      [.system (.timer 0 0 0), .delivery (some (.own 1)), .system (.timer 0 0 0),
        .system (.timer 0 0 0), .delivery none, .system (.timer 0 0 0),
        .system (.timer 0 0 0)]).map fun r => r.2.length) = some 3 := rfl
  obtain ⟨⟨m, turns⟩, hrun, hthree⟩ := Option.map_eq_some_iff.mp hexec
  have hturns := Lts.Run.nil.append_exec hrun
  rw [List.nil_append] at hturns
  refine ⟨lists, turns, m, hbuild, hturns, ?_⟩
  rw [hall turns m hturns, show turns.length = 3 from hthree]
  rfl

end PrplHypervisor
