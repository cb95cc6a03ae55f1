import PrplHypervisor.Arch.Vectors
import PrplHypervisor.Drivers.InterruptRedirect

/-!
# The table of redirected interrupts (drivers/pic32mz-interrupt-redirect.c)

At startup the driver counts the redirections of all VMs, allocates a table for as many
entries and fills it in a second pass. The guests name an entry by its line when they ask
for their interrupt to be enabled again.

- `interruptRedirectInit`: the two passes, with what they write to the interrupt controller.
- `redirectTable`: one entry for each redirection, VM by VM.
- `reenableInterrupt`: the hypercall.
- `reenable_own`: the table is filled exactly, and it gives each guest its own interrupts.

The numbers of the interrupts are macros of the platform's header, here any function of
their names.
-/

namespace PrplHypervisor

open Machine Word32 Genconf

variable {n : Nat} {H : Type}

/-- `GUEST_USER_DEFINED_INT_1 << j`, in 32 bits. -/
def irqGuest (j : Nat) : Nat := (BitVec.ofNat 32 guestUserDefinedInt1 <<< j).toNat

/-- The interrupt controller, register by register for each interrupt. -/
structure InterruptController where
  /-- Priority and sub-priority, a byte of an `IPC` register. -/
  ipc : Nat → BitVec 8
  ifs : Nat → Bool
  iec : Nat → Bool
  off : Nat → Nat

/-- The static variables of the driver, and the controller. Entries that have not been
written are `none`. -/
structure RedirectState (n : Nat) where
  interruptMappingSz : Nat
  interruptMappingList : Nat → Option (InterruptMapping n)
  irqCount : Nat
  controller : InterruptController

/-! ## Registering the hypercall -/

def hcallTableSize : Nat := 30

def hcallReenableInterrupt : Nat := 13

/-- `register_hypercall`, with the codes in use. -/
def registerHypercall (used : Nat → Bool) (code : Nat) : (Nat → Bool) × Int :=
  if code > hcallTableSize - 1 then (used, -1)
  else if used code then (used, -2)
  else (Function.update used code true, code)

/-! ## Filling the table -/

section Init

variable (irqNumber : String → Nat)

/-- The first pass. -/
def countRedirections (m : Machine n) : Option Nat :=
  (List.finRange n).foldlM (fun sz i => (getVcpuFromId m (i.val + 1)).map fun v =>
    sz + (m.vm v).vmconf.interruptRedirect.length) 0

/-- Interrupt `p.1`, the one with index `p.2` in the list of its VM. -/
def redirectInterrupt (offset : Nat) (v : Fin n) (s : RedirectState n) (p : String × Nat) :
    RedirectState n :=
  let irq := irqNumber p.1
  { s with
    interruptMappingList :=
      Function.update s.interruptMappingList s.irqCount (some ⟨irq, irqGuest p.2, v⟩)
    irqCount := s.irqCount + 1
    controller := {
      ipc := Function.update s.controller.ipc irq (s.controller.ipc irq &&& ~~~0x1f ||| 0x1f)
      ifs := Function.update s.controller.ifs irq false
      iec := Function.update s.controller.iec irq true
      off := Function.update s.controller.off irq offset } }

/-- The second pass. -/
def redirectAll (m : Machine n) (offset : Nat) (s : RedirectState n) :
    Option (RedirectState n) :=
  (List.finRange n).foldlM (fun s i => (getVcpuFromId m (i.val + 1)).map fun v =>
    (m.vm v).vmconf.interruptRedirect.zipIdx.foldl (redirectInterrupt irqNumber offset v) s) s

/-- `interrupt_redirect_init`, where `malloc` finds the memory. Nothing is registered
without redirections, and nothing is filled without the hypercall. -/
def interruptRedirectInit (m : Machine n) (handlers : HandlerTable H) (injection : H)
    (hypercalls : Nat → Bool) (controller : InterruptController) :
    Option (RedirectState n × HandlerTable H × (Nat → Bool)) := do
  let sz ← countRedirections m
  let s : RedirectState n := ⟨sz, fun _ => none, 0, controller⟩
  if sz > 0 then
    let (handlers, offset) := registerInterrupt handlers (some injection)
    let (hypercalls, code) := registerHypercall hypercalls hcallReenableInterrupt
    if code < 0 then return (s, handlers, hypercalls)
    let s ← redirectAll irqNumber m offset s
    return (s, handlers, hypercalls)
  else return (s, handlers, hypercalls)

/-- The entries that the handlers of the driver look at. -/
def RedirectState.entries (s : RedirectState n) : List (InterruptMapping n) :=
  (List.range s.interruptMappingSz).filterMap s.interruptMappingList

/-- The entries of one VM. -/
def redirectEntries (v : Fin n) (names : List String) : List (InterruptMapping n) :=
  names.zipIdx.map fun p => ⟨irqNumber p.1, irqGuest p.2, v⟩

/-- One entry for each VM and index, in the order of the configuration. -/
def redirectTable (conf : Fin n → VmConf) : List (InterruptMapping n) :=
  (List.finRange n).flatMap fun v => redirectEntries irqNumber v (conf v).interruptRedirect

end Init

/-! ## What the passes do -/

section Fill

variable {irqNumber : String → Nat} {m : Machine n}

/-- A loop over the VMs in which every id is found. -/
theorem foldlM_vcpus (hids : ∀ i, (m.vm i).id = i.val + 1) {σ : Type} (f : σ → Fin n → σ)
    (vs : List (Fin n)) (s : σ) :
    vs.foldlM (fun s i => (getVcpuFromId m (i.val + 1)).map fun v => f s v) s =
      some (vs.foldl f s) := by
  induction vs generalizing s with
  | nil => rfl
  | cons v vs ih =>
    rw [List.foldlM_cons, getVcpuFromId_eq hids v, Option.map_some, Option.bind_eq_bind,
      Option.bind_some, ih, List.foldl_cons]

theorem redirectEntries_length (v : Fin n) (names : List String) :
    (redirectEntries irqNumber v names).length = names.length := by
  rw [redirectEntries, List.length_map, List.length_zipIdx]

/-- The first pass counts the entries. -/
theorem countRedirections_eq (hids : ∀ i, (m.vm i).id = i.val + 1) :
    countRedirections m =
      some (redirectTable irqNumber fun v => (m.vm v).vmconf).length := by
  have hsum : ∀ (vs : List (Fin n)) (sz : Nat),
      vs.foldl (fun sz v => sz + (m.vm v).vmconf.interruptRedirect.length) sz =
        sz + (vs.flatMap fun v =>
          redirectEntries irqNumber v (m.vm v).vmconf.interruptRedirect).length := by
    intro vs
    induction vs with
    | nil => exact fun _ => rfl
    | cons v vs ih =>
      intro sz
      rw [List.foldl_cons, ih, List.flatMap_cons, List.length_append, redirectEntries_length,
        Nat.add_assoc]
  rw [countRedirections, foldlM_vcpus hids
    (fun sz v => sz + (m.vm v).vmconf.interruptRedirect.length), hsum, Nat.zero_add,
    redirectTable]

/-- The first `irqCount` entries are those of `es`; the others have not been written. -/
structure RedirectState.Filled (s : RedirectState n) (es : List (InterruptMapping n)) : Prop where
  count : s.irqCount = es.length
  list : ∀ k, s.interruptMappingList k = es[k]?

variable {s : RedirectState n} {es : List (InterruptMapping n)}

theorem RedirectState.Filled.redirect (h : s.Filled es) (irqNumber : String → Nat)
    (offset : Nat) (v : Fin n) (p : String × Nat) :
    (redirectInterrupt irqNumber offset v s p).Filled
      (es ++ [⟨irqNumber p.1, irqGuest p.2, v⟩]) := by
  constructor
  · show s.irqCount + 1 = _
    rw [h.count, List.length_append, List.length_singleton]
  · intro k
    show Function.update s.interruptMappingList s.irqCount _ k = _
    by_cases hk : k = s.irqCount
    · rw [hk, Function.update_self, h.count, List.getElem?_concat_length]
    · rw [Function.update_of_ne hk, h.list]
      rw [h.count] at hk
      rcases Nat.lt_or_gt_of_ne hk with hlt | hgt
      · rw [List.getElem?_append_left hlt]
      · rw [List.getElem?_eq_none (Nat.le_of_lt hgt), List.getElem?_eq_none]
        rw [List.length_append, List.length_singleton]
        omega

theorem RedirectState.Filled.redirects (h : s.Filled es) (irqNumber : String → Nat)
    (offset : Nat) (v : Fin n) (ps : List (String × Nat)) :
    (ps.foldl (redirectInterrupt irqNumber offset v) s).Filled
        (es ++ ps.map fun p => ⟨irqNumber p.1, irqGuest p.2, v⟩) ∧
      (ps.foldl (redirectInterrupt irqNumber offset v) s).interruptMappingSz =
        s.interruptMappingSz := by
  induction ps generalizing s es with
  | nil =>
    rw [List.map_nil, List.append_nil]
    exact ⟨h, rfl⟩
  | cons p ps ih =>
    obtain ⟨hfilled, hsz⟩ := ih (h.redirect irqNumber offset v p)
    rw [List.append_assoc] at hfilled
    exact ⟨hfilled, hsz⟩

/-- The second pass writes one entry behind the other. -/
theorem RedirectState.Filled.vms (h : s.Filled es) (irqNumber : String → Nat) (offset : Nat)
    (vs : List (Fin n)) :
    (vs.foldl (fun s v => (m.vm v).vmconf.interruptRedirect.zipIdx.foldl
      (redirectInterrupt irqNumber offset v) s) s).Filled
        (es ++ vs.flatMap fun v =>
          redirectEntries irqNumber v (m.vm v).vmconf.interruptRedirect) ∧
      (vs.foldl (fun s v => (m.vm v).vmconf.interruptRedirect.zipIdx.foldl
        (redirectInterrupt irqNumber offset v) s) s).interruptMappingSz =
          s.interruptMappingSz := by
  induction vs generalizing s es with
  | nil =>
    rw [List.flatMap_nil, List.append_nil]
    exact ⟨h, rfl⟩
  | cons v vs ih =>
    obtain ⟨hone, hsz⟩ := h.redirects irqNumber offset v
      (m.vm v).vmconf.interruptRedirect.zipIdx
    obtain ⟨hrest, hsz'⟩ := ih hone
    rw [List.append_assoc] at hrest
    exact ⟨hrest, hsz'.trans hsz⟩

theorem registerHypercall_free {hypercalls : Nat → Bool}
    (hfree : hypercalls hcallReenableInterrupt = false) :
    (registerHypercall hypercalls hcallReenableInterrupt).2 = 13 := by
  rw [registerHypercall, if_neg (by decide), if_neg (by simp [hfree])]
  rfl

/-- Both passes agree: the table is filled up to its last entry. -/
theorem interruptRedirectInit_eq (irqNumber : String → Nat)
    (hids : ∀ i, (m.vm i).id = i.val + 1) (handlers : HandlerTable H) (injection : H)
    (hypercalls : Nat → Bool) (hfree : hypercalls hcallReenableInterrupt = false)
    (controller : InterruptController) :
    ∃ s handlers' hypercalls', interruptRedirectInit irqNumber m handlers injection hypercalls
        controller = some (s, handlers', hypercalls') ∧
      s.interruptMappingSz = (redirectTable irqNumber fun v => (m.vm v).vmconf).length ∧
      s.Filled (redirectTable irqNumber fun v => (m.vm v).vmconf) := by
  set table := redirectTable irqNumber fun v => (m.vm v).vmconf with htable
  have hinit : RedirectState.Filled
      (⟨table.length, fun _ => none, 0, controller⟩ : RedirectState n) [] :=
    ⟨rfl, fun _ => rfl⟩
  unfold interruptRedirectInit
  rw [countRedirections_eq hids, ← htable]
  by_cases hpos : table.length > 0
  · have hcode : ¬ (registerHypercall hypercalls hcallReenableInterrupt).2 < 0 := by
      rw [registerHypercall_free hfree]
      decide
    obtain ⟨hfilled, hsz⟩ := hinit.vms irqNumber (m := m)
      (registerInterrupt handlers (some injection)).2 (List.finRange n)
    refine ⟨_, (registerInterrupt handlers (some injection)).1,
      (registerHypercall hypercalls hcallReenableInterrupt).1, ?_, hsz, hfilled⟩
    simp only [Option.bind_eq_bind, Option.bind_some, if_pos hpos, if_neg hcode, redirectAll,
      foldlM_vcpus hids (fun s v => (m.vm v).vmconf.interruptRedirect.zipIdx.foldl
        (redirectInterrupt irqNumber (registerInterrupt handlers (some injection)).2 v) s)]
    rfl
  · have hnil : table = [] := List.eq_nil_of_length_eq_zero (by omega)
    rw [hnil] at hinit ⊢
    refine ⟨_, handlers, hypercalls, ?_, rfl, hinit⟩
    rfl

/-- What the handlers look at is the whole table. -/
theorem RedirectState.Filled.entries_eq (h : s.Filled es)
    (hsz : s.interruptMappingSz = es.length) : s.entries = es := by
  rw [RedirectState.entries, hsz, funext h.list]
  rw [← List.map_coe_finRange_eq_range, List.filterMap_map]
  have hget : (fun k => es[k]?) ∘ Fin.val = fun i : Fin es.length => some (es.get i) :=
    funext fun i => List.getElem?_eq_getElem i.isLt
  rw [hget, List.filterMap_eq_map', List.map_get_finRange]

end Fill

/-! ## Enabling an interrupt again -/

/-- The hypercall of the VCPU `self` with `interrupt` in `a0`, and what it puts in `v0`. -/
def reenableInterrupt (m : Machine n) (self : Fin n) (interrupt : Nat) : Machine n × Nat :=
  match m.interruptMappingList.find? fun e => self = e.vcpu ∧ interrupt = e.irqGuest with
  | some e => ({ m with cpu := { m.cpu with
      iec := Function.update m.cpu.iec e.irqNumber true } }, 0)
  | none => (m, 1)

/-- The hypercall enables the interrupt of an entry of its caller, or it does nothing. -/
theorem reenableInterrupt_cases (m : Machine n) (self : Fin n) (interrupt : Nat) :
    (∃ e ∈ m.interruptMappingList, e.vcpu = self ∧ e.irqGuest = interrupt ∧
      reenableInterrupt m self interrupt = ({ m with cpu := { m.cpu with
        iec := Function.update m.cpu.iec e.irqNumber true } }, 0)) ∨
    ((∀ e ∈ m.interruptMappingList, e.vcpu = self → e.irqGuest ≠ interrupt) ∧
      reenableInterrupt m self interrupt = (m, 1)) := by
  unfold reenableInterrupt
  cases hfind : m.interruptMappingList.find? fun e => self = e.vcpu ∧ interrupt = e.irqGuest with
  | some e =>
    have hprop : self = e.vcpu ∧ interrupt = e.irqGuest := by simpa using List.find?_some hfind
    exact Or.inl ⟨e, List.mem_of_find?_eq_some hfind, hprop.1.symm, hprop.2.symm, rfl⟩
  | none =>
    refine Or.inr ⟨fun e he hself heq => ?_, rfl⟩
    exact List.find?_eq_none.mp hfind e he (by simp [hself, heq])

theorem mem_redirectTable {irqNumber : String → Nat} {conf : Fin n → VmConf}
    {e : InterruptMapping n} : e ∈ redirectTable irqNumber conf ↔
      ∃ j name, (conf e.vcpu).interruptRedirect[j]? = some name ∧
        e.irqNumber = irqNumber name ∧ e.irqGuest = irqGuest j := by
  simp only [redirectTable, redirectEntries, List.mem_flatMap, List.mem_finRange, true_and,
    List.mem_map, Prod.exists, List.mem_zipIdx_iff_getElem?]
  constructor
  · rintro ⟨v, name, j, hname, rfl⟩
    exact ⟨j, name, hname, rfl, rfl⟩
  · rintro ⟨j, name, hname, hirq, hguest⟩
    obtain ⟨irq, guest, v⟩ := e
    obtain rfl : irq = irqNumber name := hirq
    obtain rfl : guest = irqGuest j := hguest
    exact ⟨v, name, j, hname, rfl⟩

/-! ## At startup -/

section Startup

variable (irqNumber : String → Nat) (confs : List VmConf)

/-- The redirections of a configuration: VM, interrupt and line of each. -/
def redirections : List (Nat × Nat × Nat) :=
  confs.zipIdx.flatMap fun p => p.1.interruptRedirect.zipIdx.map fun q =>
    (p.2, irqNumber q.1, irqGuest q.2)

/-- The machine at startup, before it has a table. -/
abbrev started (cpu : Cpu) : Machine (initializeMachines confs).machines.length :=
  boot (initializeMachines confs) (initializeMachines_lengths confs) cpu []

variable {confs}

theorem started_ids (cpu : Cpu) (i : Fin (initializeMachines confs).machines.length) :
    ((started confs cpu).vm i).id = i.val + 1 := by
  have hids := congrArg (fun ids => ids[i.val]?) (initializeMachines_ids confs).1
  have hlt : i.val < confs.length := (initializeMachines_length confs) ▸ i.isLt
  simp only [List.getElem?_map, List.getElem?_eq_getElem i.isLt, List.getElem?_range' hlt,
    Option.map_some, Option.some.injEq] at hids
  show (initializeMachines confs).machines[i.val].id = _
  omega

theorem started_vmconf (cpu : Cpu) (i : Fin (initializeMachines confs).machines.length) :
    confs[i.val]? = some ((started confs cpu).vm i).vmconf := by
  have hconf := congrArg (fun cs => cs[i.val]?) (initializeMachines_vmconf confs)
  simp only [List.getElem?_map, List.getElem?_eq_getElem i.isLt, Option.map_some] at hconf
  exact hconf.symm

/-- The table has the redirections of the configuration in their order. -/
theorem redirectTable_started (confs : List VmConf) (cpu : Cpu) :
    (redirectTable irqNumber fun v => ((started confs cpu).vm v).vmconf).map
      (fun e => (e.vcpu.val, e.irqNumber, e.irqGuest)) = redirections irqNumber confs := by
  have hzip : confs.zipIdx = (List.finRange _).map fun v =>
      (((started confs cpu).vm v).vmconf, v.val) := by
    refine List.ext_getElem? ?_
    intro k
    rw [List.getElem?_zipIdx, List.getElem?_map]
    rcases Nat.lt_or_ge k confs.length with hlt | hge
    · have hk : k < (List.finRange (initializeMachines confs).machines.length).length := by
        rw [List.length_finRange, initializeMachines_length]
        exact hlt
      have hconf := started_vmconf cpu ⟨k, (initializeMachines_length confs).symm ▸ hlt⟩
      rw [hconf, List.getElem?_eq_getElem hk, List.getElem_finRange]
      simp
    · rw [List.getElem?_eq_none hge, List.getElem?_eq_none]
      · rfl
      · rw [List.length_finRange, initializeMachines_length]
        exact hge
  rw [redirections, hzip, List.flatMap_map, redirectTable, List.map_flatMap]
  simp only [redirectEntries, List.map_map, Function.comp_def]

end Startup

/-- **A guest enables only its own interrupts.** Every configuration gets a table with its
redirections in order, filled to the last entry. Whatever a guest puts in `a0`, with this
table the hypercall sets the enable bit of one interrupt that is redirected to the caller's
VM and returns 0, or it changes nothing and returns 1. -/
theorem reenable_own (irqNumber : String → Nat) (confs : List VmConf) (cpu : Cpu)
    (handlers : HandlerTable H) (injection : H) (hypercalls : Nat → Bool)
    (hfree : hypercalls hcallReenableInterrupt = false) (controller : InterruptController) :
    ∃ s handlers' hypercalls',
      interruptRedirectInit irqNumber (started confs cpu) handlers injection hypercalls
        controller = some (s, handlers', hypercalls') ∧
      s.entries.map (fun e => (e.vcpu.val, e.irqNumber, e.irqGuest)) =
        redirections irqNumber confs ∧
      s.interruptMappingSz = (redirections irqNumber confs).length ∧
      (∀ k, (s.interruptMappingList k).isSome = true ↔ k < s.interruptMappingSz) ∧
      ∀ (m : Machine _) (self : Fin _) (interrupt : Nat), m.interruptMappingList = s.entries →
        (∃ conf, confs[self.val]? = some conf ∧ ∃ name ∈ conf.interruptRedirect,
          reenableInterrupt m self interrupt = ({ m with cpu := { m.cpu with
            iec := Function.update m.cpu.iec (irqNumber name) true } }, 0)) ∨
        reenableInterrupt m self interrupt = (m, 1) := by
  obtain ⟨s, handlers', hypercalls', hinit, hsz, hfilled⟩ := interruptRedirectInit_eq
    irqNumber (started_ids cpu) handlers injection hypercalls hfree controller
  have hentries := hfilled.entries_eq hsz
  have horder := redirectTable_started irqNumber confs cpu
  refine ⟨s, handlers', hypercalls', hinit, hentries ▸ horder, ?_, fun k => ?_, ?_⟩
  · rw [hsz, ← horder, List.length_map]
  · rw [hfilled.list, hsz, isSome_getElem?]
  · intro m self interrupt htable
    rcases reenableInterrupt_cases m self interrupt with ⟨e, he, hself, -, heq⟩ | ⟨-, heq⟩
    · rw [htable, hentries] at he
      obtain ⟨j, name, hname, hirq, -⟩ := mem_redirectTable.mp he
      rw [hself] at hname
      rw [hirq] at heq
      exact Or.inl ⟨_, started_vmconf cpu self, name, List.mem_of_getElem? hname, heq⟩
    · exact Or.inr heq

/-- Some numbers of the header. -/
def headerNumber (name : String) : Nat :=
  if name = "IRQ_T2" then 9 else if name = "IRQ_CNB" then 119
  else if name = "IRQ_U2RX" then 146 else 0

/-- The receive interrupt of a UART goes to `ping`, with the change notice of a port; a
timer goes to `pong`. -/
def redirectingVms : List VmSetting :=
  [{ bareVm "ping" "MEM_SIZE_32KB" with interruptRedirect := ["IRQ_U2RX", "IRQ_CNB"] },
    { bareVm "pong" "MEM_SIZE_32KB" with interruptRedirect := ["IRQ_T2"] }]

def redirectingConfs : List VmConf :=
  ((genConfVms (some redirectingVms)).toOption.getD []).map Prod.fst

/-- The three entries of their table. -/
theorem reenable_own_redirecting : ∃ s handlers' hypercalls',
    interruptRedirectInit headerNumber (started redirectingConfs pingPongMachine.cpu)
      (fun _ => none) () (fun _ => false) ⟨fun _ => 0, fun _ => false, fun _ => false, fun _ => 0⟩ =
        some (s, handlers', hypercalls') ∧
      s.entries.map (fun e => (e.vcpu.val, e.irqNumber, e.irqGuest)) =
        [(0, 146, 0x10), (0, 119, 0x20), (1, 9, 0x10)] := by
  obtain ⟨s, handlers', hypercalls', hinit, horder, -⟩ := reenable_own headerNumber
    redirectingConfs pingPongMachine.cpu (fun _ => none) () (fun _ => false) rfl
    ⟨fun _ => 0, fun _ => false, fun _ => false, fun _ => 0⟩
  exact ⟨s, handlers', hypercalls', hinit, horder.trans (by decide)⟩

end PrplHypervisor
