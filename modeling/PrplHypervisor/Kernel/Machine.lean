import PrplHypervisor.Kernel.Vm

/-!
# The running machine

State shared by the interrupt handlers, the hypercalls and the guests once the
hypervisor is up: the VMs and VCPUs built at startup, the scheduler's pointers,
the processor registers they exchange through, the redirection table and the
message list each guest keeps for itself.

- `Node`: a VCPU is reachable from the ready list and from its own VM's list. The
  two list nodes are different pointers to the same VCPU.
- `Cpu`: guest CP0 registers, `GuestCTL2` and the root registers a context
  switch touches.
- `Machine`: everything together, for any number `n` of VMs.
- `Obs`: what a step lets an observer see, the alphabet of traces.
-/

namespace PrplHypervisor

/-- A CP0 register number and select. -/
abbrev Cp0 := Nat × Nat

/-- A list node holding a VCPU: in the ready list or in the list of its VM. -/
inductive Node (n : Nat) where
  | ready (i : Fin n)
  | own (i : Fin n)
  deriving Repr, DecidableEq

/-- The VCPU a node holds. -/
def Node.elem {n : Nat} : Node n → Fin n
  | .ready i => i
  | .own i => i

/-- `struct scheduler_info_t` with the statics of scheduler.c. -/
structure SchedulerInfo (n : Nat) where
  vcpuExecutingNd : Option (Node n) := none
  nextVcpu : Option (Node n) := none
  lastScheduled : Option (Node n) := none
  tickCount : Nat := 0
  deriving Repr, DecidableEq

/-- Processor state shared by whatever runs: guest registers, the root registers a
context switch writes, and the interrupt controller's flag and enable bits. -/
structure Cpu where
  guestCp0 : Cp0 → Word
  guestCtl2 : Word
  epc : Word
  guestId : Nat
  previousShadowSet : Nat
  lowestGShadow : Nat
  guestMode : Bool
  ifs : Nat → Bool
  iec : Nat → Bool

/-- `struct interrupt_mapping`: a hardware interrupt and the guest line it becomes. -/
structure InterruptMapping (n : Nat) where
  irqNumber : Nat
  irqGuest : Nat
  vcpu : Fin n
  deriving Repr, DecidableEq

/-- Where a guest's `irq_network` handler stands: not running, just entered, or at
the test of its loop with its locals `ret` and `in`. -/
inductive NetPhase where
  | idle
  | entered
  | fetching (ret : Int) (inIdx : Nat)
  deriving Repr, DecidableEq

/-- What the bare-metal library of one guest keeps: its `message_list` and the
progress of its interrupt handler. -/
structure Guest where
  messageList : MessageBuffer
  net : NetPhase

/-- The running hypervisor and its `n` guests. -/
structure Machine (n : Nat) where
  vm : Fin n → Vm
  vcpu : Fin n → Vcpu
  scheduler : SchedulerInfo n
  cpu : Cpu
  interruptMappingList : List (InterruptMapping n)
  past : Nat
  guest : Fin n → Guest

/-- A message as its receiver sees it. -/
structure Delivery where
  source : Nat
  size : Nat
  bytes : List UInt8
  deriving Repr, DecidableEq

/-- What a step shows. -/
inductive Obs (n : Nat) where
  /-- The VCPU loses the processor; guest CP0 registers at that moment. -/
  | preempted (i : Fin n) (regs : Cp0 → Word)
  /-- The VCPU resumes; guest CP0 registers it finds. -/
  | resumed (i : Fin n) (regs : Cp0 → Word)
  /-- A virtual interrupt line is raised for the VCPU. -/
  | raised (i : Fin n) (line : Nat)
  /-- The guest takes the lines set in a `GuestCTL2` value. -/
  | taken (i : Fin n) (lines : Word)
  /-- `intervm_send_msg` called by `i` returns `v0`. -/
  | sendReturned (i : Fin n) (targetId : Nat) (v0 : Int) (sent : Delivery)
  /-- `ReceiveMessage` called by `i` returns, with a message or with 0. -/
  | receiveReturned (i : Fin n) (got : Option Delivery)

namespace Machine

variable {n : Nat}

/-- The VCPU in execution. -/
def executing (m : Machine n) : Option (Fin n) := m.scheduler.vcpuExecutingNd.map Node.elem

/-- Replace one VCPU. -/
def setVcpu (m : Machine n) (i : Fin n) (v : Vcpu) : Machine n :=
  { m with vcpu := Function.update m.vcpu i v }

/-- Replace one guest's library state. -/
def setGuest (m : Machine n) (i : Fin n) (g : Guest) : Machine n :=
  { m with guest := Function.update m.guest i g }

@[simp] theorem setVcpu_vcpu_self (m : Machine n) (i : Fin n) (v : Vcpu) :
    (m.setVcpu i v).vcpu i = v := Function.update_self ..

theorem setVcpu_vcpu_of_ne (m : Machine n) {i j : Fin n} (h : j ≠ i) (v : Vcpu) :
    (m.setVcpu i v).vcpu j = m.vcpu j := Function.update_of_ne h ..

@[simp] theorem setVcpu_vm (m : Machine n) (i : Fin n) (v : Vcpu) :
    (m.setVcpu i v).vm = m.vm := rfl

@[simp] theorem setVcpu_cpu (m : Machine n) (i : Fin n) (v : Vcpu) :
    (m.setVcpu i v).cpu = m.cpu := rfl

@[simp] theorem setVcpu_guest (m : Machine n) (i : Fin n) (v : Vcpu) :
    (m.setVcpu i v).guest = m.guest := rfl

@[simp] theorem setVcpu_scheduler (m : Machine n) (i : Fin n) (v : Vcpu) :
    (m.setVcpu i v).scheduler = m.scheduler := rfl

@[simp] theorem setVcpu_executing (m : Machine n) (i : Fin n) (v : Vcpu) :
    (m.setVcpu i v).executing = m.executing := rfl

@[simp] theorem setGuest_guest_self (m : Machine n) (i : Fin n) (g : Guest) :
    (m.setGuest i g).guest i = g := Function.update_self ..

theorem setGuest_guest_of_ne (m : Machine n) {i j : Fin n} (h : j ≠ i) (g : Guest) :
    (m.setGuest i g).guest j = m.guest j := Function.update_of_ne h ..

@[simp] theorem setGuest_vm (m : Machine n) (i : Fin n) (g : Guest) :
    (m.setGuest i g).vm = m.vm := rfl

@[simp] theorem setGuest_vcpu (m : Machine n) (i : Fin n) (g : Guest) :
    (m.setGuest i g).vcpu = m.vcpu := rfl

@[simp] theorem setGuest_cpu (m : Machine n) (i : Fin n) (g : Guest) :
    (m.setGuest i g).cpu = m.cpu := rfl

@[simp] theorem setGuest_executing (m : Machine n) (i : Fin n) (g : Guest) :
    (m.setGuest i g).executing = m.executing := rfl

/-! ## The state after startup -/

/-- The state in which the first interrupt finds the machine: VMs numbered from 1,
VCPUs that have never run, empty queues and lists, no VCPU in execution. The
processor registers and the redirection table may hold anything. -/
structure Initial (m : Machine n) : Prop where
  vm_id : ∀ i, (m.vm i).id = i.val + 1
  init : ∀ i, (m.vcpu i).init = true
  guestclt2 : ∀ i, (m.vcpu i).guestclt2 = 0
  messages : ∀ i, (m.vcpu i).messages = .zero
  scheduler : m.scheduler = {}
  guest : ∀ i, m.guest i = ⟨.zero, .idle⟩

/-- The machine built from the startup data, on a processor in state `cpu` and with
redirection table `table`. -/
def boot (s : Startup) (hlen : s.machines.length = s.readyList.length) (cpu : Cpu)
    (table : List (InterruptMapping s.machines.length)) : Machine s.machines.length where
  vm i := s.machines.get i
  vcpu i := s.readyList.get (i.cast hlen)
  scheduler := {}
  cpu := cpu
  interruptMappingList := table
  past := 0
  guest _ := ⟨.zero, .idle⟩

/-- What the startup code builds is an initial state. -/
theorem boot_initial {cs : List Genconf.VmConf} {s : Startup} (hs : Built cs s)
    (hlen : s.machines.length = s.readyList.length) (cpu : Cpu)
    (table : List (InterruptMapping s.machines.length)) : (boot s hlen cpu table).Initial := by
  have hvcpu : ∀ i : Fin s.machines.length,
      ∃ entryPoint, s.readyList.get (i.cast hlen) = createVcpu (i.val + 1) entryPoint := by
    intro i
    exact hs.vcpu i.val _ (List.getElem?_eq_getElem (hlen ▸ i.isLt))
  refine
    { vm_id := fun i => ?_, init := fun i => ?_, guestclt2 := fun i => ?_,
      messages := fun i => ?_, scheduler := rfl, guest := fun _ => rfl }
  · have hi : i.val < cs.length := hs.length_eq ▸ i.isLt
    exact (hs.machine i.val _ cs[i.val] (List.getElem?_eq_getElem i.isLt)
      (List.getElem?_eq_getElem hi)).1
  all_goals
    obtain ⟨entryPoint, h⟩ := hvcpu i
    simp only [boot, h]
    rfl

/-- The machine of the two VMs `ping` and `pong`, on a processor with all registers
zero and without redirected interrupts. -/
def pingPongMachine : Machine 2 :=
  boot (initializeMachines (Genconf.pingPongRows.map Prod.fst)) rfl {
    guestCp0 := fun _ => 0
    guestCtl2 := 0
    epc := 0
    guestId := 0
    previousShadowSet := 0
    lowestGShadow := 0
    guestMode := false
    ifs := fun _ => false
    iec := fun _ => false } []

theorem pingPongMachine_initial : pingPongMachine.Initial :=
  boot_initial (initializeMachines_built (by decide)) rfl _ []

end Machine

end PrplHypervisor
