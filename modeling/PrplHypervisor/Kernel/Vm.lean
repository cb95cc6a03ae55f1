import Mathlib.Data.List.Induction
import PrplHypervisor.Config.Genconf

/-!
# Virtual machines and VCPUs (sys/kernel/vm.c, include/vcpu.h)

- `Vcpu`: `vcpu_t` with its inter-VM message queue.
- `Vm`: `vm_t` with its TLB entries.
- `createVm`: builds one VM from its `VMCONF` row, writes its TLB entries and
  appends it to the VM and ready lists. The C statics `vm_id`, `tlbindex` and
  `vcpu_id` are fields of `Startup`.
- `initializeMachines`: the loop over `VMCONF`.
-/

namespace PrplHypervisor

open Genconf

/-- A machine word of the guest or of CP0. -/
abbrev Word := BitVec 32

/-! ## Message queues (vcpu.h) -/

def messagelistSz : Nat := 5
def messageSz : Nat := 255

/-- `message_t`. The payload array is total; only its first `size` bytes are
meaningful. -/
structure Message where
  sourceId : Nat
  size : Nat
  message : Nat → UInt8

/-- `message_buffer_t`, a circular buffer of `messagelistSz` messages. -/
structure MessageBuffer where
  inIdx : Nat
  outIdx : Nat
  numMessages : Nat
  messageList : Nat → Message

/-- A zeroed buffer. -/
def MessageBuffer.zero : MessageBuffer where
  inIdx := 0
  outIdx := 0
  numMessages := 0
  messageList := fun _ => ⟨0, 0, fun _ => 0⟩

/-! ## VCPUs and VMs -/

/-- `vcpu_t`. -/
structure Vcpu where
  id : Nat
  gprshadowset : Nat
  cp0Registers : Fin 16 → Word
  guestclt2 : Word
  pc : Word
  init : Bool
  messages : MessageBuffer

/-- `vm_t`. Its list of VCPUs always holds the one VCPU created with it. -/
structure Vm where
  vmconf : VmConf
  baseAddr : Nat
  id : Nat
  osType : String
  ntlbent : Nat
  tlbentries : List TlbEntry

def bareMetalEntryPoint : Word := 0x9d001000

/-- Data the startup code accumulates: the static counters of `create_vm` and
`create_vcpu`, the TLB, the list of VMs and the ready list of VCPUs. -/
structure Startup where
  vmId : Nat := 1
  tlbindex : Nat := 0
  vcpuId : Nat := 1
  tlb : RootTlb := fun _ => none
  machines : List Vm := []
  readyList : List Vcpu := []

/-- A VCPU that has never run; everything `memset` clears is zero. -/
def createVcpu (vcpuId : Nat) (entryPoint : Word) : Vcpu where
  id := vcpuId
  gprshadowset := vcpuId
  cp0Registers := fun _ => 0
  guestclt2 := 0
  pc := entryPoint
  init := true
  messages := .zero

/-- The TLB entry `create_vm` builds from an initializer: a half whose frame
number is nonzero is made valid and writable. -/
def vmTlbEntry (vmId tlbindex : Nat) (t : TlbEntries) : TlbEntry where
  guestid := vmId
  index := tlbindex
  entrylo0 := t.entrylo0
  lo0flags := if t.entrylo0 ≠ 0 then entryloV ||| entryloD else 0
  entrylo1 := t.entrylo1
  lo1flags := if t.entrylo1 ≠ 0 then entryloV ||| entryloD else 0
  pagemask := t.pagemask.bits
  entryhi := t.entryhi
  coherency := t.coherency

/-- Entries of one VM, in consecutive slots from `tlbindex`. -/
def vmTlbEntries (vmId tlbindex : Nat) : List TlbEntries → List TlbEntry
  | [] => []
  | t :: ts => vmTlbEntry vmId tlbindex t :: vmTlbEntries vmId (tlbindex + 1) ts

/-- Create and initialize the data structure for a VM. -/
def createVm (s : Startup) (vmConf : VmConf) : Startup :=
  let entries := vmTlbEntries s.vmId s.tlbindex (vmConf.tlb.take vmConf.numTlbEntries)
  -- only bare-metal guests have an entry point; others start at 0 after a warning
  let entryPoint := if vmConf.osType = "BARE_METAL" then bareMetalEntryPoint else 0
  let vm : Vm := {
    vmconf := vmConf
    baseAddr := vmConf.ramBase
    id := s.vmId
    osType := vmConf.osType
    ntlbent := vmConf.numTlbEntries
    tlbentries := entries }
  { vmId := s.vmId + 1
    tlbindex := s.tlbindex + vmConf.numTlbEntries
    vcpuId := s.vcpuId + 1
    tlb := entries.foldl tlbEntryWrite s.tlb
    machines := s.machines ++ [vm]
    readyList := s.readyList ++ [createVcpu s.vcpuId entryPoint] }

/-- Build every VM of the configuration. -/
def initializeMachines (vmconf : List VmConf) : Startup :=
  vmconf.foldl createVm {}

/-! ## Slots and identifiers -/

/-- Entry `i` of a VM sits in slot `tlbindex + i`. -/
theorem vmTlbEntries_getElem? (vmId tlbindex : Nat) (ts : List TlbEntries) (i : Nat) :
    (vmTlbEntries vmId tlbindex ts)[i]? = ts[i]?.map (vmTlbEntry vmId (tlbindex + i)) := by
  induction ts generalizing tlbindex i with
  | nil => rfl
  | cons t ts ih =>
    cases i with
    | zero => rfl
    | succ i =>
      rw [vmTlbEntries, List.getElem?_cons_succ, List.getElem?_cons_succ, ih,
        show tlbindex + 1 + i = tlbindex + (i + 1) by omega]

theorem mem_vmTlbEntries {vmId tlbindex : Nat} {ts : List TlbEntries} {e : TlbEntry} :
    e ∈ vmTlbEntries vmId tlbindex ts ↔
      ∃ i t, ts[i]? = some t ∧ e = vmTlbEntry vmId (tlbindex + i) t := by
  simp only [List.mem_iff_getElem?, vmTlbEntries_getElem?, Option.map_eq_some_iff]
  constructor
  · rintro ⟨i, t, ht, rfl⟩
    exact ⟨i, t, ht, rfl⟩
  · rintro ⟨i, t, ht, rfl⟩
    exact ⟨i, t, ht, rfl⟩

theorem vmTlbEntries_index (vmId tlbindex : Nat) (ts : List TlbEntries) :
    (vmTlbEntries vmId tlbindex ts).map (·.index) = List.range' tlbindex ts.length := by
  induction ts generalizing tlbindex with
  | nil => rfl
  | cons t ts ih => simp [vmTlbEntries, vmTlbEntry, ih, List.range'_succ]

/-- Writing entries into distinct slots leaves each of them in its slot and every
other slot alone. -/
theorem foldl_tlbEntryWrite {es : List TlbEntry} (hnd : (es.map (·.index)).Nodup)
    (tlb : RootTlb) (i : Nat) (r : TlbRegs) :
    es.foldl tlbEntryWrite tlb i = some r ↔
      (∃ e ∈ es, e.index = i ∧ e.regs = r) ∨ ((∀ e ∈ es, e.index ≠ i) ∧ tlb i = some r) := by
  induction es generalizing tlb with
  | nil => simp
  | cons e es ih =>
    rw [List.map_cons, List.nodup_cons] at hnd
    obtain ⟨hnot, hnd⟩ := hnd
    have hne : ∀ e' ∈ es, e'.index ≠ e.index := fun e' he' h =>
      hnot (h ▸ List.mem_map_of_mem he')
    rw [List.foldl_cons, ih hnd]
    by_cases hi : e.index = i
    · subst hi
      have hwrite : tlbEntryWrite tlb e e.index = some e.regs := Function.update_self ..
      -- the slot of the first entry is not written again
      rw [hwrite]
      constructor
      · rintro (⟨e', he', hidx, hr⟩ | ⟨-, hr⟩)
        · exact absurd hidx (hne e' he')
        · exact Or.inl ⟨e, List.mem_cons_self, rfl, Option.some.inj hr⟩
      · rintro (⟨e', he', hidx, hr⟩ | ⟨hall, -⟩)
        · rcases List.mem_cons.mp he' with rfl | he'
          · exact Or.inr ⟨hne, congrArg some hr⟩
          · exact absurd hidx (hne e' he')
        · exact absurd rfl (hall e List.mem_cons_self)
    · have hwrite : tlbEntryWrite tlb e i = tlb i := Function.update_of_ne (Ne.symm hi) ..
      rw [hwrite]
      simp only [List.mem_cons, exists_eq_or_imp, forall_eq_or_imp, hi, false_and, false_or,
        ne_eq, not_false_eq_true, true_and]

/-- TLB entries of all VMs built so far, in creation order. -/
def Startup.entries (s : Startup) : List TlbEntry := s.machines.flatMap (·.tlbentries)

/-- What the startup code has built from the rows `cs`. -/
structure Built (cs : List VmConf) (s : Startup) : Prop where
  vmId_eq : s.vmId = cs.length + 1
  vcpuId_eq : s.vcpuId = cs.length + 1
  tlbindex_eq : s.tlbindex = (cs.map (·.numTlbEntries)).sum
  length_eq : s.machines.length = cs.length
  ready_length_eq : s.readyList.length = cs.length
  index_eq : s.entries.map (·.index) = List.range s.tlbindex
  tlb_iff : ∀ i r, s.tlb i = some r ↔ ∃ e ∈ s.entries, e.index = i ∧ e.regs = r
  machine : ∀ k vm c, s.machines[k]? = some vm → cs[k]? = some c →
    vm.id = k + 1 ∧ vm.vmconf = c ∧ vm.baseAddr = c.ramBase ∧
      ∃ slot, vm.tlbentries = vmTlbEntries (k + 1) slot (c.tlb.take c.numTlbEntries)
  vcpu : ∀ k v, s.readyList[k]? = some v → ∃ entryPoint, v = createVcpu (k + 1) entryPoint

theorem built_nil : Built [] {} where
  vmId_eq := rfl
  vcpuId_eq := rfl
  tlbindex_eq := rfl
  length_eq := rfl
  ready_length_eq := rfl
  index_eq := rfl
  tlb_iff i r := by simp [Startup.entries]
  machine k vm c hvm := by simp at hvm
  vcpu k v hv := by simp at hv

/-- Entry `j` of VM `k` is made from entry `j` of its row, and it is in the TLB. -/
theorem Built.entry {cs : List VmConf} {s : Startup} (h : Built cs s) {k j : Nat} {vm : Vm}
    {c : VmConf} {t : TlbEntries} (hvm : s.machines[k]? = some vm) (hc : cs[k]? = some c)
    (ht : (c.tlb.take c.numTlbEntries)[j]? = some t) :
    ∃ slot, vm.tlbentries[j]? = some (vmTlbEntry vm.id slot t) ∧
      s.tlb slot = some (vmTlbEntry vm.id slot t).regs := by
  obtain ⟨hid, -, -, slot, hent⟩ := h.machine k vm c hvm hc
  have hentry : vm.tlbentries[j]? = some (vmTlbEntry vm.id (slot + j) t) := by
    rw [hent, vmTlbEntries_getElem?, ht, ← hid]
    rfl
  refine ⟨slot + j, hentry, (h.tlb_iff _ _).mpr ⟨_, ?_, rfl, rfl⟩⟩
  exact List.mem_flatMap.mpr ⟨vm, List.mem_of_getElem? hvm, List.mem_of_getElem? hentry⟩

theorem createVm_entries (s : Startup) (c : VmConf) :
    (createVm s c).entries =
      s.entries ++ vmTlbEntries s.vmId s.tlbindex (c.tlb.take c.numTlbEntries) := by
  simp [createVm, Startup.entries]

/-- A place of an extended list is a place of the list or the new one. -/
theorem getElem?_snoc {α : Type} {l : List α} {x y : α} {k : Nat}
    (h : (l ++ [x])[k]? = some y) : l[k]? = some y ∨ k = l.length ∧ x = y := by
  rw [List.getElem?_append] at h
  split at h
  case isTrue hk => exact Or.inl h
  case isFalse hk =>
    obtain ⟨hidx, hget⟩ := List.getElem?_eq_some_iff.mp h
    rw [List.length_singleton] at hidx
    rw [List.getElem_singleton] at hget
    exact Or.inr ⟨by omega, hget⟩

/-- `create_vm` extends what has been built by one VM in fresh slots. -/
theorem Built.createVm {cs : List VmConf} {s : Startup} (h : Built cs s) {c : VmConf}
    (hc : c.numTlbEntries ≤ c.tlb.length) : Built (cs ++ [c]) (createVm s c) := by
  have hlen : (c.tlb.take c.numTlbEntries).length = c.numTlbEntries := by
    rw [List.length_take, Nat.min_eq_left hc]
  have hidx := vmTlbEntries_index s.vmId s.tlbindex (c.tlb.take c.numTlbEntries)
  rw [hlen] at hidx
  refine
    { vmId_eq := ?_, vcpuId_eq := ?_, tlbindex_eq := ?_, length_eq := ?_,
      ready_length_eq := ?_, index_eq := ?_, tlb_iff := ?_, machine := ?_, vcpu := ?_ }
  · simp [PrplHypervisor.createVm, h.vmId_eq]
  · simp [PrplHypervisor.createVm, h.vcpuId_eq]
  · simp [PrplHypervisor.createVm, h.tlbindex_eq]
  · simp [PrplHypervisor.createVm, h.length_eq]
  · simp [PrplHypervisor.createVm, h.ready_length_eq]
  · rw [createVm_entries, List.map_append, h.index_eq, hidx]
    show _ = List.range (s.tlbindex + c.numTlbEntries)
    rw [List.range_eq_range', List.range_eq_range', ← List.range'_append_1, Nat.zero_add]
  · intro i r
    have hnd : ((vmTlbEntries s.vmId s.tlbindex (c.tlb.take c.numTlbEntries)).map
        (·.index)).Nodup := by
      rw [hidx]
      exact List.nodup_range'
    rw [createVm_entries]
    show List.foldl tlbEntryWrite s.tlb _ i = some r ↔ _
    rw [foldl_tlbEntryWrite hnd, h.tlb_iff]
    constructor
    · rintro (⟨e, he, hi, hr⟩ | ⟨-, e, he, hi, hr⟩)
      · exact ⟨e, List.mem_append_right _ he, hi, hr⟩
      · exact ⟨e, List.mem_append_left _ he, hi, hr⟩
    · rintro ⟨e, he, hi, hr⟩
      rcases List.mem_append.mp he with hold | hnew
      · refine Or.inr ⟨fun e' he' hi' => ?_, e, hold, hi, hr⟩
        -- old slots lie below `tlbindex`, new ones at or above it
        have hlow : e.index ∈ List.range s.tlbindex := h.index_eq ▸ List.mem_map_of_mem hold
        have hhigh : e'.index ∈ List.range' s.tlbindex c.numTlbEntries :=
          hidx ▸ List.mem_map_of_mem he'
        rw [List.mem_range] at hlow
        rw [List.mem_range'_1] at hhigh
        omega
      · exact Or.inl ⟨e, hnew, hi, hr⟩
  · intro k vm c' hvm hc'
    rcases getElem?_snoc (show (s.machines ++ [_])[k]? = some vm from hvm) with
      hmach | ⟨hk, rfl⟩
    · rcases getElem?_snoc hc' with hc' | ⟨hk, rfl⟩
      · exact h.machine k vm c' hmach hc'
      · exact absurd (List.getElem?_eq_some_iff.mp hmach).1 (by rw [h.length_eq]; omega)
    · rcases getElem?_snoc hc' with hc' | ⟨-, rfl⟩
      · exact absurd (List.getElem?_eq_some_iff.mp hc').1 (by rw [← h.length_eq]; omega)
      · rw [hk, h.length_eq, ← h.vmId_eq]
        exact ⟨rfl, rfl, rfl, s.tlbindex, rfl⟩
  · intro k v hv
    rcases getElem?_snoc (show (s.readyList ++ [_])[k]? = some v from hv) with hready | ⟨hk, rfl⟩
    · exact h.vcpu k v hready
    · rw [hk, h.ready_length_eq, ← h.vcpuId_eq]
      exact ⟨_, rfl⟩

/-- Everything the startup code builds, for every configuration. -/
theorem initializeMachines_built {cs : List VmConf}
    (hcs : ∀ c ∈ cs, c.numTlbEntries ≤ c.tlb.length) : Built cs (initializeMachines cs) := by
  induction cs using List.reverseRecOn with
  | nil => exact built_nil
  | append_singleton cs c ih =>
    rw [initializeMachines, List.foldl_append, List.foldl_cons, List.foldl_nil]
    exact (ih fun c' hc' => hcs c' (List.mem_append_left _ hc')).createVm
      (hcs c (List.mem_append_right _ List.mem_cons_self))

/-- The VMs in the order of their rows, however many entries those claim to have. -/
theorem initializeMachines_vmconf (cs : List VmConf) :
    (initializeMachines cs).machines.map (·.vmconf) = cs := by
  induction cs using List.reverseRecOn with
  | nil => rfl
  | append_singleton cs c ih =>
    rw [initializeMachines, List.foldl_append, List.foldl_cons, List.foldl_nil]
    show ((initializeMachines cs).machines ++ [_]).map _ = cs ++ [c]
    rw [List.map_append, ih]
    rfl

theorem initializeMachines_length (cs : List VmConf) :
    (initializeMachines cs).machines.length = cs.length := by
  rw [← List.length_map (f := (·.vmconf)), initializeMachines_vmconf]

/-- VMs are numbered from 1 in the order of their rows. -/
theorem initializeMachines_ids (cs : List VmConf) :
    (initializeMachines cs).machines.map (·.id) = List.range' 1 cs.length ∧
      (initializeMachines cs).vmId = cs.length + 1 := by
  induction cs using List.reverseRecOn with
  | nil => exact ⟨rfl, rfl⟩
  | append_singleton cs c ih =>
    obtain ⟨hids, hnext⟩ := ih
    rw [initializeMachines, List.foldl_append, List.foldl_cons, List.foldl_nil]
    constructor
    · show ((initializeMachines cs).machines ++ [_]).map _ = _
      rw [List.map_append, hids, List.length_append, List.length_singleton, ← List.range'_append_1,
        Nat.add_comm 1, ← hnext]
      rfl
    · show (initializeMachines cs).vmId + 1 = _
      rw [hnext, List.length_append, List.length_singleton]

/-- One VCPU for each VM. -/
theorem initializeMachines_lengths (cs : List VmConf) :
    (initializeMachines cs).machines.length = (initializeMachines cs).readyList.length := by
  induction cs using List.reverseRecOn with
  | nil => rfl
  | append_singleton cs c ih =>
    rw [initializeMachines, List.foldl_append, List.foldl_cons, List.foldl_nil]
    show ((initializeMachines cs).machines ++ [_]).length =
      ((initializeMachines cs).readyList ++ [_]).length
    rw [List.length_append, List.length_append, ih]
    rfl

section Translation

variable {cs : List VmConf} {s : Startup}

end Translation

end PrplHypervisor
