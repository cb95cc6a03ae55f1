import Mathlib.Logic.Embedding.Basic
import PrplHypervisor.Kernel.Scheduler
import PrplHypervisor.Lib.LinkedList

/-!
# The kernel's lists (sys/lib/linkedlist.c, sys/kernel/vm.c)

`create_vm` appends a VM to `virtual_machines_list` and its VCPU to `vcpu_ready_list` and to
the list of the VM. The scheduler keeps pointers to nodes of the last two.

- `listAppend`, `appendVm`, `kernelLists`: the lists after the creation of `n` VMs, with
  nodes wherever `malloc` puts them.
- `Lists`: the paths of all lists. `kernelLists_spec` proves them.
- `Node.addr`: the pointer a `Node` stands for, and `Lists.cells_node` what it points to.
- `roundRobinPointer`, `fastIntPointer`: the scheduler's routines on pointers, which its
  model on nodes refines to (`Lists.roundRobin`, `Lists.fastInt`).
-/

namespace PrplHypervisor

open Machine LinkedList Genconf

/-- What a node of the kernel's lists points to: a VCPU or a VM, in the order of creation. -/
inductive Item where
  | vcpu (k : Nat)
  | vm (k : Nat)
  deriving Repr, DecidableEq

/-- The lists in memory. The `k`-th list node is allocated at `addr k`. -/
structure KernelLists (α : Type) where
  cells : Cells α Item
  allocated : Nat
  vcpuReadyList : Option α
  virtualMachinesList : Option α
  vcpus : Nat → Option α

variable {α : Type} {n : Nat}

section Build

variable [DecidableEq α] (addr : ℕ ↪ α)

/-- `list_append`, where `malloc` finds the memory. -/
def listAppend (s : KernelLists α) (lst : Option α) (item : Item) :
    Option (KernelLists α × Option α) :=
  (append s.cells (s.allocated + 1) lst (addr s.allocated) item).map fun r =>
    ({ s with cells := r.1, allocated := s.allocated + 1 }, r.2)

/-- The calls of `list_append` in `create_vm`. -/
def appendVm (s : KernelLists α) (k : Nat) : Option (KernelLists α) := do
  let (s, ready) ← listAppend addr s s.vcpuReadyList (.vcpu k)
  let s := { s with vcpuReadyList := ready }
  let (s, vms) ← listAppend addr s s.virtualMachinesList (.vm k)
  let s := { s with virtualMachinesList := vms }
  let (s, own) ← listAppend addr s none (.vcpu k)
  return { s with vcpus := Function.update s.vcpus k own }

/-- The lists after the creation of so many VMs. -/
def kernelLists : Nat → Option (KernelLists α)
  | 0 => some ⟨fun _ => none, 0, none, none, fun _ => none⟩
  | k + 1 => (kernelLists k).bind fun s => appendVm addr s k

end Build

/-! ## The paths of the lists -/

section Paths

variable (addr : ℕ ↪ α)

/-- Every third list node, from number `r` on. -/
def nodesAt (n r : Nat) (f : Nat → Item) : List (α × Item) :=
  (List.range n).map fun i => (addr (3 * i + r), f i)

/-- The lists of `n` VMs. -/
structure Lists (s : KernelLists α) (n : Nat) : Prop where
  allocated : s.allocated = 3 * n
  fresh : ∀ k, s.allocated ≤ k → s.cells (addr k) = none
  ready : Path s.cells s.vcpuReadyList (nodesAt addr n 0 .vcpu)
  machines : Path s.cells s.virtualMachinesList (nodesAt addr n 1 .vm)
  own : ∀ i < n, Path s.cells (s.vcpus i) [(addr (3 * i + 2), .vcpu i)]

/-- What one `list_append` does: the list from `lst` grows by a node, and lists without
nodes of it keep their paths. -/
structure Appended (s : KernelLists α) (xs : List (α × Item)) (item : Item)
    (s' : KernelLists α) (head : Option α) : Prop where
  allocated : s'.allocated = s.allocated + 1
  vcpuReadyList : s'.vcpuReadyList = s.vcpuReadyList
  virtualMachinesList : s'.virtualMachinesList = s.virtualMachinesList
  vcpus : s'.vcpus = s.vcpus
  fresh : ∀ k, s'.allocated ≤ k → s'.cells (addr k) = none
  path : Path s'.cells head (xs ++ [(addr s.allocated, item)])
  others : ∀ p ys, Path s.cells p ys → (∀ y ∈ ys, y.1 ∉ xs.map Prod.fst) → Path s'.cells p ys

variable {addr} {s : KernelLists α}

theorem nodesAt_succ (n r : Nat) (f : Nat → Item) :
    nodesAt addr (n + 1) r f = nodesAt addr n r f ++ [(addr (3 * n + r), f n)] := by
  rw [nodesAt, List.range_succ, List.map_append, ← nodesAt]
  rfl

theorem nodesAt_length (n r : Nat) (f : Nat → Item) : (nodesAt addr n r f).length = n := by
  rw [nodesAt, List.length_map, List.length_range]

theorem nodesAt_getElem? {n i : Nat} (hi : i < n) (r : Nat) (f : Nat → Item) :
    (nodesAt addr n r f)[i]? = some (addr (3 * i + r), f i) := by
  rw [nodesAt, List.getElem?_map, List.getElem?_range hi]
  rfl

theorem mem_nodesAt {n r : Nat} {f : Nat → Item} {a : α} :
    a ∈ (nodesAt addr n r f).map Prod.fst ↔ ∃ i < n, a = addr (3 * i + r) := by
  simp only [nodesAt, List.map_map, List.mem_map, List.mem_range, Function.comp_def, eq_comm]

/-- A node with another remainder is not among them. -/
theorem addr_notMem_nodesAt {n r k : Nat} {f : Nat → Item} (hr : r < 3) (hk : k % 3 ≠ r) :
    addr k ∉ (nodesAt addr n r f).map Prod.fst := by
  intro hmem
  obtain ⟨i, -, heq⟩ := mem_nodesAt.mp hmem
  have hsame : k = 3 * i + r := addr.injective heq
  omega

theorem nodesAt_disjoint {n n' r r' : Nat} {f g : Nat → Item} (hr : r < 3) (hr' : r' < 3)
    (hne : r ≠ r') : ∀ y ∈ nodesAt addr n r f, y.1 ∉ (nodesAt addr n' r' g).map Prod.fst := by
  intro y hy
  obtain ⟨i, -, heq⟩ := mem_nodesAt.mp (List.mem_map_of_mem hy)
  rw [heq]
  exact addr_notMem_nodesAt hr' (by omega)

/-- The list of a VM has a node of the third kind. -/
theorem own_disjoint {i n r : Nat} {f : Nat → Item} (hr : r < 2) :
    ∀ y ∈ [(addr (3 * i + 2), Item.vcpu i)], y.1 ∉ (nodesAt addr n r f).map Prod.fst := by
  intro y hy
  rw [List.mem_singleton.mp hy]
  exact addr_notMem_nodesAt (by omega) (by omega)

variable [DecidableEq α]

theorem listAppend_spec (hfresh : ∀ k, s.allocated ≤ k → s.cells (addr k) = none)
    {lst : Option α} {xs : List (α × Item)} (hp : Path s.cells lst xs)
    (hlen : xs.length ≤ s.allocated + 1) (item : Item) :
    ∃ s' head, listAppend addr s lst item = some (s', head) ∧ Appended addr s xs item s' head := by
  obtain ⟨cells, head, happend, hpath, hsame⟩ :=
    append_path hp (hfresh _ (Nat.le_refl _)) hlen item
  refine ⟨{ s with cells := cells, allocated := s.allocated + 1 }, head,
    by rw [listAppend, happend, Option.map_some], rfl, rfl, rfl, rfl, fun k hk => ?_, hpath,
    fun p ys hys hdisj => hys.congr fun y hy => ?_⟩
  · -- a later node is neither the new one nor in the list
    have hlater : s.allocated < k := hk
    have hnone := hfresh k (Nat.le_of_lt hlater)
    show cells (addr k) = none
    rw [hsame, hnone]
    · exact fun heq => Nat.ne_of_gt hlater (addr.injective heq)
    · intro hmem
      obtain ⟨x, hx, heq⟩ := List.mem_map.mp hmem
      have halloc := hp.allocated hx
      rw [heq, hnone] at halloc
      cases halloc
  · refine hsame y.1 (fun heq => ?_) (hdisj y hy)
    have halloc := hys.allocated hy
    rw [heq, hfresh _ (Nat.le_refl _)] at halloc
    cases halloc

/-- Creating a VM extends the lists by it. -/
theorem Lists.appendVm (h : Lists addr s n) :
    ∃ s', appendVm addr s n = some s' ∧ Lists addr s' (n + 1) := by
  obtain ⟨s₁, ready, hready, h₁⟩ := listAppend_spec h.fresh h.ready
    (by rw [nodesAt_length, h.allocated]; omega) (.vcpu n)
  have hmachines₁ : Path s₁.cells s₁.virtualMachinesList (nodesAt addr n 1 .vm) := by
    rw [h₁.virtualMachinesList]
    exact h₁.others _ _ h.machines (nodesAt_disjoint (by decide) (by decide) (by decide))
  obtain ⟨s₂, vms, hvms, h₂⟩ := listAppend_spec (s := { s₁ with vcpuReadyList := ready })
    h₁.fresh hmachines₁ (by
      show _ ≤ s₁.allocated + 1
      rw [nodesAt_length, h₁.allocated, h.allocated]
      omega) (.vm n)
  obtain ⟨s₃, own, hown, h₃⟩ := listAppend_spec (s := { s₂ with virtualMachinesList := vms })
    h₂.fresh (show Path s₂.cells none [] from rfl) (Nat.zero_le _) (.vcpu n)
  refine ⟨{ s₃ with vcpus := Function.update s₃.vcpus n own }, ?_, ?_⟩
  · simp only [PrplHypervisor.appendVm, hready, hvms, hown, Option.bind_eq_bind, Option.bind_some]
    rfl
  have halloc₁ : s₁.allocated = 3 * n + 1 := by rw [h₁.allocated, h.allocated]
  have halloc₂ : s₂.allocated = 3 * n + 2 := by
    rw [h₂.allocated]
    show s₁.allocated + 1 = _
    rw [halloc₁]
  -- the last node is in a list of its own
  have hkeep : ∀ {p : Option α} {ys : List (α × Item)}, Path s₂.cells p ys → Path s₃.cells p ys :=
    fun hys => h₃.others _ _ hys fun _ _ => List.not_mem_nil
  constructor
  case allocated =>
    show s₃.allocated = _
    rw [h₃.allocated]
    show s₂.allocated + 1 = _
    rw [halloc₂]
    omega
  case fresh => exact h₃.fresh
  case ready =>
    show Path s₃.cells s₃.vcpuReadyList _
    rw [h₃.vcpuReadyList]
    show Path s₃.cells s₂.vcpuReadyList _
    rw [h₂.vcpuReadyList, nodesAt_succ]
    have hpath := h₁.path
    rw [h.allocated] at hpath
    refine hkeep (h₂.others _ _ hpath ?_)
    rw [← Nat.add_zero (3 * n), ← nodesAt_succ]
    exact nodesAt_disjoint (by decide) (by decide) (by decide)
  case machines =>
    show Path s₃.cells s₃.virtualMachinesList _
    rw [h₃.virtualMachinesList, nodesAt_succ, ← halloc₁]
    exact hkeep h₂.path
  case own =>
    intro i hi
    show Path s₃.cells (Function.update s₃.vcpus n own i) _
    by_cases hin : i = n
    · subst hin
      rw [Function.update_self, ← halloc₂]
      exact h₃.path
    · rw [Function.update_of_ne hin, h₃.vcpus]
      show Path s₃.cells (s₂.vcpus i) _
      rw [h₂.vcpus]
      show Path s₃.cells (s₁.vcpus i) _
      rw [h₁.vcpus]
      have hown₁ := h₁.others _ _ (h.own i (by omega)) (own_disjoint (by decide))
      exact hkeep (h₂.others _ _ hown₁ (own_disjoint (by decide)))

theorem kernelLists_spec (addr : ℕ ↪ α) (n : Nat) :
    ∃ s, kernelLists addr n = some s ∧ Lists addr s n := by
  induction n with
  | zero =>
    refine ⟨_, rfl, rfl, fun _ _ => rfl, rfl, rfl, fun i hi => ?_⟩
    exact absurd hi (Nat.not_lt_zero i)
  | succ n ih =>
    obtain ⟨s, hs, hlists⟩ := ih
    obtain ⟨s', hs', hlists'⟩ := hlists.appendVm
    exact ⟨s', by rw [kernelLists, hs, Option.bind_some, hs'], hlists'⟩

end Paths

/-! ## Pointers and nodes -/

section Pointers

/-- The pointer that a node stands for. -/
def Node.addr (addr : ℕ ↪ α) : Node n → α
  | .ready i => addr (3 * i.val)
  | .own i => addr (3 * i.val + 2)

variable {addr : ℕ ↪ α} {s : KernelLists α}

theorem Lists.readyHead (h : Lists addr s n) :
    s.vcpuReadyList = (PrplHypervisor.vcpuReadyList n).map (Node.addr addr) := by
  rw [h.ready.head, PrplHypervisor.vcpuReadyList]
  split
  case isTrue hpos =>
    rw [List.head?_eq_getElem?, nodesAt_getElem? hpos]
    rfl
  case isFalse hzero =>
    rw [Nat.eq_zero_of_not_pos hzero]
    rfl

theorem Lists.ownHead (h : Lists addr s n) (i : Fin n) :
    s.vcpus i.val = some ((Node.own i).addr addr) := (h.own i.val i.isLt).head

/-- A node of the model is a node in memory. -/
theorem Lists.cells_node (h : Lists addr s n) (nd : Node n) :
    s.cells (nd.addr addr) = some ⟨.vcpu nd.elem.val, nd.next.map (Node.addr addr)⟩ := by
  cases nd with
  | ready i =>
    have hcell := (path_iff.mp h.ready).2 i.val _ (nodesAt_getElem? i.isLt 0 .vcpu)
    refine hcell.trans ?_
    rw [Node.next]
    split
    case isTrue hlt =>
      rw [nodesAt_getElem? hlt]
      rfl
    case isFalse hge =>
      rw [List.getElem?_eq_none (by rw [nodesAt_length]; omega)]
      rfl
  | own i => exact (path_iff.mp (h.own i.val i.isLt)).2 0 _ rfl

/-- `round_robin_scheduler` on pointers. -/
def roundRobinPointer (s : KernelLists α) (lastScheduled : Option α) : Option α :=
  match lastScheduled with
  | none => s.vcpuReadyList
  | some last =>
    match (s.cells last).bind (·.next) with
    | none => s.vcpuReadyList
    | some nd => some nd

theorem Lists.roundRobin (h : Lists addr s n) (m : Machine n) :
    roundRobinPointer s (m.scheduler.lastScheduled.map (Node.addr addr)) =
      (roundRobinScheduler m).map (Node.addr addr) := by
  unfold roundRobinPointer roundRobinScheduler
  cases m.scheduler.lastScheduled with
  | none => exact h.readyHead
  | some last =>
    simp only [Option.map_some, h.cells_node last, Option.bind_some]
    cases last.next with
    | none => exact h.readyHead
    | some nd => rfl

/-- `get_fast_int_vcpu_node` on pointers, where `fast` tells the VMs with the interrupt. -/
def fastIntPointer (s : KernelLists α) (fuel : Nat) (fast : Nat → Bool) : Option α :=
  (findNode s.cells (fun
    | .vm k => if fast k then some (s.vcpus k) else none
    | .vcpu _ => none) fuel s.virtualMachinesList).join

/-- The first answer is the answer of the first element with one. -/
theorem findSome?_ite {β γ : Type} (c : β → Bool) (g : β → γ) (xs : List β) :
    (xs.findSome? fun x => if c x then some (g x) else none) = (xs.find? c).map g := by
  induction xs with
  | nil => rfl
  | cons x xs ih =>
    rw [List.findSome?_cons, List.find?_cons]
    cases c x with
    | true => rfl
    | false => exact ih

theorem Lists.fastInt (h : Lists addr s n) (irqNumber : String → Nat) (m : Machine n)
    {fastInt : Nat} {fast : Nat → Bool} (hfast : ∀ i : Fin n, fast i.val =
      (m.vm i).vmconf.fastInterrupts.any fun name => fastInt == irqNumber name) :
    fastIntPointer s (n + 1) fast =
      (getFastIntVcpuNode irqNumber m fastInt).map (Node.addr addr) := by
  have hitems : (nodesAt addr n 1 .vm).map Prod.snd =
      (List.finRange n).map fun i => .vm i.val := by
    rw [nodesAt, List.map_map, ← List.map_coe_finRange_eq_range, List.map_map]
    rfl
  rw [fastIntPointer, findNode_path _ h.machines (by rw [nodesAt_length]; omega), hitems,
    List.findSome?_map]
  show ((List.finRange n).findSome? fun i =>
    if fast i.val then some (s.vcpus i.val) else none).join = _
  simp only [hfast, h.ownHead]
  rw [findSome?_ite, getFastIntVcpuNode, Option.map_map]
  cases (List.finRange n).find? _ <;> rfl

end Pointers

end PrplHypervisor
