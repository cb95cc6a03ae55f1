import Mathlib.Data.List.Basic
import PrplHypervisor.Arch.Tlb
import PrplHypervisor.Lib.Layout

/-!
# The configuration generator (platform/cfg_reader/genconf.c)

`genconf` reads the `virtual_machines` list of a cfg file and writes the
`VMCONF` table compiled into the hypervisor, together with the `vms.info` rows
the build scripts read. Two running addresses, one for RAM and one for flash,
are rounded up to the page size of each VM's mapping and then advanced by its
size.

- `VmSetting`: one group of the `virtual_machines` list as libconfig presents it.
- `selectPageMask`, `calculateMemBase`, `processTlbEntry`: choice of page size
  (single or dual entry), rounding of the base, and the generated TLB entry.
- `genConfVms`: the loop over the list, with every check that stops it.
- `genConfVm_spec`: what one accepted iteration produces, which is all that the
  proofs about the generator use.
-/

namespace PrplHypervisor.Genconf

open Word32

/-! ## Tables -/

/-- `struct mem_sizes_def`; `ν` is what names the row. -/
structure MemSizesDef (ν : Type) where
  mask : Nat
  value : Nat
  name : ν
  deriving Repr, DecidableEq

/-- Page masks the generator chooses from. -/
def pageSizes : List (MemSizesDef PageMask) := [
  { name := .mask4KB, value := 4096, mask := 0xFFF },
  { name := .mask16KB, value := 16384, mask := 0x3FFF },
  { name := .mask64KB, value := 65536, mask := 0xFFFF },
  { name := .mask256KB, value := 262144, mask := 0x3FFFF },
  { name := .mask1MB, value := 1048576, mask := 0xFFFFF },
  { name := .mask4MB, value := 4194304, mask := 0x3FFFFF },
  { name := .mask16MB, value := 16777216, mask := 0xFFFFFF },
  { name := .mask256MB, value := 268435456, mask := 0xFFFFFFF }]

/-- Memory sizes a cfg file may name. -/
def memSizes : List (MemSizesDef String) := [
  { name := "MEM_SIZE_4KB", value := 4096, mask := 0 },
  { name := "MEM_SIZE_8KB", value := 8192, mask := 0 },
  { name := "MEM_SIZE_16KB", value := 16384, mask := 0 },
  { name := "MEM_SIZE_32KB", value := 32768, mask := 0 },
  { name := "MEM_SIZE_64KB", value := 65536, mask := 0 },
  { name := "MEM_SIZE_128KB", value := 131072, mask := 0 },
  { name := "MEM_SIZE_256KB", value := 262144, mask := 0 },
  { name := "MEM_SIZE_512KB", value := 524288, mask := 0 },
  { name := "MEM_SIZE_1MB", value := 1048576, mask := 0 }]

/-- Value of the first row called `strName`, 0 if there is none. -/
def getValueFromStr (mdef : List (MemSizesDef String)) (strName : String) : Nat :=
  match mdef.find? (fun m => m.name == strName) with
  | some m => m.value
  | none => 0

def vmsRamIntermediateBaseAddress : Nat := 0x80008000
def vmsRamVirtualBaseAddress : Nat := 0x80000000
def vmsFlashIntermediateBaseAddress : Nat := 0x9D010000
def vmsFlashVirtualBaseAddress : Nat := 0x9D000000
def totalTlbEntriesMax : Nat := 15

/-! ## Input and output -/

/-- One element of a `memory_maps` list. -/
structure MemMapSetting where
  baseAddr : Option (BitVec 32)
  pageSize : Option String
  deriving Repr, DecidableEq

/-- One group of the `virtual_machines` list. A property that is absent is
`none`; an absent list is the empty one. -/
structure VmSetting where
  appName : Option String
  osType : Option String
  deviceMapping : List String
  fastInterrupts : List String
  interruptRedirect : List String
  ramSizeBytes : Option String
  flashSizeBytes : Option String
  memoryMaps : List MemMapSetting
  deriving Repr, DecidableEq

/-- `struct tlb_entries`, an initializer of `config.h`. -/
structure TlbEntries where
  entrylo0 : Nat
  entrylo1 : Nat
  pagemask : PageMask
  entryhi : Nat
  coherency : Nat
  deriving Repr, DecidableEq

/-- `struct vmconf_t`, one row of `VMCONF`. Device, interrupt and OS names are
macros resolved by the hypervisor's own headers. -/
structure VmConf where
  vmName : String
  osType : String
  devices : List String
  fastInterrupts : List String
  interruptRedirect : List String
  numTlbEntries : Nat
  tlb : List TlbEntries
  ramBase : Nat
  flashSize : Nat
  flashBaseAdd : Nat
  deriving Repr, DecidableEq

/-- A row of `vms.info`. -/
structure VmInfo where
  appName : String
  flashSize : Nat
  ramSize : Nat
  addressStart : Nat
  deriving Repr, DecidableEq

/-- Why the generator stops. -/
inductive GenconfError where
  | missingVirtualMachines
  | missingProperty (name : String)
  | missingMapProperty (name : String)
  | invalidRamSize (value : String)
  | invalidFlashSize (value : String)
  | tooManyTlbEntries
  | noPageSize (memSize : Nat)
  deriving Repr, DecidableEq

/-- The message printed on stderr. An invalid page size of a memory map is
reported as an invalid flash size, as the source does. -/
def GenconfError.text : GenconfError → String
  | .missingVirtualMachines =>
    "Missing virtual_machines group configuration on the input file.\n"
  | .missingProperty name => "Missing " ++ name ++ " proprierty on virtual_machines group.\n"
  | .missingMapProperty name =>
    "Missing " ++ name ++ " proprierty on virtual_machines.memory_maps group.\n"
  | .invalidRamSize value => "Invalide value for RAM_size_bytes: " ++ value ++ ".\n"
  | .invalidFlashSize value => "Invalide value for flash_size_bytes: " ++ value ++ ".\n"
  | .tooManyTlbEntries =>
    "You are using more than " ++ toString totalTlbEntriesMax ++ " TLB entries.\n"
  | .noPageSize memSize =>
    "The memory size 0x" ++ String.ofList (Nat.toDigits 16 memSize) ++
      " does not fit any TLB entry size.\n"

/-! ## Page selection and TLB entries -/

/-- Page size for a mapping of `memSize` bytes, and whether both halves of the
pair are used. A dual entry is preferred. -/
def selectPageMask (memSize : Nat) : Option (MemSizesDef PageMask × Bool) :=
  match pageSizes.find? (fun p => p.value == memSize / 2) with
  | some p => some (p, true)
  | none =>
    match pageSizes.find? (fun p => p.value == memSize) with
    | some p => some (p, false)
    | none => none

/-- Frame number of a kseg0 address. -/
def kseg0AddrToPhysical (addr : Nat) : Nat := (addr &&& 0x1FFFFFFF) >>> 12

/-- Round `memBase` up to the page size. -/
def calculateMemBase (pageSize : MemSizesDef PageMask) (memBase : Nat) : Nat :=
  if memBase % pageSize.value ≠ 0 then
    add32 memBase pageSize.value &&& not32 pageSize.mask
  else memBase

/-- The TLB entry for `memSize` bytes mapped at `va`, and the rounded base. -/
def processTlbEntry (memSize memBase va : Nat) : Except GenconfError (TlbEntries × Nat) :=
  match selectPageMask memSize with
  | none => .error (.noPageSize memSize)
  | some (pageSize, dualEntry) =>
    let base := calculateMemBase pageSize memBase
    .ok ({ entrylo0 := kseg0AddrToPhysical base
           entrylo1 := if dualEntry then kseg0AddrToPhysical (add32 base (memSize / 2)) else 0
           pagemask := pageSize.name
           entryhi := kseg0AddrToPhysical va
           coherency := 2 }, base)

/-! ## The loop over the VM list -/

/-- The variables the loop carries from one VM to the next. -/
structure GenState where
  vmRamInterAddr : Nat := vmsRamIntermediateBaseAddress
  vmFlashInterAddr : Nat := vmsFlashIntermediateBaseAddress
  totalTlbEntries : Nat := 0
  deriving Repr, DecidableEq

/-- Lookup of a string property. -/
def lookup (e : GenconfError) : Option α → Except GenconfError α
  | some a => .ok a
  | none => .error e

/-- A size named by the cfg file; unknown names are refused. -/
def lookupSize (e : String → GenconfError) (name : String) : Except GenconfError Nat :=
  if getValueFromStr memSizes name = 0 then .error (e name)
  else .ok (getValueFromStr memSizes name)

/-- One additional memory map: identity mapped, base rounded to its page. -/
def genMemMap (mm : MemMapSetting) : Except GenconfError TlbEntries := do
  let baseAddr ← lookup (.missingMapProperty "base_addr") mm.baseAddr
  let name ← lookup (.missingMapProperty "page_size") mm.pageSize
  let pageSize ← lookupSize .invalidFlashSize name
  let entry ← processTlbEntry pageSize baseAddr.toNat baseAddr.toNat
  return entry.1

/-- One iteration of the loop: the `VMCONF` row, the `vms.info` row and the
variables for the next VM. -/
def genConfVm (s : GenState) (vm : VmSetting) :
    Except GenconfError ((VmConf × VmInfo) × GenState) := do
  let appName ← lookup (.missingProperty "app_name") vm.appName
  let osType ← lookup (.missingProperty "os_type") vm.osType
  -- RAM and flash need one entry each besides the additional maps
  let aux := vm.memoryMaps.length + 2
  if s.totalTlbEntries + aux > totalTlbEntriesMax then
    throw .tooManyTlbEntries
  let ramName ← lookup (.missingProperty "RAM_size_bytes") vm.ramSizeBytes
  let ramSize ← lookupSize .invalidRamSize ramName
  let (ramEntry, ramBase) ←
    processTlbEntry ramSize s.vmRamInterAddr vmsRamVirtualBaseAddress
  let flashName ← lookup (.missingProperty "flash_size_bytes") vm.flashSizeBytes
  let flashSize ← lookupSize .invalidFlashSize flashName
  let (flashEntry, flashBase) ←
    processTlbEntry flashSize s.vmFlashInterAddr vmsFlashVirtualBaseAddress
  let maps ← vm.memoryMaps.mapM genMemMap
  let conf : VmConf := {
    vmName := appName
    osType := osType
    devices := vm.deviceMapping
    fastInterrupts := vm.fastInterrupts
    interruptRedirect := vm.interruptRedirect
    numTlbEntries := aux
    tlb := ramEntry :: flashEntry :: maps
    ramBase := ramBase
    flashSize := flashSize
    flashBaseAdd := flashBase }
  let info : VmInfo := {
    appName := appName
    flashSize := flashSize
    ramSize := ramSize
    addressStart := flashBase }
  let next : GenState := {
    vmRamInterAddr := add32 ramBase ramSize
    vmFlashInterAddr := add32 flashBase flashSize
    totalTlbEntries := s.totalTlbEntries + aux }
  return ((conf, info), next)

/-- The loop from state `s`. -/
def genConfLoop : GenState → List VmSetting → Except GenconfError (List (VmConf × VmInfo))
  | _, [] => .ok []
  | s, vm :: vms => do
    let (row, next) ← genConfVm s vm
    let rows ← genConfLoop next vms
    return row :: rows

/-- `gen_conf_vms`: the `VMCONF` table and the `vms.info` rows of a cfg file. -/
def genConfVms (setting : Option (List VmSetting)) :
    Except GenconfError (List (VmConf × VmInfo)) := do
  let vms ← lookup .missingVirtualMachines setting
  genConfLoop {} vms

/-- A bare-metal VM with equal RAM and flash sizes and nothing else. -/
def bareVm (name size : String) : VmSetting where
  appName := some name
  osType := some "BARE_METAL"
  deviceMapping := []
  fastInterrupts := []
  interruptRedirect := []
  ramSizeBytes := some size
  flashSizeBytes := some size
  memoryMaps := []

/-- The ping-pong sample without its additional maps. -/
def pingPong : List VmSetting := [bareVm "ping" "MEM_SIZE_32KB", bareVm "pong" "MEM_SIZE_32KB"]

/-- The rows generated for `pingPong`. -/
def pingPongRows : List (VmConf × VmInfo) := (genConfVms (some pingPong)).toOption.getD []

theorem pingPong_accepted : genConfVms (some pingPong) = .ok pingPongRows := rfl

/-! ## Page selection is exact -/

/-- Page `p`, used for both halves of a pair when `dual`, covers `memSize` bytes. -/
structure Covers (memSize : Nat) (p : MemSizesDef PageMask) (dual : Bool) : Prop where
  mem : p ∈ pageSizes
  size_eq : memSize = if dual then 2 * p.value else p.value

/-- Every row of `pageSizes` is a power of two with its mask one below, and names
the `PAGEMASK_*` macro whose page has that size. -/
theorem pageSizes_row {p : MemSizesDef PageMask} (hp : p ∈ pageSizes) :
    ∃ k, 12 ≤ k ∧ k ≤ 28 ∧ p.value = 2 ^ k ∧ p.mask = 2 ^ k - 1 ∧
      (p.name.bits + 1) * 2 ^ 12 = p.value := by
  simp only [pageSizes, List.mem_cons, List.not_mem_nil, or_false] at hp
  rcases hp with rfl | rfl | rfl | rfl | rfl | rfl | rfl | rfl
  · exact ⟨12, by decide, by decide, rfl, rfl, rfl⟩
  · exact ⟨14, by decide, by decide, rfl, rfl, rfl⟩
  · exact ⟨16, by decide, by decide, rfl, rfl, rfl⟩
  · exact ⟨18, by decide, by decide, rfl, rfl, rfl⟩
  · exact ⟨20, by decide, by decide, rfl, rfl, rfl⟩
  · exact ⟨22, by decide, by decide, rfl, rfl, rfl⟩
  · exact ⟨24, by decide, by decide, rfl, rfl, rfl⟩
  · exact ⟨28, by decide, by decide, rfl, rfl, rfl⟩

theorem pageSizes_pos {p : MemSizesDef PageMask} (hp : p ∈ pageSizes) : 0 < p.value := by
  obtain ⟨k, -, -, hv, -⟩ := pageSizes_row hp
  rw [hv]
  exact Nat.two_pow_pos k

theorem Covers.value_le {memSize : Nat} {p : MemSizesDef PageMask} {dual : Bool}
    (h : Covers memSize p dual) : p.value ≤ memSize := by
  have := h.size_eq
  split at this <;> omega

theorem selectPageMask_covers {memSize : Nat} {p : MemSizesDef PageMask} {dual : Bool}
    (heven : memSize % 2 = 0) (h : selectPageMask memSize = some (p, dual)) :
    Covers memSize p dual := by
  unfold selectPageMask at h
  split at h
  case h_1 q hq =>
    obtain ⟨rfl, rfl⟩ := Prod.mk.inj (Option.some.inj h)
    have hv := List.find?_some hq
    rw [beq_iff_eq] at hv
    exact ⟨List.mem_of_find?_eq_some hq, by rw [if_pos rfl]; omega⟩
  case h_2 =>
    split at h
    case h_1 q hq =>
      obtain ⟨rfl, rfl⟩ := Prod.mk.inj (Option.some.inj h)
      have hv := List.find?_some hq
      rw [beq_iff_eq] at hv
      exact ⟨List.mem_of_find?_eq_some hq, by rw [if_neg (by decide)]; exact hv.symm⟩
    case h_2 => cases h

/-- Page size `selectPageMask` uses for a mapping of `memSize` bytes. -/
def pageOf (memSize : Nat) : Nat :=
  match selectPageMask memSize with
  | some (p, _) => p.value
  | none => 1

theorem pageOf_pos (memSize : Nat) : 0 < pageOf memSize := by
  unfold pageOf
  split
  case h_1 p d h =>
    unfold selectPageMask at h
    split at h
    case h_1 q hq =>
      obtain ⟨rfl, rfl⟩ := Prod.mk.inj (Option.some.inj h)
      exact pageSizes_pos (List.mem_of_find?_eq_some hq)
    case h_2 =>
      split at h
      case h_1 q hq =>
        obtain ⟨rfl, rfl⟩ := Prod.mk.inj (Option.some.inj h)
        exact pageSizes_pos (List.mem_of_find?_eq_some hq)
      case h_2 => cases h
  case h_2 => decide

/-- Rounding by mask is rounding up to the page size. -/
theorem calculateMemBase_eq {p : MemSizesDef PageMask} (hp : p ∈ pageSizes) {base : Nat}
    (hb : base + p.value < 2 ^ 32) :
    calculateMemBase p base = Layout.alignUp p.value base := by
  obtain ⟨k, -, hk, hv, hm, -⟩ := pageSizes_row hp
  have hpos := pageSizes_pos hp
  unfold calculateMemBase Layout.alignUp
  by_cases h0 : base % p.value = 0
  · rw [if_neg (not_not.mpr h0), if_pos h0]
  · rw [if_pos h0, if_neg h0, add32, u32_of_lt hb, hm, and_not32_mask hb (by omega), ← hv,
      Nat.add_div_right _ hpos, Nat.succ_mul]

/-! ## Accepted sizes -/

/-- The sizes a cfg file can name. -/
def IsMemSize (m : Nat) : Prop := m ∈ memSizes.map (·.value)

/-- A name that is accepted has its row's value, which is not 0. -/
theorem lookupSize_eq_ok {e : String → GenconfError} {name : String} {m : Nat} :
    lookupSize e name = .ok m ↔ getValueFromStr memSizes name = m ∧ m ≠ 0 := by
  rw [lookupSize]
  by_cases h0 : getValueFromStr memSizes name = 0
  · rw [if_pos h0]
    constructor
    · intro h
      cases h
    · rintro ⟨rfl, hne⟩
      exact absurd h0 hne
  · rw [if_neg h0]
    constructor
    · intro h
      cases h
      exact ⟨rfl, h0⟩
    · rintro ⟨rfl, -⟩
      rfl

theorem isMemSize_of_lookupSize {e : String → GenconfError} {name : String} {m : Nat}
    (h : lookupSize e name = .ok m) : IsMemSize m := by
  obtain ⟨rfl, hne⟩ := lookupSize_eq_ok.mp h
  unfold getValueFromStr at hne ⊢
  split
  case h_1 row hrow => exact List.mem_map_of_mem (List.mem_of_find?_eq_some hrow)
  case h_2 hnone =>
    rw [hnone] at hne
    exact absurd rfl hne

theorem IsMemSize.bounds {m : Nat} (h : IsMemSize m) :
    4096 ≤ m ∧ m ≤ 2 ^ 20 ∧ m % 4096 = 0 := by
  simp only [IsMemSize, memSizes, List.map_cons, List.map_nil, List.mem_cons,
    List.not_mem_nil, or_false] at h
  omega

/-- Every nameable size has a page, which covers it exactly. -/
theorem IsMemSize.covers {m : Nat} (h : IsMemSize m) :
    ∃ p dual, selectPageMask m = some (p, dual) ∧ Covers m p dual := by
  have hsel : ∃ p dual, selectPageMask m = some (p, dual) := by
    simp only [IsMemSize, memSizes, List.map_cons, List.map_nil, List.mem_cons,
      List.not_mem_nil, or_false] at h
    rcases h with rfl | rfl | rfl | rfl | rfl | rfl | rfl | rfl | rfl <;>
      exact ⟨_, _, rfl⟩
  obtain ⟨p, dual, hsel⟩ := hsel
  have := h.bounds
  exact ⟨p, dual, hsel, selectPageMask_covers (by omega) hsel⟩

/-! ## What one accepted entry is -/

/-- The entry `processTlbEntry` generates for a page and a rounded base. -/
def tlbEntriesAt (p : MemSizesDef PageMask) (dual : Bool) (memSize base va : Nat) :
    TlbEntries where
  entrylo0 := kseg0AddrToPhysical base
  entrylo1 := if dual then kseg0AddrToPhysical (add32 base (memSize / 2)) else 0
  pagemask := p.name
  entryhi := kseg0AddrToPhysical va
  coherency := 2

theorem processTlbEntry_ok {memSize memBase va base : Nat} {t : TlbEntries}
    (hsz : IsMemSize memSize) (hb : memBase + memSize < 2 ^ 32)
    (h : processTlbEntry memSize memBase va = .ok (t, base)) :
    ∃ p dual, Covers memSize p dual ∧ pageOf memSize = p.value ∧
      base = Layout.alignUp (pageOf memSize) memBase ∧ t = tlbEntriesAt p dual memSize base va := by
  obtain ⟨p, dual, hsel, hcov⟩ := hsz.covers
  have hpage : pageOf memSize = p.value := by rw [pageOf, hsel]
  have hle := hcov.value_le
  unfold processTlbEntry at h
  rw [hsel] at h
  obtain ⟨rfl, rfl⟩ := Prod.mk.inj (Except.ok.inj h)
  exact ⟨p, dual, hcov, hpage,
    by rw [hpage, calculateMemBase_eq hcov.mem (by omega)], rfl⟩

/-! ## What one accepted iteration is -/

/-- A computation that returns splits into two that return. -/
theorem bind_eq_ok {ε α β : Type} {x : Except ε α} {f : α → Except ε β} {b : β} :
    (x >>= f) = .ok b ↔ ∃ a, x = .ok a ∧ f a = .ok b := by
  cases x with
  | error e => simp [bind, Except.bind]
  | ok a => simp [bind, Except.bind]

theorem mapM_length {ε α β : Type} {f : α → Except ε β} {xs : List α} {ys : List β}
    (h : xs.mapM f = .ok ys) : ys.length = xs.length := by
  induction xs generalizing ys with
  | nil =>
    cases h
    rfl
  | cons x xs ih =>
    rw [List.mapM_cons] at h
    obtain ⟨y, -, h⟩ := bind_eq_ok.mp h
    obtain ⟨rest, hrest, h⟩ := bind_eq_ok.mp h
    cases h
    rw [List.length_cons, List.length_cons, ih hrest]

/-- The rows and the next state produced from state `s` for one VM. -/
structure VmAccepted (s : GenState) (vm : VmSetting) (conf : VmConf) (info : VmInfo)
    (next : GenState) : Prop where
  entries_le : s.totalTlbEntries + (vm.memoryMaps.length + 2) ≤ totalTlbEntriesMax
  entries_next : next.totalTlbEntries = s.totalTlbEntries + conf.numTlbEntries
  num_eq : conf.numTlbEntries = vm.memoryMaps.length + 2
  name_eq : vm.appName = some info.appName
  ram_size : IsMemSize info.ramSize
  flash_size : IsMemSize info.flashSize
  flash_size_eq : conf.flashSize = info.flashSize
  address_eq : info.addressStart = conf.flashBaseAdd
  ram_next : next.vmRamInterAddr = add32 conf.ramBase info.ramSize
  flash_next : next.vmFlashInterAddr = add32 conf.flashBaseAdd info.flashSize
  tlb_eq : ∃ ramEntry flashEntry maps,
    processTlbEntry info.ramSize s.vmRamInterAddr vmsRamVirtualBaseAddress =
      .ok (ramEntry, conf.ramBase) ∧
    processTlbEntry info.flashSize s.vmFlashInterAddr vmsFlashVirtualBaseAddress =
      .ok (flashEntry, conf.flashBaseAdd) ∧
    vm.memoryMaps.mapM genMemMap = .ok maps ∧
    conf.tlb = ramEntry :: flashEntry :: maps

theorem lookup_eq_ok {α : Type} {e : GenconfError} {o : Option α} {a : α} :
    lookup e o = .ok a ↔ o = some a := by
  cases o with
  | none => simp [lookup]
  | some b => simp [lookup]

/-- An iteration that returns has found every property, and its rows and its state are made
of what it found. -/
theorem genConfVm_eq_ok {s : GenState} {vm : VmSetting} {row : VmConf × VmInfo} {next : GenState}
    (h : genConfVm s vm = .ok (row, next)) :
    ∃ ramName flashName ramEntry flashEntry maps,
      vm.appName = some row.2.appName ∧
      s.totalTlbEntries + (vm.memoryMaps.length + 2) ≤ totalTlbEntriesMax ∧
      vm.ramSizeBytes = some ramName ∧
      lookupSize .invalidRamSize ramName = .ok row.2.ramSize ∧
      processTlbEntry row.2.ramSize s.vmRamInterAddr vmsRamVirtualBaseAddress =
        .ok (ramEntry, row.1.ramBase) ∧
      vm.flashSizeBytes = some flashName ∧
      lookupSize .invalidFlashSize flashName = .ok row.2.flashSize ∧
      processTlbEntry row.2.flashSize s.vmFlashInterAddr vmsFlashVirtualBaseAddress =
        .ok (flashEntry, row.1.flashBaseAdd) ∧
      vm.memoryMaps.mapM genMemMap = .ok maps ∧
      row.1.tlb = ramEntry :: flashEntry :: maps ∧
      row.1.numTlbEntries = vm.memoryMaps.length + 2 ∧
      row.1.flashSize = row.2.flashSize ∧ row.2.addressStart = row.1.flashBaseAdd ∧
      next = ⟨add32 row.1.ramBase row.2.ramSize, add32 row.1.flashBaseAdd row.2.flashSize,
        s.totalTlbEntries + row.1.numTlbEntries⟩ := by
  unfold genConfVm at h
  obtain ⟨appName, hname, h⟩ := bind_eq_ok.mp h
  obtain ⟨osType, -, h⟩ := bind_eq_ok.mp h
  by_cases hmax : s.totalTlbEntries + (vm.memoryMaps.length + 2) > totalTlbEntriesMax
  · simp only [if_pos hmax] at h
    cases h
  simp only [if_neg hmax] at h
  obtain ⟨ramName, hramName, h⟩ := bind_eq_ok.mp h
  obtain ⟨ramSize, hram, h⟩ := bind_eq_ok.mp h
  obtain ⟨⟨ramEntry, ramBase⟩, hramEntry, h⟩ := bind_eq_ok.mp h
  obtain ⟨flashName, hflashName, h⟩ := bind_eq_ok.mp h
  obtain ⟨flashSize, hflash, h⟩ := bind_eq_ok.mp h
  obtain ⟨⟨flashEntry, flashBase⟩, hflashEntry, h⟩ := bind_eq_ok.mp h
  obtain ⟨maps, hmaps, h⟩ := bind_eq_ok.mp h
  cases h
  exact ⟨ramName, flashName, ramEntry, flashEntry, maps, lookup_eq_ok.mp hname,
    Nat.le_of_not_gt hmax, lookup_eq_ok.mp hramName, hram, hramEntry, lookup_eq_ok.mp hflashName,
    hflash, hflashEntry, hmaps, rfl, rfl, rfl, rfl, rfl⟩

theorem genConfVm_spec {s : GenState} {vm : VmSetting} {conf : VmConf} {info : VmInfo}
    {next : GenState} (h : genConfVm s vm = .ok ((conf, info), next)) :
    VmAccepted s vm conf info next := by
  obtain ⟨ramName, flashName, ramEntry, flashEntry, maps, hname, hmax, -, hram, hramEntry, -,
    hflash, hflashEntry, hmaps, htlb, hnum, hsize, hstart, rfl⟩ := genConfVm_eq_ok h
  exact {
    entries_le := hmax
    entries_next := rfl
    num_eq := hnum
    name_eq := hname
    ram_size := isMemSize_of_lookupSize hram
    flash_size := isMemSize_of_lookupSize hflash
    flash_size_eq := hsize
    address_eq := hstart
    ram_next := rfl
    flash_next := rfl
    tlb_eq := ⟨ramEntry, flashEntry, maps, hramEntry, hflashEntry, hmaps, htlb⟩ }

/-! ## The loop is serial placement -/

/-- The variables stay in range: each TLB entry accounts for at most 1 MB of RAM
and of flash, counting the gap its alignment may leave. -/
structure GenInv (s : GenState) : Prop where
  total_le : s.totalTlbEntries ≤ totalTlbEntriesMax
  ram_ge : vmsRamIntermediateBaseAddress ≤ s.vmRamInterAddr
  ram_le : s.vmRamInterAddr ≤ vmsRamIntermediateBaseAddress + s.totalTlbEntries * 2 ^ 20
  flash_ge : vmsFlashIntermediateBaseAddress ≤ s.vmFlashInterAddr
  flash_le : s.vmFlashInterAddr ≤ vmsFlashIntermediateBaseAddress + s.totalTlbEntries * 2 ^ 20

theorem genInv_init : GenInv {} where
  total_le := by decide
  ram_ge := le_rfl
  ram_le := by decide
  flash_ge := le_rfl
  flash_le := by decide

/-- RAM request of a VM. -/
def ramReq (info : VmInfo) : Layout.Req := ⟨pageOf info.ramSize, info.ramSize, pageOf_pos _⟩

/-- Flash request of a VM. -/
def flashReq (info : VmInfo) : Layout.Req :=
  ⟨pageOf info.flashSize, info.flashSize, pageOf_pos _⟩

/-- RAM region of a generated row, as kseg0 addresses. -/
def ramRegion (row : VmConf × VmInfo) : Layout.Region := ⟨row.1.ramBase, row.2.ramSize⟩

/-- Flash region of a generated row, as kseg0 addresses. -/
def flashRegion (row : VmConf × VmInfo) : Layout.Region := ⟨row.1.flashBaseAdd, row.2.flashSize⟩

theorem IsMemSize.pageOf_le {m : Nat} (h : IsMemSize m) : pageOf m ≤ m := by
  obtain ⟨p, dual, hsel, hcov⟩ := h.covers
  rw [pageOf, hsel]
  exact hcov.value_le

section Iteration

variable {s next : GenState} {vm : VmSetting} {conf : VmConf} {info : VmInfo}

/-- One iteration places the RAM and the flash of its VM at the running addresses. -/
theorem VmAccepted.regions (h : VmAccepted s vm conf info next) (hs : GenInv s) :
    ramRegion (conf, info) = (ramReq info).regionAt s.vmRamInterAddr ∧
      flashRegion (conf, info) = (flashReq info).regionAt s.vmFlashInterAddr := by
  obtain ⟨ramEntry, flashEntry, maps, hram, hflash, -, -⟩ := h.tlb_eq
  have htot := hs.total_le
  have hram_le := hs.ram_le
  have hflash_le := hs.flash_le
  have hram_sz := h.ram_size.bounds
  have hflash_sz := h.flash_size.bounds
  simp only [totalTlbEntriesMax, vmsRamIntermediateBaseAddress, vmsFlashIntermediateBaseAddress]
    at htot hram_le hflash_le
  obtain ⟨-, -, -, -, hrb, -⟩ := processTlbEntry_ok h.ram_size (by omega) hram
  obtain ⟨-, -, -, -, hfb, -⟩ := processTlbEntry_ok h.flash_size (by omega) hflash
  constructor
  · simp only [ramRegion, ramReq, Layout.Req.regionAt, hrb]
  · simp only [flashRegion, flashReq, Layout.Req.regionAt, hfb]

/-- The running addresses move to the ends of the regions just placed, and stay
in range. -/
theorem VmAccepted.next_spec (h : VmAccepted s vm conf info next) (hs : GenInv s) :
    next.vmRamInterAddr = (ramRegion (conf, info)).stop ∧
      next.vmFlashInterAddr = (flashRegion (conf, info)).stop ∧ GenInv next := by
  obtain ⟨hr, hf⟩ := h.regions hs
  have hr0 : conf.ramBase = Layout.alignUp (pageOf info.ramSize) s.vmRamInterAddr :=
    congrArg Layout.Region.start hr
  have hf0 : conf.flashBaseAdd = Layout.alignUp (pageOf info.flashSize) s.vmFlashInterAddr :=
    congrArg Layout.Region.start hf
  have hr_ge := Layout.alignUp_ge (pageOf_pos info.ramSize) s.vmRamInterAddr
  have hf_ge := Layout.alignUp_ge (pageOf_pos info.flashSize) s.vmFlashInterAddr
  have hr_le := Layout.alignUp_le (pageOf info.ramSize) s.vmRamInterAddr
  have hf_le := Layout.alignUp_le (pageOf info.flashSize) s.vmFlashInterAddr
  rw [← hr0] at hr_ge hr_le
  rw [← hf0] at hf_ge hf_le
  have hrp := h.ram_size.pageOf_le
  have hfp := h.flash_size.pageOf_le
  have hram_sz := h.ram_size.bounds
  have hflash_sz := h.flash_size.bounds
  obtain ⟨htot, hram_ge, hram_le, hflash_ge, hflash_le⟩ := hs
  have hmax := h.entries_le
  have hentries := h.entries_next
  have hnum := h.num_eq
  have hram_next := h.ram_next
  have hflash_next := h.flash_next
  simp only [totalTlbEntriesMax, vmsRamIntermediateBaseAddress, vmsFlashIntermediateBaseAddress]
    at htot hram_ge hram_le hflash_ge hflash_le hmax
  -- no sum wraps, so the running addresses are the ends of the regions
  have hram_lt : conf.ramBase + info.ramSize < 2 ^ 32 := by omega
  have hflash_lt : conf.flashBaseAdd + info.flashSize < 2 ^ 32 := by omega
  rw [add32, u32_of_lt hram_lt] at hram_next
  rw [add32, u32_of_lt hflash_lt] at hflash_next
  refine ⟨hram_next, hflash_next, ?_, ?_, ?_, ?_, ?_⟩ <;>
    simp only [totalTlbEntriesMax, vmsRamIntermediateBaseAddress,
      vmsFlashIntermediateBaseAddress] <;> omega

/-- The running addresses of an accepted iteration, as placed regions. -/
theorem VmAccepted.bounds (h : VmAccepted s vm conf info next) (hs : GenInv s) :
    0x80008000 ≤ conf.ramBase ∧ conf.ramBase + info.ramSize ≤ 0x80008000 + 15 * 2 ^ 20 ∧
      0x9D010000 ≤ conf.flashBaseAdd ∧
      conf.flashBaseAdd + info.flashSize ≤ 0x9D010000 + 15 * 2 ^ 20 := by
  obtain ⟨hr, hf⟩ := h.regions hs
  obtain ⟨hrn, hfn, hnext⟩ := h.next_spec hs
  have hr0 : conf.ramBase = Layout.alignUp (pageOf info.ramSize) s.vmRamInterAddr :=
    congrArg Layout.Region.start hr
  have hf0 : conf.flashBaseAdd = Layout.alignUp (pageOf info.flashSize) s.vmFlashInterAddr :=
    congrArg Layout.Region.start hf
  have hr_ge := Layout.alignUp_ge (pageOf_pos info.ramSize) s.vmRamInterAddr
  have hf_ge := Layout.alignUp_ge (pageOf_pos info.flashSize) s.vmFlashInterAddr
  have htot := hnext.total_le
  have hram_ge := hs.ram_ge
  have hflash_ge := hs.flash_ge
  have hram_le := hnext.ram_le
  have hflash_le := hnext.flash_le
  rw [hrn] at hram_le
  rw [hfn] at hflash_le
  simp only [totalTlbEntriesMax, vmsRamIntermediateBaseAddress, vmsFlashIntermediateBaseAddress,
    ramRegion, flashRegion, Layout.Region.stop] at *
  omega

end Iteration

/-- The generated rows, in order, hold the regions that serial placement gives
to the RAM and flash requests of the VMs. -/
theorem genConfLoop_place {s : GenState} (hs : GenInv s) {vms : List VmSetting}
    {rows : List (VmConf × VmInfo)} (h : genConfLoop s vms = .ok rows) :
    rows.map ramRegion = Layout.place s.vmRamInterAddr (rows.map fun r => ramReq r.2) ∧
      rows.map flashRegion = Layout.place s.vmFlashInterAddr (rows.map fun r => flashReq r.2) := by
  induction vms generalizing s rows with
  | nil =>
    cases h
    exact ⟨rfl, rfl⟩
  | cons vm vms ih =>
    obtain ⟨⟨⟨conf, info⟩, next⟩, hvm, h⟩ := bind_eq_ok.mp h
    obtain ⟨rest, hrest, h⟩ := bind_eq_ok.mp h
    cases h
    have hacc := genConfVm_spec hvm
    obtain ⟨hr, hf⟩ := hacc.regions hs
    obtain ⟨hrn, hfn, hnext⟩ := hacc.next_spec hs
    obtain ⟨ihr, ihf⟩ := ih hnext hrest
    simp only [List.map_cons, Layout.place]
    rw [ihr, ihf, hrn, hfn, hr, hf]
    exact ⟨rfl, rfl⟩

/-- Every row of an accepted list comes from an iteration whose state is in range. -/
theorem genConfLoop_rows {s : GenState} (hs : GenInv s) {vms : List VmSetting}
    {rows : List (VmConf × VmInfo)} (h : genConfLoop s vms = .ok rows) :
    List.Forall₂ (fun vm row => ∃ s' next, GenInv s' ∧ VmAccepted s' vm row.1 row.2 next)
      vms rows := by
  induction vms generalizing s rows with
  | nil =>
    cases h
    exact List.Forall₂.nil
  | cons vm vms ih =>
    obtain ⟨⟨⟨conf, info⟩, next⟩, hvm, h⟩ := bind_eq_ok.mp h
    obtain ⟨rest, hrest, h⟩ := bind_eq_ok.mp h
    cases h
    have hacc := genConfVm_spec hvm
    exact List.Forall₂.cons ⟨s, next, hs, hacc⟩ (ih (hacc.next_spec hs).2.2 hrest)

end PrplHypervisor.Genconf
