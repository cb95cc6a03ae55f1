import PrplHypervisor.Config.Genconf
import PrplHypervisor.Config.StringsCat

/-!
# The string buffers of the configuration generator (platform/cfg_reader/genconf.c)

`genconf` builds its output lines in arrays of `STRSZ` characters, collects the names of the VMs
in one of them and a table of the VMs in one of `LARGESTR`. What it writes to its files is left
out here: `genconf` has no result where a string operation writes outside of its array.
An array that has not been written holds any characters (`junk`).

- `nameStrings`, `settingStrings`, `mapStrings`, `infoStrings`: the string operations of one
  iteration of `gen_conf_vms`, with the checks of `genConfVm` between them.
- `genconf`: the program.
- `Fits`: a condition on the lengths of the names in a configuration, on which nothing is
  written outside.
-/

namespace PrplHypervisor.Genconf

open CString Format

def strsz : Nat := 128

def largestr : Nat := 1024

/-! ## Lines -/

/-- `"%d"` -/
def decimal (v : BitVec 32) : List UInt8 := (Directive.mk false 0 0 .d).text v

/-- `"0x%x"` -/
def hex (v : BitVec 32) : List UInt8 := cstr "0x" ++ (Directive.mk false 0 0 .x).text v

/-- `"0x%05x"` -/
def hexAddress (v : Nat) : List UInt8 :=
  cstr "0x" ++ (Directive.mk false 1 5 .x).text (BitVec.ofNat 32 v)

/-- An `int` counter. -/
def count (n : Nat) : List UInt8 := decimal (BitVec.ofNat 32 n)

def defineParts (flag : Option String) : List (List UInt8) :=
  cstr "#define " :: (flag.map fun f => [cstr f, cstr "\n"]).getD []

def milisecondParts : List (List UInt8) :=
  [cstr "#define MILISECOND ", cstr "(", cstr "(CPU_FREQ/2)", cstr "/ 1000)", cstr "\n"]

def nameParts (name : List UInt8) : List (List UInt8) :=
  [cstr "\t\tvm_name: \"", name, cstr "\",\n"]

def osParts (osType : String) : List (List UInt8) := [cstr "\t\tos_type: ", cstr osType, cstr ",\n"]

def startParts (device : String) : List (List UInt8) :=
  [cstr "\t\t\t\tstart_addr: ", cstr device, cstr "_BASE,\n"]

def sizeParts (device : String) : List (List UInt8) :=
  [cstr "\t\t\t\tsize: ", cstr device, cstr "_SIZE,\n"]

/-- `"%d \t%d \t0x%x\n"` -/
def rowText (info : VmInfo) : List UInt8 :=
  count info.flashSize ++ cstr " \t" ++ count info.ramSize ++ cstr " \t" ++
    hex (BitVec.ofNat 32 info.addressStart) ++ cstr "\n"

def rowParts (name : List UInt8) (info : VmInfo) : List (List UInt8) :=
  [name, cstr " \t", rowText info]

def appListParts (appList : List UInt8) : List (List UInt8) :=
  [cstr "/* Virtual Machine names: ", appList, cstr " */\n"]

/-- Lines that are built in `str` and written one after the other. -/
def linesStrings : Buffer → List (List (List UInt8)) → Option Buffer
  | str, [] => some str
  | str, line :: lines => (stringsCat str strsz line).bind fun str => linesStrings str lines

/-! ## `process_tlb_entry` -/

section Operations

variable (junk : Nat → UInt8)

/-- An array nothing has been written to. -/
def array : Buffer := ⟨strsz, junk⟩

/-- A line of a TLB entry whose value `sprintf` has put into `straux`. -/
def entryLine (label : String) (value : List UInt8) : Option Buffer := do
  let straux ← strcpy (array junk) value
  stringsCat (array junk) strsz [cstr label, ← straux.text, cstr ",\n"]

def pagemaskName : PageMask → String
  | .mask4KB => "PAGEMASK_4KB"
  | .mask16KB => "PAGEMASK_16KB"
  | .mask64KB => "PAGEMASK_64KB"
  | .mask256KB => "PAGEMASK_256KB"
  | .mask1MB => "PAGEMASK_1MB"
  | .mask4MB => "PAGEMASK_4MB"
  | .mask16MB => "PAGEMASK_16MB"
  | .mask64MB => "PAGEMASK_64MB"
  | .mask256MB => "PAGEMASK_256MB"

/-- `entrylo1` of an entry that is not dual is a constant line. -/
def entrylo1Line (dual : Bool) (e : TlbEntries) : Option Buffer :=
  if dual then entryLine junk "\t\t\t\tentrylo1: " (hexAddress e.entrylo1) else some (array junk)

/-- The strings of `process_tlb_entry` for an entry, a dual one or not. -/
def tlbStrings (dual : Bool) (e : TlbEntries) : Option Unit := do
  let _ ← entryLine junk "\t\t\t\tentrylo0: " (hexAddress e.entrylo0)
  let _ ← entrylo1Line junk dual e
  let straux ← snprintf (array junk) strsz (cstr (pagemaskName e.pagemask))
  let _ ← stringsCat (array junk) strsz [cstr "\t\t\t\tpagemask: ", ← straux.text, cstr ",\n"]
  let _ ← entryLine junk "\t\t\t\tentryhi: " (hexAddress e.entryhi)
  return ()

/-- `*dual_entry` after `select_page_mask`. -/
def dualEntry (memSize : Nat) : Bool := (selectPageMask memSize).elim false (·.2)

/-! ## `gen_conf_vms` -/

/-- A check of the generator between its string operations. -/
def orStop {ε α β : Type} (x : Except ε α) (f : α → Option (Except ε β)) : Option (Except ε β) :=
  match x with
  | .error e => some (.error e)
  | .ok a => f a

/-- The strings of the additional memory maps. -/
def mapsStrings : List MemMapSetting → Option (Except GenconfError Unit)
  | [] => some (.ok ())
  | mm :: maps =>
    orStop (genMemMap mm) fun e =>
      (tlbStrings junk (dualEntry (getValueFromStr memSizes (mm.pageSize.getD ""))) e).bind
        fun _ => mapsStrings maps

/-- The TLB entries of a VM; `genConfVm` makes its row of them. -/
def mapStrings (s : GenState) (vm : VmSetting) :
    Option (Except GenconfError ((VmConf × VmInfo) × GenState)) :=
  if s.totalTlbEntries + (vm.memoryMaps.length + 2) > totalTlbEntriesMax then
    some (.error .tooManyTlbEntries)
  else
    orStop (lookup (.missingProperty "RAM_size_bytes") vm.ramSizeBytes) fun ramName =>
    orStop (lookupSize .invalidRamSize ramName) fun ramSize =>
    orStop (processTlbEntry ramSize s.vmRamInterAddr vmsRamVirtualBaseAddress) fun ram =>
    (tlbStrings junk (dualEntry ramSize) ram.1).bind fun _ =>
    orStop (lookup (.missingProperty "flash_size_bytes") vm.flashSizeBytes) fun flashName =>
    orStop (lookupSize .invalidFlashSize flashName) fun flashSize =>
    orStop (processTlbEntry flashSize s.vmFlashInterAddr vmsFlashVirtualBaseAddress) fun flash =>
    (tlbStrings junk (dualEntry flashSize) flash.1).bind fun _ =>
    (mapsStrings junk vm.memoryMaps).bind fun maps =>
    orStop maps fun _ => some (genConfVm s vm)

/-- The arrays of `main` and `gen_conf_vms`. -/
structure Strings where
  appList : Buffer
  vmsInfo : Buffer
  appName : Buffer
  str : Buffer
  auxstr : Buffer

/-- What `gen_conf_vms` does with an application name. -/
def nameStrings (l : Strings) (name : List UInt8) : Option Strings := do
  let appList ← strncat l.appList name strsz
  let appList ← strncat appList (cstr " ") strsz
  let appName ← strncpy l.appName name strsz
  let str ← stringsCat l.str strsz (nameParts (← appName.text))
  return { l with appList := appList, appName := appName, str := str }

def deviceLines (devices : List String) : List (List (List UInt8)) :=
  devices.flatMap fun device => [startParts device, sizeParts device]

/-- The OS type, the devices and the numbers of interrupts and TLB entries. The names of the
interrupts go to the file as they are. An absent list has no number, which always fits. -/
def settingStrings (l : Strings) (osType : String) (vm : VmSetting) : Option Strings := do
  let str ← stringsCat l.str strsz (osParts osType)
  let str ← snprintf str strsz
    (cstr "\t\tdevices_mapping_sz: " ++ count vm.deviceMapping.length ++ cstr ",\n")
  let str ← linesStrings str (deviceLines vm.deviceMapping)
  let str ← snprintf str strsz
    (cstr "\t\tfast_int_sz: " ++ count vm.fastInterrupts.length ++ cstr ",\n")
  let str ← snprintf str strsz
    (cstr "\t\tinterrupt_redirect_sz: " ++ count vm.interruptRedirect.length ++ cstr ",\n")
  let auxstr ← snprintf l.auxstr strsz (cstr "\t\tnum_tlb_entries: " ++
    hex (BitVec.ofNat 32 (vm.memoryMaps.length + 2)) ++ cstr ",\n")
  return { l with str := str, auxstr := auxstr }

/-- The addresses and the row of `vms.info`. -/
def infoStrings (l : Strings) (row : VmConf × VmInfo) : Option Strings := do
  let auxstr ← snprintf l.auxstr strsz
    (cstr "\t\tram_base: " ++ hex (BitVec.ofNat 32 row.1.ramBase) ++ cstr ",\n")
  let auxstr ← snprintf auxstr strsz
    (cstr "\t\tflash_size: " ++ hex (BitVec.ofNat 32 row.1.flashSize) ++ cstr ",\n")
  let auxstr ← snprintf auxstr strsz
    (cstr "\t\tflash_base_add: " ++ hex (BitVec.ofNat 32 row.1.flashBaseAdd) ++ cstr "\n")
  let auxstr ← snprintf auxstr strsz (rowText row.2)
  let str ← stringsCat l.str strsz [← l.appName.text, cstr " \t", ← auxstr.text]
  let vmsInfo ← strcat l.vmsInfo (← str.text)
  return { l with vmsInfo := vmsInfo, str := str, auxstr := auxstr }

/-- One iteration of `gen_conf_vms`, for VM number `vmNumber`. -/
def genConfVmStrings (s : GenState) (vmNumber : Nat) (l : Strings) (vm : VmSetting) :
    Option (Except GenconfError (GenState × Strings)) :=
  (snprintf l.str strsz (cstr "\t\x7b /* VM#" ++ count vmNumber ++ cstr " */\n")).bind fun str =>
  orStop (lookup (.missingProperty "app_name") vm.appName) fun name =>
  (nameStrings { l with str := str } (cstr name)).bind fun l =>
  orStop (lookup (.missingProperty "os_type") vm.osType) fun osType =>
  (settingStrings l osType vm).bind fun l =>
  (mapStrings junk s vm).bind fun row =>
  orStop row fun row =>
  (infoStrings l row.1).map fun l => .ok (row.2, l)

def genConfLoopStrings : GenState → Nat → Strings → List VmSetting →
    Option (Except GenconfError Strings)
  | _, _, l, [] => some (.ok l)
  | s, vmNumber, l, vm :: vms =>
    (genConfVmStrings junk s vmNumber l vm).bind fun r =>
    orStop r fun r => genConfLoopStrings r.1 (vmNumber + 1) r.2 vms

/-- `gen_conf_vms`. -/
def genConfVmsStrings (l : Strings) (setting : Option (List VmSetting)) :
    Option (Except GenconfError Strings) :=
  (strcpy l.appList []).bind fun appList =>
  (strcpy l.vmsInfo (cstr "VM name \tflash_size \tram_size \t address_start\n")).bind fun vmsInfo =>
  orStop (lookup .missingVirtualMachines setting) fun vms =>
  genConfLoopStrings junk {} 1 { l with appList := appList, vmsInfo := vmsInfo } vms

/-! ## The program -/

/-- A cfg file. A debug flag that is no string is `none`; an absent list is the empty one. -/
structure CfgSetting where
  debug : List (Option String)
  uartSpeed : Option (BitVec 32)
  schedulerQuantumMs : Option (BitVec 32)
  guestQuantumMs : Option (BitVec 32)
  virtualMachines : Option (List VmSetting)

/-- Why `genconf` stops. -/
inductive Stop where
  | quantum
  | vms (e : GenconfError)
  deriving Repr, DecidableEq

/-- The definition of a number, if there is one. -/
def numberLine (label tail : String) :
    Option (BitVec 32) → Buffer × Buffer → Option (Buffer × Buffer)
  | none, l => some l
  | some v, (str, auxstr) => do
    let auxstr ← snprintf auxstr strsz (decimal v)
    let str ← stringsCat str strsz [cstr label, ← auxstr.text, cstr tail]
    return (str, auxstr)

/-- `if (value < 3)` -/
def checkQuantum : Option (BitVec 32) → Except Stop Unit
  | none => .ok ()
  | some v => if v.toInt < 3 then .error .quantum else .ok ()

/-- `gen_system_configuration`. -/
def systemStrings (cfg : CfgSetting) : Option (Except Stop Unit) := do
  let str ← linesStrings (array junk) (cfg.debug.map defineParts)
  let str ← stringsCat str strsz milisecondParts
  let l ← numberLine "#define UART_SPEED " "\n" cfg.uartSpeed (str, array junk)
  orStop (checkQuantum cfg.schedulerQuantumMs) fun _ => do
    let l ← numberLine "#define QUANTUM_SCHEDULER_MS " " \n" cfg.schedulerQuantumMs l
    let _ ← numberLine "#define GUEST_QUANTUM_MS " " \n" cfg.guestQuantumMs l
    return .ok ()

/-- `write_vm_number`. -/
def numberStrings (vmCount : Nat) (appList : Buffer) : Option Unit := do
  let str ← stringsCat (array junk) strsz (appListParts (← appList.text))
  let _ ← numberLine "#define NVMACHINES " "\n" (some (BitVec.ofNat 32 vmCount)) (str, array junk)
  return ()

/-- `main` after `gen_conf_vms`. -/
def finishStrings (vmCount : Nat) (r : Except GenconfError Strings) :
    Option (Except Stop Strings) :=
  orStop (r.mapError .vms) fun l => (numberStrings junk vmCount l.appList).map fun _ => .ok l

/-- `main`. -/
def genconf (cfg : CfgSetting) : Option (Except Stop Strings) :=
  (systemStrings junk cfg).bind fun r =>
  orStop r fun _ =>
  (genConfVmsStrings junk ⟨array junk, ⟨largestr, junk⟩, array junk, array junk, array junk⟩
    cfg.virtualMachines).bind (finishStrings junk (cfg.virtualMachines.getD []).length)

end Operations

/-! ## When the arrays suffice -/

/-- `app_list` with the names `t` has room for one more name and its blank, and the name gets
its line. -/
def NameFits (t name : List UInt8) : Prop :=
  t.length + name.length + 1 < strsz ∧ CatFits strsz 0 (nameParts name)

def SettingFits (osType : String) (devices : List String) : Prop :=
  CatFits strsz 0 (osParts osType) ∧ ∀ line ∈ deviceLines devices, CatFits strsz 0 line

instance (t name : List UInt8) : Decidable (NameFits t name) :=
  inferInstanceAs (Decidable (_ ∧ _))

instance (osType : String) (devices : List String) : Decidable (SettingFits osType devices) :=
  inferInstanceAs (Decidable (_ ∧ _))

/-- What `gen_conf_vms` checks of a VM with a name and an OS type, `used` TLB entries being
taken before. -/
structure Passes (used : Nat) (vm : VmSetting) : Prop where
  entries : used + (vm.memoryMaps.length + 2) ≤ totalTlbEntriesMax
  ram : ∃ name, vm.ramSizeBytes = some name ∧ getValueFromStr memSizes name ≠ 0
  flash : ∃ name, vm.flashSizeBytes = some name ∧ getValueFromStr memSizes name ≠ 0
  maps : ∀ mm ∈ vm.memoryMaps, mm.baseAddr.isSome ∧
    ∃ name, mm.pageSize = some name ∧ getValueFromStr memSizes name ≠ 0

/-- The row of `vms.info` for a VM at the first address. All addresses have eight digits. -/
def rowInfo (vm : VmSetting) : VmInfo where
  appName := vm.appName.getD ""
  flashSize := getValueFromStr memSizes (vm.flashSizeBytes.getD "")
  ramSize := getValueFromStr memSizes (vm.ramSizeBytes.getD "")
  addressStart := vmsFlashIntermediateBaseAddress

/-- The names of a VM fit, and `rest` holds for the VMs behind it if it passes. -/
def VmFits (used : Nat) (t : List UInt8) (vm : VmSetting) (rest : Nat → List UInt8 → Prop) : Prop :=
  ∀ name, vm.appName = some name → NameFits t (cstr name) ∧
    ∀ osType, vm.osType = some osType → SettingFits osType vm.deviceMapping ∧
      (Passes used vm → CatFits strsz 0 (rowParts (cstr name) (rowInfo vm)) ∧
        rest (used + (vm.memoryMaps.length + 2)) (t ++ cstr name ++ cstr " "))

def VmsFit : Nat → List UInt8 → List VmSetting → Prop
  | _, t, [] => CatFits strsz 0 (appListParts t)
  | used, t, vm :: vms => VmFits used t vm fun used t => VmsFit used t vms

/-- The names in a configuration fit, up to where the generator stops. -/
def Fits (cfg : CfgSetting) : Prop :=
  (∀ flag ∈ cfg.debug, CatFits strsz 0 (defineParts flag)) ∧
    (checkQuantum cfg.schedulerQuantumMs = .ok () →
      ∀ vms, cfg.virtualMachines = some vms → VmsFit 0 [] vms)

/-- The arrays of `gen_conf_vms` have their sizes and their terminators. `app_name` and `str` are
not written without a VM. -/
structure Terminated (vms : List VmSetting) (l : Strings) : Prop where
  appList : l.appList.size = strsz ∧ ∃ t, l.appList.HoldsText t
  vmsInfo : l.vmsInfo.size = largestr ∧ ∃ t, l.vmsInfo.HoldsText t
  appName : l.appName.size = strsz ∧ (vms ≠ [] → ∃ t, l.appName.HoldsText t)
  str : l.str.size = strsz ∧ (vms ≠ [] → ∃ t, l.str.HoldsText t)

end PrplHypervisor.Genconf
