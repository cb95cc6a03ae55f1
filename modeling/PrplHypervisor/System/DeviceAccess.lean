import PrplHypervisor.Drivers.VirtualIo
import PrplHypervisor.Kernel.Partition
import PrplHypervisor.System.Cases

/-!
# Device access of the executing VM

The hypercalls of virtual I/O find the device list of their caller through the id of
its VCPU. The ids come from one counter, the VMs' ids from another, and the table was
filled by a search through the list of VMs.

- `SameIds`: no step renumbers a VCPU (`step_ids`).
- `vmconfP_eq`: entry `k` of the table is the configuration of VM `k`.
- `device_access`: in every reachable state the list is the caller's own, and both
  hypercalls respect it.
-/

namespace PrplHypervisor

open Machine Word32 Layout Genconf

variable {n : Nat}

/-! ## VCPUs keep their ids -/

/-- Every VCPU has the id it had. -/
def SameIds (m m' : Machine n) : Prop := ∀ j, (m'.vcpu j).id = (m.vcpu j).id

theorem SameIds.trans {m₁ m₂ m₃ : Machine n} (h₁ : SameIds m₁ m₂) (h₂ : SameIds m₂ m₃) :
    SameIds m₁ m₃ := fun j => (h₂ j).trans (h₁ j)

/-- Replacing a VCPU by one with its id. -/
theorem sameIds_setVcpu (m : Machine n) (i : Fin n) {v : Vcpu} (hv : v.id = (m.vcpu i).id) :
    SameIds m (m.setVcpu i v) := by
  intro j
  by_cases hj : j = i
  · rw [hj, setVcpu_vcpu_self, hv]
  · rw [setVcpu_vcpu_of_ne _ hj]

theorem contextSave_ids (m : Machine n) : SameIds m (contextSave m) := by
  unfold contextSave
  split
  · exact fun _ => rfl
  · refine sameIds_setVcpu m _ ?_
    unfold saveVcpu
    split <;> rfl

theorem contextRestore_ids {m m' : Machine n} (h : contextRestore m = some m') : SameIds m m' := by
  unfold contextRestore at h
  split at h
  · cases h
  · obtain rfl := Option.some.inj h
    exact sameIds_setVcpu m _ rfl

theorem switchTo_ids {m m' : Machine n} {nd : Option (Node n)} {os : List (Obs n)}
    (h : switchTo m nd = some (m', os)) : SameIds m m' := by
  unfold switchTo at h
  dsimp only at h
  split at h
  case h_1 => cases h
  case h_2 m₁ hrestore =>
    obtain ⟨rfl, -⟩ := Prod.mk.inj (Option.some.inj h)
    have hids := contextRestore_ids hrestore
    exact (contextSave_ids m).trans hids

theorem runScheduler_ids {ticks : Nat} {m m' : Machine n} {os : List (Obs n)}
    (h : runScheduler ticks m = some (m', os)) : SameIds m m' := by
  rcases runScheduler_eq_some h with ⟨nd, m₁, tick, -, hsw, -, rfl⟩ |
    ⟨-, -, nd, m₁, -, hsw, rfl⟩ | ⟨-, -, -, rfl⟩
  · have hids := switchTo_ids hsw
    exact hids
  · have hids := switchTo_ids hsw
    exact hids
  · exact fun _ => rfl

theorem timerInterruptHandler_ids {p : Params} {m m' : Machine n} {epc : Word} {now later : Nat}
    {os : List (Obs n)} (h : timerInterruptHandler p m epc now later = some (m', os)) :
    SameIds m m' := by
  obtain ⟨m₁, os₁, hsched, hline⟩ := timerInterruptHandler_eq_some h
  have hids := runScheduler_ids hsched
  rcases hline with ⟨rfl, -⟩ | ⟨rfl, -⟩
  · exact hids
  · exact hids

theorem injectAll_ids (self : Fin n) (es : List (InterruptMapping n)) (m : Machine n) :
    SameIds m (injectAll self m es).1 := by
  refine injectAll_induction (fun _ _ hids => hids) (fun _ _ hids => hids) ?_ self es (fun _ => rfl)
  intro m₁ i line hids j
  rw [raiseSaved_frame]
  exact hids j

theorem intervmSendMsg_ids (m : Machine n) (self : Fin n) (targetId size : Nat)
    (src : Nat → UInt8) : SameIds m (intervmSendMsg m self targetId size src).1 := by
  intro j
  have hcases := intervmSendMsg_cases m self targetId size src
  generalize intervmSendMsg m self targetId size src = r at hcases
  cases hcases with
  | refused => rfl
  | full => rw [raiseSaved_frame]
  | queued => rw [raiseSaved_frame, enqueue_frame]

/-- What one event does to the ids: nothing. -/
theorem step_ids {p : Params} {m m' : Machine n} {e : Event n} {os : List (Obs n)}
    (h : step p m e = some (m', os)) : SameIds m m' := by
  cases e with
  | timer epc now later => exact timerInterruptHandler_ids h
  | fastInterrupt i =>
    obtain ⟨rfl, -⟩ := Prod.mk.inj (Option.some.inj h)
    unfold fastInterruptDelivery
    split <;> exact fun _ => rfl
  | deviceInterrupt irq =>
    obtain ⟨rfl, -⟩ := Prod.mk.inj (Option.some.inj h)
    exact fun _ => rfl
  | injection =>
    rcases interruptInjection_cases h with ⟨rfl, rfl⟩ | ⟨self, -, hinj⟩
    · exact fun _ => rfl
    · have hids := injectAll_ids self m.interruptMappingList m
      rwa [hinj] at hids
  | writeCp0 r w =>
    obtain ⟨self, -, heq⟩ := Option.map_eq_some_iff.mp h
    obtain ⟨rfl, -⟩ := Prod.mk.inj heq
    exact fun _ => rfl
  | takeInterrupt mask =>
    obtain ⟨self, -, htake⟩ := Option.bind_eq_some_iff.mp h
    intro j
    rw [(takeInterrupt_some htake).vcpu]
  | sendMsg targetId size src =>
    obtain ⟨self, -, heq⟩ := Option.map_eq_some_iff.mp h
    obtain ⟨rfl, -⟩ := Prod.mk.inj heq
    exact intervmSendMsg_ids m self targetId size src
  | irqNetwork bufferAddr =>
    obtain ⟨self, -, hnet⟩ := Option.bind_eq_some_iff.mp h
    obtain ⟨m₁, hm₁, heq⟩ := Option.map_eq_some_iff.mp hnet
    obtain ⟨rfl, -⟩ := Prod.mk.inj heq
    obtain ⟨-, -, -, -, hvcpu⟩ := irqNetwork_frame hm₁
    intro j
    rw [hvcpu]
  | receiveMessage bufsz block =>
    obtain ⟨self, -, hrecv⟩ := Option.bind_eq_some_iff.mp h
    obtain ⟨⟨m₁, got⟩, hr, heq⟩ := Option.map_eq_some_iff.mp hrecv
    obtain ⟨rfl, -⟩ := Prod.mk.inj heq
    obtain ⟨-, -, hvcpu, -, -⟩ := receiveMessage_frame hr
    intro j
    rw [hvcpu]

theorem Reaches.ids {p : Params} {ok : Machine n → Event n → Prop} {m₀ m : Machine n}
    {tr : List (Obs n)} (h : Reaches p ok m₀ tr m) : SameIds m₀ m :=
  Lts.Run.invariant (fun _ m => SameIds m₀ m) (fun _ => rfl)
    (fun _ _ _ _ _ hids _ hstep => hids.trans (step_ids hstep)) h

/-! ## The table of configurations -/

theorem vmconfP_eq {m : Machine n} (hids : ∀ i, (m.vm i).id = i.val + 1) (k : Fin n) :
    vmconfP m k.val = some (m.vm k).vmconf := by
  rw [vmconfP, if_pos k.isLt, getVcpuFromId_eq hids k]
  rfl

/-! ## Every reachable state -/

section Reachable

variable {vms : List VmSetting} {rows : List (VmConf × VmInfo)}

/-- **Virtual I/O.** In every reachable state of an accepted configuration the table gives
the executing VM its own configuration, and both hypercalls, for every address and value,
respect the devices listed there. -/
theorem device_access (hacc : genConfVms (some vms) = .ok rows) (devices : String → DeviceMapping)
    (hwrap : ∀ row ∈ rows, ∀ name ∈ row.1.devices, (devices name).NoWrap)
    (hlen : (initializeMachines (rows.map Prod.fst)).machines.length =
      (initializeMachines (rows.map Prod.fst)).readyList.length)
    (cpu : Cpu) (table : List (InterruptMapping _)) (p : Params) {tr : List (Obs _)}
    {m : Machine _} (hrun : Reaches p Lts.anyEvent
      (boot (initializeMachines (rows.map Prod.fst)) hlen cpu table) tr m)
    {i : Fin _} (hexec : m.executing = some i) {row : VmConf × VmInfo}
    (hrow : rows[i.val]? = some row) :
    (m.vm i).vmconf = row.1 ∧
      callerConf (vmconfP (boot (initializeMachines (rows.map Prod.fst)) hlen cpu table)) m =
        some row.1 ∧
      ∀ bus memoryAddr value, ∃ r w,
        readAddress devices
          (vmconfP (boot (initializeMachines (rows.map Prod.fst)) hlen cpu table)) m bus
          memoryAddr = some r ∧
        writeAddress devices
          (vmconfP (boot (initializeMachines (rows.map Prod.fst)) hlen cpu table)) m memoryAddr
          value = some w ∧
        DeviceAccess devices row.1 bus memoryAddr value r w := by
  have hbuilt := genConfVms_built hacc
  have hinit := boot_initial hbuilt hlen cpu table
  have hconf : (rows.map Prod.fst)[i.val]? = some row.1 := by
    rw [List.getElem?_map, hrow]
    rfl
  have hvm : ((boot (initializeMachines (rows.map Prod.fst)) hlen cpu table).vm i).vmconf =
      row.1 :=
    (hbuilt.machine i.val _ row.1 (List.getElem?_eq_getElem i.isLt) hconf).2.1
  -- the VCPU's id is its position, as it was after startup
  have hid : (m.vcpu i).id = i.val + 1 := by
    rw [hrun.ids i]
    obtain ⟨entryPoint, hvcpu⟩ := hbuilt.vcpu i.val _ (List.getElem?_eq_getElem (hlen ▸ i.isLt))
    exact congrArg Vcpu.id hvcpu
  have hentry : callerConf (vmconfP (boot (initializeMachines (rows.map Prod.fst)) hlen cpu
      table)) m = some row.1 := by
    rw [callerConf, hexec, Option.bind_some, hid, Nat.add_sub_cancel, vmconfP_eq hinit.vm_id i,
      hvm]
  refine ⟨?_, hentry, fun bus memoryAddr value => ?_⟩
  · rw [hrun.vm hinit]
    exact hvm
  · exact deviceAccess_of_conf (hwrap row (List.mem_of_getElem? hrow)) hentry bus memoryAddr value

end Reachable

/-- `ping` uses a UART, `blink` the same UART and port H. -/
def blinkVms : List VmSetting :=
  [{ bareVm "ping" "MEM_SIZE_32KB" with deviceMapping := ["UART2"] },
    { bareVm "blink" "MEM_SIZE_32KB" with deviceMapping := ["PORTH", "UART2"] }]

def blinkRows : List (VmConf × VmInfo) := (genConfVms (some blinkVms)).toOption.getD []

/-- The two devices as the board's header places them. -/
def boardDevices (name : String) : DeviceMapping :=
  if name = "PORTH" then ⟨0xbf860700, 0x9c⟩ else ⟨0xbf822200, 0x4c⟩

/-- The machine that `blinkVms` boots. -/
def blinkMachine : Machine 2 :=
  boot (initializeMachines (blinkRows.map Prod.fst)) rfl pingPongMachine.cpu []

/-- The first VCPU to run is that of `ping`, which is refused port H. -/
theorem device_access_blink :
    ∃ tr m, Reaches ⟨1, 30000⟩ Lts.anyEvent blinkMachine tr m ∧ m.executing = some 0 ∧
      ∀ value, ∃ r w, writeAddress boardDevices (vmconfP blinkMachine) m 0xbf860710 value = some w ∧
        DeviceAccess boardDevices (m.vm 0).vmconf (fun _ => 0) 0xbf860710 value r w ∧
        w = ⟨[], some hcallAddressNotAllowed⟩ := by
  have hrun := Lts.exec_run (show (Lts.exec (step ⟨1, 30000⟩) Lts.anyEvent blinkMachine
    [.timer 0 0 0]).isSome = true by decide)
  have hacc : genConfVms (some blinkVms) = .ok blinkRows := rfl
  have hwrap : ∀ row ∈ blinkRows, ∀ name ∈ row.1.devices, (boardDevices name).NoWrap := by
    intro _ _ name _
    unfold boardDevices DeviceMapping.NoWrap
    split <;> decide
  obtain ⟨hvm, -, hboth⟩ := device_access hacc boardDevices hwrap rfl _ _ _ hrun
    (i := (0 : Fin 2)) (by decide) rfl
  refine ⟨_, _, hrun, by decide, fun value => ?_⟩
  obtain ⟨r, w, -, hw, haccess⟩ := hboth (fun _ => 0) 0xbf860710 value
  rw [← hvm] at haccess
  -- no device of `ping` contains the address
  exact ⟨r, w, hw, haccess, (haccess.refused (by decide)).2⟩

end PrplHypervisor
