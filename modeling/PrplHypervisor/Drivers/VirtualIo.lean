import PrplHypervisor.Kernel.Scheduler

/-!
# Virtual I/O (drivers/virtual-io.c)

Guests read and write device registers through two hypercalls, which check the address
against the devices listed in the VM's `device_mapping`. The lists are found through a
table of pointers to the VMs' configurations, indexed by the id of the VCPU.

- `vmconfP`: the table `virtual_io_init` fills.
- `readAddress`, `writeAddress`: the hypercalls, with the accesses they make.
- `DeviceAccess`: what they promise for one configuration and address;
  `deviceAccess_of_conf`: they keep it for the configuration the table gives them.

The names in a configuration's list are prefixes of macros for the base and the size of
a device; `devices` resolves them.
-/

namespace PrplHypervisor

open Machine Word32 Layout Genconf

variable {n : Nat}

def hcallAddressNotAllowed : Int := -4

/-- `struct device_mapping_t`. -/
structure DeviceMapping where
  startAddr : Nat
  size : Nat
  deriving Repr, DecidableEq

/-- The registers of a device, the last one at offset `size`. -/
def DeviceMapping.region (d : DeviceMapping) : Region := ⟨d.startAddr, d.size + 4⟩

/-- The check both hypercalls make, with its 32-bit sum. -/
def DeviceMapping.Matches (d : DeviceMapping) (memoryAddr : Nat) : Prop :=
  d.startAddr ≤ memoryAddr ∧ add32 d.startAddr d.size ≥ memoryAddr

instance (d : DeviceMapping) (memoryAddr : Nat) : Decidable (d.Matches memoryAddr) :=
  inferInstanceAs (Decidable (_ ∧ _))

/-- An access of the hypervisor to a word of memory. -/
inductive BusOp where
  | load (address : Nat)
  | store (address value : Nat)
  deriving Repr, DecidableEq

def BusOp.region : BusOp → Region
  | .load address => ⟨address, 4⟩
  | .store address _ => ⟨address, 4⟩

/-- The accesses a hypercall makes and what it leaves in `v0`, if anything. -/
structure IoReply where
  ops : List BusOp
  v0 : Option Int
  deriving Repr, DecidableEq

/-- Element `i` of `vmconf_p` as `virtual_io_init` fills it. -/
def vmconfP (m : Machine n) (i : Nat) : Option VmConf :=
  if i < n then (getVcpuFromId m (i + 1)).map fun t => (m.vm t).vmconf else none

/-- Some listed device matches. -/
def allowed (devices : String → DeviceMapping) (conf : VmConf) (memoryAddr : Nat) : Prop :=
  ∃ name ∈ conf.devices, (devices name).Matches memoryAddr

instance (devices : String → DeviceMapping) (conf : VmConf) (memoryAddr : Nat) :
    Decidable (allowed devices conf memoryAddr) :=
  inferInstanceAs (Decidable (∃ name ∈ conf.devices, (devices name).Matches memoryAddr))

/-- The configuration both hypercalls use: the one at the index of `vcpu_executing`. -/
def callerConf (confOf : Nat → Option VmConf) (m : Machine n) : Option VmConf :=
  m.executing.bind fun i => confOf ((m.vcpu i).id - 1)

/-- `read_address`; `bus` is what memory answers. -/
def readAddress (devices : String → DeviceMapping) (confOf : Nat → Option VmConf) (m : Machine n)
    (bus : Nat → Nat) (memoryAddr : Nat) : Option IoReply :=
  (callerConf confOf m).map fun conf =>
    if allowed devices conf memoryAddr then ⟨[.load memoryAddr], some (bus memoryAddr)⟩
    else ⟨[], none⟩

/-- `write_address`. -/
def writeAddress (devices : String → DeviceMapping) (confOf : Nat → Option VmConf) (m : Machine n)
    (memoryAddr value : Nat) : Option IoReply :=
  (callerConf confOf m).map fun conf =>
    if allowed devices conf memoryAddr then ⟨[.store memoryAddr value], some 0⟩
    else ⟨[], some hcallAddressNotAllowed⟩

/-! ## What the check promises -/

/-- The answers `r` and `w` of the two hypercalls for an address respect the device list. -/
structure DeviceAccess (devices : String → DeviceMapping) (conf : VmConf) (bus : Nat → Nat)
    (memoryAddr value : Nat) (r w : IoReply) : Prop where
  /-- Whatever is touched belongs to one of the listed devices. -/
  confined : ∀ op ∈ r.ops ++ w.ops, ∃ name ∈ conf.devices,
    ∀ a, op.region.Contains a → (devices name).region.Contains a
  /-- Every register of a listed device is read and written. -/
  complete : ∀ name ∈ conf.devices, ∀ offset ≤ (devices name).size,
    memoryAddr = (devices name).startAddr + offset →
      r = ⟨[.load memoryAddr], some (bus memoryAddr)⟩ ∧ w = ⟨[.store memoryAddr value], some 0⟩
  /-- An address of no listed device is refused. -/
  refused : (∀ name ∈ conf.devices, ¬ (devices name).region.Contains memoryAddr) →
    r.ops = [] ∧ w = ⟨[], some hcallAddressNotAllowed⟩

/-- The device's registers do not wrap around the address space. -/
def DeviceMapping.NoWrap (d : DeviceMapping) : Prop := d.startAddr + d.size + 4 ≤ 2 ^ 32

theorem DeviceMapping.NoWrap.matches_iff {d : DeviceMapping} (h : d.NoWrap) (memoryAddr : Nat) :
    d.Matches memoryAddr ↔ ∃ offset ≤ d.size, memoryAddr = d.startAddr + offset := by
  have hsum : add32 d.startAddr d.size = d.startAddr + d.size := by
    unfold NoWrap at h
    exact u32_of_lt (by omega)
  rw [Matches, hsum]
  constructor
  · rintro ⟨hlo, hhi⟩
    exact ⟨memoryAddr - d.startAddr, by omega, by omega⟩
  · rintro ⟨offset, hle, rfl⟩
    exact ⟨by omega, by omega⟩

theorem deviceAccess_of_conf {devices : String → DeviceMapping} {conf : VmConf}
    (hwrap : ∀ name ∈ conf.devices, (devices name).NoWrap) {confOf : Nat → Option VmConf}
    {m : Machine n} (hconf : callerConf confOf m = some conf) (bus : Nat → Nat)
    (memoryAddr value : Nat) :
    ∃ r w, readAddress devices confOf m bus memoryAddr = some r ∧
      writeAddress devices confOf m memoryAddr value = some w ∧
      DeviceAccess devices conf bus memoryAddr value r w := by
  unfold readAddress writeAddress
  rw [hconf]
  refine ⟨_, _, rfl, rfl, ?_⟩
  dsimp only
  by_cases hallowed : allowed devices conf memoryAddr
  · rw [if_pos hallowed, if_pos hallowed]
    obtain ⟨name, hname, hmatch⟩ := hallowed
    obtain ⟨offset, hoff, rfl⟩ := ((hwrap name hname).matches_iff _).mp hmatch
    -- the address lies in a device of the VM, and so does the whole word
    have hword : (devices name).region.Contains ((devices name).startAddr + offset) := by
      simp only [DeviceMapping.region, Region.Contains, Region.stop]
      omega
    constructor
    · intro op hop
      refine ⟨name, hname, ?_⟩
      rcases List.mem_pair.mp hop with rfl | rfl <;>
        · intro a ha
          simp only [BusOp.region, DeviceMapping.region, Region.Contains, Region.stop] at ha ⊢
          omega
    · exact fun _ _ _ _ _ => ⟨rfl, rfl⟩
    · exact fun hno => absurd hword (hno name hname)
  -- no device of the VM has the address, and neither call touches the bus
  · rw [if_neg hallowed, if_neg hallowed]
    constructor
    · intro op hop
      cases hop
    · intro name hname offset hoff haddr
      exact absurd ⟨name, hname, ((hwrap name hname).matches_iff _).mpr ⟨offset, hoff, haddr⟩⟩
        hallowed
    · exact fun _ => ⟨rfl, rfl⟩

end PrplHypervisor
