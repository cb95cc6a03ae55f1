import PrplHypervisor.Drivers.Mapping

/-!
# Exactness of the hypercall mapping

A guest pointer and the address `tlbCreateEntry` returns for it ought to lead to the
same bytes. The mapping is made at the VM's base address, so the parity of its page
decides which half of the pair the pointer's page is in, while the pointer's own page
always goes into the first half.

- `PointerExact`: the two views agree on a range.
- `exact_iff`: they do exactly if the RAM starts on an even page.
- `pointer_translation_exact`: the same for the VMs of every accepted configuration.
-/

namespace PrplHypervisor

open Genconf Word32 Layout

/-- Each address of the mapped range leads, through the entry just written, to the byte
the guest reaches through its own entry `e`. -/
def PointerExact (e : TlbEntry) (tlb : RootTlb) (address baseaddr size tlbindex : Nat)
    (useCache : Bool) : Prop :=
  ∃ r, (tlbCreateEntry tlb address baseaddr size tlbindex useCache).1 tlbindex = some r ∧
    ∀ i < size, ∃ pa, e.regs.translate (physical (address + i)) = some pa ∧
      r.translate ((tlbCreateEntry tlb address baseaddr size tlbindex useCache).2 + i) = some pa

/-- The address the VM's base is rebased from. -/
def ksegOf (useCache : Bool) : Nat := if useCache then 0x80000000 else 0xA0000000

section Pointer

variable {baseaddr ramSize : Nat} (hram : IsRam baseaddr ramSize)
include hram

/-- Rebasing keeps the offset in the page and the parity of the page. -/
theorem sub32_ksegOf (useCache : Bool) :
    sub32 baseaddr (ksegOf useCache) % 0x2000 = baseaddr % 0x2000 := by
  have hge := hram.base_ge
  cases useCache with
  | true =>
    rw [show ksegOf true = 0x80000000 from rfl, hram.sub32_base]
    omega
  | false =>
    rw [show ksegOf false = 0xA0000000 from rfl, sub32, u32]
    omega

theorem tlbCreateEntry_address (tlb : RootTlb) (address size tlbindex : Nat) (useCache : Bool) :
    (tlbCreateEntry tlb address baseaddr size tlbindex useCache).2 =
      sub32 baseaddr (ksegOf useCache) + address % 0x1000 := by
  have hge := hram.base_ge
  have hle := hram.stop_le
  have hsize := hram.size_aligned
  have hpos := hram.size_pos
  have hand : address &&& 0xFFF = address % 0x1000 :=
    Nat.and_two_pow_sub_one_eq_mod address 12
  have hsum : add32 (address % 0x1000) baseaddr = address % 0x1000 + baseaddr :=
    u32_of_lt (by omega)
  show sub32 (add32 (address &&& 0xFFF) baseaddr) (ksegOf useCache) = _
  rw [hand, hsum]
  cases useCache with
  | true =>
    rw [show ksegOf true = 0x80000000 from rfl, sub32, sub32, u32, u32]
    omega
  | false =>
    rw [show ksegOf false = 0xA0000000 from rfl, sub32, sub32, u32, u32]
    omega

/-- Rebasing a pointer into the RAM stays below the 4 GB. -/
theorem guestPhysical_ram {a : Nat} (hlo : 0x80000000 ≤ a) (hhi : a ≤ 0x80000000 + ramSize) :
    guestPhysical baseaddr a = baseaddr - 0x80000000 + (a - 0x80000000) := by
  have hge := hram.base_ge
  have hle := hram.stop_le
  rw [guestPhysical, hram.sub32_base, sub32_of_le hlo (by omega)]
  exact u32_of_lt (by omega)

/-- A range of up to one page in the VM's RAM is mapped exactly if and only if the RAM
starts on an even page. -/
theorem exact_iff {e : TlbEntry} {tlb : RootTlb} {address size tlbindex : Nat} {useCache : Bool}
    (hpos : 0 < size) (hsize : size ≤ 0x1000) (hlo : 0x80000000 ≤ address)
    (hhi : address + size ≤ 0x80000000 + ramSize)
    (he : ∀ i < size, e.regs.translate (physical (address + i)) =
      some (baseaddr - 0x80000000 + (address + i - 0x80000000))) :
    PointerExact e tlb address baseaddr size tlbindex useCache ↔ EvenBase baseaddr := by
  have haligned := hram.base_aligned
  have hbase := sub32_ksegOf hram useCache
  have hend : add32 address size = address + size := by
    have := hram.stop_le
    have := hram.base_ge
    exact u32_of_lt (by omega)
  have hfirst := guestPhysical_ram hram hlo (by omega)
  have hlast := guestPhysical_ram hram (a := address + size) (by omega) hhi
  have hpair : ∀ va pa, (hypercallEntry address baseaddr size tlbindex
      (ksegOf useCache)).regs.translate va = some pa ↔ _ := fun va pa =>
    hypercallEntry_pair hram ⟨address, size, size, false⟩ tlbindex (ksegOf useCache)
  dsimp only at hpair
  unfold MapsNext at hpair
  rw [hend, hfirst, hlast] at hpair
  have hwritten : (tlbCreateEntry tlb address baseaddr size tlbindex useCache).1 tlbindex =
      some (hypercallEntry address baseaddr size tlbindex (ksegOf useCache)).regs :=
    Function.update_self ..
  unfold PointerExact EvenBase
  rw [tlbCreateEntry_address hram, hwritten]
  generalize sub32 baseaddr (ksegOf useCache) = mapped at hbase hpair ⊢
  constructor
  · rintro ⟨r, hr, hexact⟩
    obtain rfl := Option.some.inj hr
    -- the first byte decides: on an odd page it falls into the second half
    obtain ⟨pa, hguest, hmapped⟩ := hexact 0 hpos
    rw [he 0 hpos] at hguest
    obtain rfl := Option.some.inj hguest
    obtain ⟨o, ho, hva, ⟨hlow, -⟩ | ⟨-, hnext, hpa⟩⟩ := (hpair _ _).mp hmapped
    · omega
    · omega
  · intro heven
    refine ⟨_, rfl, fun i hi => ⟨_, he i hi, (hpair _ _).mpr ?_⟩⟩
    refine ⟨address % 0x1000 + i, by omega, by omega, ?_⟩
    rcases Nat.lt_or_ge (address % 0x1000 + i) 0x1000 with hlow | hhigh
    · exact Or.inl ⟨hlow, by omega⟩
    · -- the range crosses into the next page, which the entry maps then
      exact Or.inr ⟨hhigh, by omega, by omega⟩

end Pointer

/-! ## The VMs of a configuration -/

/-- The first entry of every VM maps its RAM. -/
theorem ramEntry_translate {vms : List VmSetting} {rows : List (VmConf × VmInfo)}
    (hacc : genConfVms (some vms) = .ok rows) {k : Nat} {row : VmConf × VmInfo} {mach : Vm}
    (hrow : rows[k]? = some row)
    (hmach : (initializeMachines (rows.map Prod.fst)).machines[k]? = some mach) :
    mach.baseAddr = row.1.ramBase ∧ ∃ e, mach.tlbentries[0]? = some e ∧
      (initializeMachines (rows.map Prod.fst)).tlb e.index = some e.regs ∧
      e.regs.guestRid = mach.id ∧
      ∀ a, 0x80000000 ≤ a → a < 0x80000000 + row.2.ramSize →
        e.regs.translate (physical a) = some (row.1.ramBase - 0x80000000 + (a - 0x80000000)) := by
  have hbuilt := genConfVms_built hacc
  obtain ⟨vm, -, s, next, hs, hvm⟩ := genConfVms_row hacc (List.mem_of_getElem? hrow)
  have hconf : (rows.map Prod.fst)[k]? = some row.1 := by
    rw [List.getElem?_map, hrow]
    rfl
  obtain ⟨-, -, hbase, -⟩ := hbuilt.machine k mach row.1 hmach hconf
  -- the first entry of a machine is that of its RAM
  obtain ⟨ramEntry, flashEntry, maps, hram, -, -, htlb⟩ := hvm.tlb_eq
  obtain ⟨hge, hle, -, -⟩ := hvm.bounds hs
  obtain ⟨hmin, hmax, -⟩ := hvm.ram_size.bounds
  have hsram := hs.ram_le
  have hstot := hs.total_le
  simp only [totalTlbEntriesMax, vmsRamIntermediateBaseAddress] at hsram hstot
  obtain ⟨p, dual, hcov, hpage, hround, rfl⟩ := processTlbEntry_ok hvm.ram_size (by omega) hram
  have hdvd : p.value ∣ row.1.ramBase := by
    rw [hround, hpage]
    exact alignUp_dvd _ _
  have hphys : physical row.1.ramBase = row.1.ramBase - 0x80000000 := by
    rw [physical_eq]
    omega
  have hfirst : (row.1.tlb.take row.1.numTlbEntries)[0]? = some
      (tlbEntriesAt p dual row.2.ramSize row.1.ramBase vmsRamVirtualBaseAddress) := by
    rw [htlb, hvm.num_eq]
    rfl
  obtain ⟨slot, hentry, hslot⟩ := hbuilt.entry hmach hconf hfirst
  refine ⟨hbase, _, hentry, hslot, rfl, fun a hlo hhi => ?_⟩
  -- RAM addresses are offsets from the start of the region
  have hphysa := physical_eq a
  refine (vmTlbEntry_translate hcov hdvd (hcov.va_dvd hmax).1 (by omega) (by omega)).mpr ?_
  rw [physical_ramVa]
  omega

/-- **Hypercall pointer translation is exact** for the VMs whose RAM starts on an even
page of 4 KB, and for no other: there not one range of up to a page is. -/
theorem pointer_translation_exact {vms : List VmSetting} {rows : List (VmConf × VmInfo)}
    (hacc : genConfVms (some vms) = .ok rows) {k : Nat} {row : VmConf × VmInfo} {mach : Vm}
    (hrow : rows[k]? = some row)
    (hmach : (initializeMachines (rows.map Prod.fst)).machines[k]? = some mach) :
    ∃ e, mach.tlbentries[0]? = some e ∧
      (initializeMachines (rows.map Prod.fst)).tlb e.index = some e.regs ∧
      e.regs.guestRid = mach.id ∧
      ∀ (tlb : RootTlb) (address size tlbindex : Nat) (useCache : Bool), 0 < size →
        size ≤ 4096 → 0x80000000 ≤ address → address + size ≤ 0x80000000 + row.2.ramSize →
        (PointerExact e tlb address mach.baseAddr size tlbindex useCache ↔
          EvenBase row.1.ramBase) := by
  obtain ⟨hbase, e, hentry, htlb, hgid, htranslate⟩ := ramEntry_translate hacc hrow hmach
  refine ⟨e, hentry, htlb, hgid, fun tlb address size tlbindex useCache hpos hsize hlo hhi => ?_⟩
  rw [hbase]
  exact exact_iff (isRam_of_row hacc (List.mem_of_getElem? hrow)) hpos hsize hlo hhi
    fun i hi => htranslate _ (by omega) (by omega)

/-- In the sample both VMs start on even pages: a buffer across a page boundary. -/
theorem pointer_translation_exact_pingPong : ∃ mach e,
    (initializeMachines (pingPongRows.map Prod.fst)).machines[1]? = some mach ∧
      mach.tlbentries[0]? = some e ∧
      PointerExact e (fun _ => none) 0x80000F00 mach.baseAddr 512 hypercallSlot cacheable := by
  obtain ⟨e, he, -, -, hexact⟩ := pointer_translation_exact pingPong_accepted
    (k := 1) rfl (show (initializeMachines (pingPongRows.map Prod.fst)).machines[1]? = _ from rfl)
  exact ⟨_, e, rfl, he, (hexact _ _ _ _ _ (by decide) (by decide) (by decide) (by decide)).mpr
    (by decide)⟩

/-- A VM of 4 KB pushes the next one to an odd page. -/
def oddVms : List VmSetting := [bareVm "ping" "MEM_SIZE_4KB", bareVm "pong" "MEM_SIZE_4KB"]

def oddVmsRows : List (VmConf × VmInfo) := (genConfVms (some oddVms)).toOption.getD []

/-- There the mapped address of a pointer does not translate at all. -/
theorem odd_page_unmapped : genConfVms (some oddVms) = .ok oddVmsRows ∧
    ∃ mach e, (initializeMachines (oddVmsRows.map Prod.fst)).machines[1]? = some mach ∧
      mach.baseAddr = 0x80009000 ∧ mach.tlbentries[0]? = some e ∧
      ¬ PointerExact e (fun _ => none) 0x80000000 mach.baseAddr 4 hypercallSlot cacheable := by
  refine ⟨rfl, _, _, rfl, by decide, rfl, ?_⟩
  rintro ⟨r, hr, hexact⟩
  obtain rfl := Option.some.inj hr
  obtain ⟨pa, -, hpa⟩ := hexact 0 (by decide)
  exact absurd (hpa.symm.trans (by decide : _ = none)) (by simp)

end PrplHypervisor
