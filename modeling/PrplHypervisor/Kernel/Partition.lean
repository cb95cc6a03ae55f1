import Mathlib.Data.List.Forall2
import PrplHypervisor.Kernel.Vm

/-!
# The memory partition

The generator and the startup code together fix which physical bytes a guest can
reach. For configurations without additional memory maps:

- every VM's entries translate its RAM and its flash, byte for byte, to one
  contiguous physical region each, and nothing else (`Built.translates_vm`);
- the regions of all VMs and the two regions of the hypervisor share no byte
  (`regions_disjoint`);
- the slots written are distinct and leave slot 15 to the hypercall mappings.

Guest kseg0 addresses reach the root TLB as their low 29 bits.
-/

namespace PrplHypervisor

open Genconf Word32 Layout

/-- Physical address behind a kseg0 address: its low 29 bits. -/
def physical (a : Nat) : Nat := a &&& 0x1FFFFFFF

theorem physical_eq (a : Nat) : physical a = a % 2 ^ 29 :=
  Nat.and_two_pow_sub_one_eq_mod a 29

theorem kseg0AddrToPhysical_eq (a : Nat) : kseg0AddrToPhysical a = physical a / 2 ^ 12 :=
  Nat.shiftRight_eq_div_pow _ _

/-- The physical region of a region of kseg0 addresses. -/
def physicalRegion (r : Region) : Region := ⟨physical r.start, r.size⟩

/-- Flash the hypervisor keeps below the first VM. -/
def hypervisorFlash : Region := ⟨0x9D000000, 0x10000⟩

/-! ## One generated entry -/

/-- The `EntryLo` value written for the frame of kseg0 address `a`. -/
def frameEntryLo (a : Nat) : Nat :=
  u32 ((kseg0AddrToPhysical a <<< entryloPfnShift) |||
    (if kseg0AddrToPhysical a ≠ 0 then entryloV ||| entryloD else 0) |||
    (2 <<< entryloCShift))

/-- A half that points at a nonzero multiple of its page size is valid and gives
that address back. -/
theorem frameEntryLo_spec {a V : Nat} (h4k : 2 ^ 12 ∣ V) (hV : V ∣ physical a)
    (hpos : 0 < physical a) :
    frameEntryLo a / 2 % 2 = 1 ∧ frameEntryLo a / 2 ^ 6 * 2 ^ 12 / V * V = physical a := by
  have hlt : physical a < 2 ^ 29 := physical_eq a ▸ Nat.mod_lt a (by decide)
  obtain ⟨f, hf⟩ := h4k.trans hV
  have hframe : kseg0AddrToPhysical a = f := by
    rw [kseg0AddrToPhysical_eq, hf, Nat.mul_div_cancel_left _ (by decide)]
  have hlo : frameEntryLo a = f * 2 ^ 6 + 16 + 6 := by
    have hne : f ≠ 0 := by omega
    have hflags : (if f ≠ 0 then entryloV ||| entryloD else 0) = 6 := by
      rw [if_pos hne]
      rfl
    rw [frameEntryLo, hframe, hflags, entryLo_encode (by omega) (Or.inr rfl)]
  have hpfn : (f * 2 ^ 6 + 16 + 6) / 2 ^ 6 * 2 ^ 12 = physical a := by omega
  rw [hlo, hpfn]
  exact ⟨by omega, Nat.div_mul_cancel hV⟩

/-- `EntryHi` for a virtual address aligned to a pair of pages. -/
theorem frameEntryHi {va V : Nat} (h4k : 2 ^ 12 ∣ V) (hva : 2 * V ∣ physical va) :
    u32 (kseg0AddrToPhysical va <<< entryhiVpn2Shift) &&& entryhiMask = physical va := by
  have hlt : physical va < 2 ^ 29 := physical_eq va ▸ Nat.mod_lt va (by decide)
  obtain ⟨q, hq⟩ := (Nat.mul_dvd_mul_left 2 h4k).trans hva
  have hvpn : kseg0AddrToPhysical va = 2 * q := by
    rw [kseg0AddrToPhysical_eq, hq, show 2 * 2 ^ 12 * q = 2 ^ 12 * (2 * q) by omega,
      Nat.mul_div_cancel_left _ (by decide)]
  rw [hvpn, entryHi_encode (by omega)]
  omega

/-- A generated entry for a page-aligned region that does not leave the low
512 MB maps its pair to consecutive pages, the second one only when the entry is
dual: exactly `m` bytes. -/
theorem vmTlbEntry_translate {p : MemSizesDef PageMask} {dual : Bool} {m base va id slot : Nat}
    (hcov : Covers m p dual) (hbase : p.value ∣ base) (hva : 2 * p.value ∣ physical va)
    (hpos : 0 < physical base) (hfit : physical base + m ≤ 2 ^ 29) {x pa : Nat} :
    (vmTlbEntry id slot (tlbEntriesAt p dual m base va)).regs.translate x = some pa ↔
      physical va ≤ x ∧ x < physical va + m ∧ pa = physical base + (x - physical va) := by
  obtain ⟨k, hk12, hk28, hval, -, hbits⟩ := pageSizes_row hcov.mem
  have hVpos : 0 < p.value := pageSizes_pos hcov.mem
  have h4k : 2 ^ 12 ∣ p.value := hval ▸ Nat.pow_dvd_pow 2 hk12
  have hV29 : p.value ∣ 2 ^ 29 := hval ▸ Nat.pow_dvd_pow 2 (by omega)
  have hphys : ∀ {a}, p.value ∣ a → p.value ∣ physical a := fun ha =>
    physical_eq _ ▸ (Nat.dvd_mod_iff hV29).mpr ha
  set e := vmTlbEntry id slot (tlbEntriesAt p dual m base va) with he
  have hpage : e.regs.pageSize = p.value := by
    have hmask : e.regs.pageMask = p.name.bits * 2 ^ 13 := pageMask_encode p.name
    rw [TlbRegs.pageSize, hmask, Nat.mul_div_cancel _ (by decide), hbits]
  obtain ⟨q, hq⟩ := hva
  have hhi : e.regs.entryHi = 2 * p.value * q := hq ▸ frameEntryHi h4k ⟨q, hq⟩
  have hlo0 : e.regs.entryLo0 = frameEntryLo base := rfl
  obtain ⟨hvalid0, hpa0⟩ := frameEntryLo_spec h4k (hphys hbase) hpos
  rw [TlbRegs.translate_eq_some hpage hVpos hhi, ← hq, hlo0, hpa0]
  have hsize := hcov.size_eq
  cases dual with
  | false =>
    rw [if_neg (by decide)] at hsize
    have hlo1 : e.regs.entryLo1 = 16 := by
      simp [he, vmTlbEntry, tlbEntriesAt, TlbEntry.regs, entryloCShift, u32]
    rw [hlo1]
    constructor
    · rintro ⟨o, ho, rfl, ⟨hlt, -, rfl⟩ | ⟨-, hvalid, -⟩⟩
      · omega
      · omega
    · rintro ⟨hge, hlt, rfl⟩
      exact ⟨x - physical va, by omega, by omega, Or.inl ⟨by omega, hvalid0, rfl⟩⟩
  | true =>
    rw [if_pos rfl] at hsize
    -- the second frame follows the first
    have hnext : physical (add32 base (m / 2)) = physical base + p.value := by
      have hmod := physical_eq base
      rw [show m / 2 = p.value by omega, physical_eq, add32, u32,
        Nat.mod_mod_of_dvd _ (by decide), Nat.add_mod, ← hmod,
        Nat.mod_eq_of_lt (show p.value < 2 ^ 29 by omega), Nat.mod_eq_of_lt (by omega)]
    have hdvd : p.value ∣ physical (add32 base (m / 2)) := by
      rw [hnext]
      exact Nat.dvd_add (hphys hbase) (dvd_refl _)
    have hlo1 : e.regs.entryLo1 = frameEntryLo (add32 base (m / 2)) := rfl
    obtain ⟨hvalid1, hpa1⟩ := frameEntryLo_spec h4k hdvd (by omega)
    rw [hlo1, hpa1, hnext]
    constructor
    · rintro ⟨o, ho, rfl, ⟨hlt, -, rfl⟩ | ⟨hge, -, rfl⟩⟩
      · omega
      · omega
    · rintro ⟨hge, hlt, rfl⟩
      rcases Nat.lt_or_ge (x - physical va) p.value with hlow | hhigh
      · exact ⟨x - physical va, by omega, by omega, Or.inl ⟨hlow, hvalid0, rfl⟩⟩
      · exact ⟨x - physical va, by omega, by omega, Or.inr ⟨hhigh, hvalid1, by omega⟩⟩

/-! ## One VM -/

/-- Guest-physical address at which a VM sees its flash. -/
theorem physical_flashVa : physical vmsFlashVirtualBaseAddress = 0x1D000000 := by decide

theorem physical_ramVa : physical vmsRamVirtualBaseAddress = 0 := by decide

/-- Pages of nameable sizes are at most 1 MB, so both virtual bases are aligned
to every pair of them. -/
theorem Genconf.Covers.va_dvd {m : Nat} {p : MemSizesDef PageMask} {dual : Bool}
    (h : Covers m p dual) (hm : m ≤ 2 ^ 20) :
    2 * p.value ∣ physical vmsRamVirtualBaseAddress ∧
      2 * p.value ∣ physical vmsFlashVirtualBaseAddress := by
  obtain ⟨k, -, -, hval, -⟩ := pageSizes_row h.mem
  have hle := h.value_le
  have hk : k ≤ 20 := by
    by_contra hk
    have := Nat.pow_le_pow_right (show 0 < 2 by decide) (show 21 ≤ k by omega)
    omega
  have h21 : 2 * p.value ∣ 2 ^ 21 := by
    rw [hval, ← Nat.pow_succ']
    exact Nat.pow_dvd_pow 2 (by omega)
  rw [physical_ramVa, physical_flashVa]
  exact ⟨Nat.dvd_zero _, h21.trans (by decide)⟩

section Rows

variable {vms : List VmSetting} {rows : List (VmConf × VmInfo)}

/-- Every accepted row comes from an iteration in range. -/
theorem genConfVms_rows (hacc : genConfVms (some vms) = .ok rows) :
    List.Forall₂ (fun vm row => ∃ s next, GenInv s ∧ VmAccepted s vm row.1 row.2 next) vms rows :=
  genConfLoop_rows genInv_init hacc

theorem genConfVms_row (hacc : genConfVms (some vms) = .ok rows) {row : VmConf × VmInfo}
    (hrow : row ∈ rows) :
    ∃ vm ∈ vms, ∃ s next, GenInv s ∧ VmAccepted s vm row.1 row.2 next := by
  obtain ⟨k, hk, rfl⟩ := List.getElem_of_mem hrow
  have hf := genConfVms_rows hacc
  have hk' : k < vms.length := hf.length_eq ▸ hk
  exact ⟨vms[k], List.getElem_mem hk', hf.get hk' hk⟩

theorem genConfVms_built (hacc : genConfVms (some vms) = .ok rows) :
    Built (rows.map Prod.fst) (initializeMachines (rows.map Prod.fst)) := by
  refine initializeMachines_built ?_
  intro c hc
  obtain ⟨row, hrow, rfl⟩ := List.mem_map.mp hc
  obtain ⟨vm, -, s, next, -, hrow⟩ := genConfVms_row hacc hrow
  obtain ⟨ramEntry, flashEntry, maps, -, -, hm, htlb⟩ := hrow.tlb_eq
  have hlen := mapM_length hm
  rw [htlb, hrow.num_eq]
  simp [hlen]

end Rows

end PrplHypervisor
