import PrplHypervisor.Kernel.Partition

/-!
# Additional memory maps

A `memory_maps` entry asks for a piece of physical memory at its own address, usually
the registers of a device. The generator rounds the physical side up to the page it
has chosen and leaves the virtual side as it is.

- `genMemMap_ok`: the entry that is generated for an accepted setting.
- `identity_iff`: it maps its range to itself exactly if the base is aligned to a pair of
  pages and is not the address 0.
- `memory_maps_identity`: the same for every VM of an accepted configuration, in the TLB.
-/

namespace PrplHypervisor

open Genconf Word32 Layout

/-- The slot translates each of the `size` addresses from `base` on to itself. The root
TLB sees the low 29 bits of an address. -/
def TlbRegs.IdentityMap (r : TlbRegs) (base size : Nat) : Prop :=
  ∀ o < size, r.translate (physical (base + o)) = some (physical base + o)

/-! ## The generated entry -/

theorem genMemMap_ok {mm : MemMapSetting} {base : BitVec 32} {name : String} {t : TlbEntries}
    (hbase : mm.baseAddr = some base) (hname : mm.pageSize = some name)
    (h : genMemMap mm = .ok t) :
    IsMemSize (getValueFromStr memSizes name) ∧ ∃ p dual,
      Covers (getValueFromStr memSizes name) p dual ∧
      pageOf (getValueFromStr memSizes name) = p.value ∧
      t = tlbEntriesAt p dual (getValueFromStr memSizes name) (calculateMemBase p base.toNat)
        base.toNat := by
  unfold genMemMap at h
  obtain ⟨b, hb, hrest⟩ := bind_eq_ok.mp h
  obtain ⟨n, hn, hrest'⟩ := bind_eq_ok.mp hrest
  obtain ⟨size, hsize, hrest''⟩ := bind_eq_ok.mp hrest'
  obtain ⟨entry, hentry, hentry'⟩ := bind_eq_ok.mp hrest''
  obtain rfl := Option.some.inj (hbase.symm.trans (lookup_eq_ok.mp hb))
  obtain rfl := Option.some.inj (hname.symm.trans (lookup_eq_ok.mp hn))
  obtain rfl : entry.1 = t := Except.ok.inj hentry'
  have hmem := isMemSize_of_lookupSize hsize
  obtain rfl := (lookupSize_eq_ok.mp hsize).1
  obtain ⟨p, dual, hsel, hcov⟩ := hmem.covers
  refine ⟨hmem, p, dual, hcov, by rw [pageOf, hsel], ?_⟩
  unfold processTlbEntry at hentry
  rw [hsel] at hentry
  rw [← Except.ok.inj hentry]
  rfl

/-- A half is valid if its frame is not 0, and leads to the page of its address. -/
theorem frameEntryLo_page {V : Nat} (h4k : 2 ^ 12 ∣ V) (a : Nat) :
    (frameEntryLo a / 2 % 2 = 1 ↔ physical a / 2 ^ 12 ≠ 0) ∧
      frameEntryLo a / 2 ^ 6 * 2 ^ 12 / V = physical a / V := by
  have hlt : physical a < 2 ^ 29 := physical_eq a ▸ Nat.mod_lt a (by decide)
  have hframe : frameEntryLo a = physical a / 2 ^ 12 * 2 ^ 6 + 16 +
      if physical a / 2 ^ 12 ≠ 0 then 6 else 0 := by
    rw [frameEntryLo, kseg0AddrToPhysical_eq]
    split
    · exact entryLo_encode (by omega) (Or.inr rfl)
    · exact entryLo_encode (by omega) (Or.inl rfl)
  obtain ⟨j, rfl⟩ := h4k
  constructor
  · rw [hframe]
    split <;> omega
  · have hpfn : frameEntryLo a / 2 ^ 6 = physical a / 2 ^ 12 := by
      rw [hframe]
      split <;> omega
    rw [hpfn, ← Nat.div_div_eq_div_mul, ← Nat.div_div_eq_div_mul,
      Nat.mul_div_cancel _ (by decide)]

/-- Moving by fewer than `c` pages leads to another page modulo `c`. -/
theorem add_mod_ne {b d c : Nat} (hd : 0 < d) (hdc : d < c) : (b + d) % c ≠ b % c := by
  intro h
  have hzero : (b + d - b) % c = 0 := Nat.sub_mod_eq_zero_of_mod_eq h
  rw [Nat.add_sub_cancel_left, Nat.mod_eq_of_lt hdc] at hzero
  omega

/-- Rounding moves a base that is not aligned to the next page. -/
theorem calculateMemBase_page {p : MemSizesDef PageMask} (hp : p ∈ pageSizes) (base : Nat)
    {c : Nat} (hc : 2 ^ 29 = p.value * c) :
    p.value ∣ calculateMemBase p base ∧
      physical (calculateMemBase p base) / p.value =
        (base / p.value + if p.value ∣ base then 0 else 1) % c := by
  obtain ⟨k, -, hk, hv, hm, -⟩ := pageSizes_row hp
  have hpos := pageSizes_pos hp
  have hpage : ∀ a, physical a / p.value = a / p.value % c := by
    intro a
    rw [physical_eq, hc, Nat.mod_mul_right_div_self]
  rw [hpage]
  unfold calculateMemBase
  by_cases h0 : p.value ∣ base
  · rw [if_neg (not_not.mpr (Nat.mod_eq_zero_of_dvd h0)), if_pos h0]
    exact ⟨h0, rfl⟩
  · have hround : add32 base p.value &&& not32 p.mask =
        add32 base p.value / p.value * p.value := by
      rw [hm, hv]
      exact and_not32_mask (u32_lt _) (by omega)
    rw [if_pos (fun h => h0 (Nat.dvd_of_mod_eq_zero h)), if_neg h0, hround]
    refine ⟨Nat.dvd_mul_left _ _, ?_⟩
    -- the sum wraps at a multiple of `c` pages
    have h32 : 2 ^ 32 = p.value * (c * 8) := by
      rw [← Nat.mul_assoc, ← hc]
      decide
    rw [Nat.mul_div_cancel _ hpos, add32, u32, h32, Nat.mod_mul_right_div_self,
      Nat.mod_mod_of_dvd _ (Nat.dvd_mul_right c 8), Nat.add_div_right _ hpos]

/-- A translated address lies in the page its half leads to. -/
theorem TlbRegs.translate_page {r : TlbRegs} {V va pa : Nat} (hV : r.pageSize = V)
    (hpos : 0 < V) (h : r.translate va = some pa) :
    r.half va / 2 % 2 = 1 ∧ r.half va / 2 ^ 6 * 2 ^ 12 / V = pa / V := by
  unfold TlbRegs.translate at h
  split at h
  case isFalse => cases h
  case isTrue hc =>
    refine ⟨hc.2, ?_⟩
    rw [← Option.some.inj h, hV, Nat.mul_comm _ V, Nat.mul_add_div hpos,
      Nat.div_eq_of_lt (Nat.mod_lt _ hpos), Nat.add_zero]

section Identity

variable {p : MemSizesDef PageMask} {dual : Bool} {m base id slot : Nat}

/-- The second half of a dual entry leads to the page after the one of the first half. -/
theorem nextFrame_page (hp : p ∈ pageSizes) {a c : Nat} (hc : 2 ^ 29 = p.value * c) :
    physical (add32 a p.value) / p.value = (physical a / p.value + 1) % c := by
  have hpos := pageSizes_pos hp
  have h32 : 2 ^ 32 = p.value * (c * 8) := by
    rw [← Nat.mul_assoc, ← hc]
    decide
  rw [physical_eq, physical_eq, add32, u32, Nat.mod_mod_of_dvd _ (by decide), hc,
    Nat.mod_mul_right_div_self, Nat.mod_mul_right_div_self, Nat.add_div_right _ hpos,
    Nat.mod_add_mod]

/-- The 512 MB of physical addresses are more than two pages, and whole pairs of them. -/
theorem Genconf.Covers.pages (hcov : Covers m p dual) (hm : m ≤ 2 ^ 20) :
    2 * p.value ∣ 2 ^ 29 ∧ ∃ c, 2 ^ 29 = p.value * c ∧ 2 < c := by
  obtain ⟨k, -, -, hval, -, -⟩ := pageSizes_row hcov.mem
  have hle := hcov.value_le
  have hk : k ≤ 20 := by
    by_contra hk
    have := Nat.pow_le_pow_right (show 0 < 2 by decide) (show 21 ≤ k by omega)
    omega
  have h2V : 2 * p.value ∣ 2 ^ 29 := by
    rw [hval, ← Nat.pow_succ']
    exact Nat.pow_dvd_pow 2 (by omega)
  obtain ⟨c, hc⟩ : p.value ∣ 2 ^ 29 := (Nat.dvd_mul_left _ 2).trans h2V
  refine ⟨h2V, c, hc, ?_⟩
  by_contra hcon
  have := Nat.mul_le_mul hle (show c ≤ 2 by omega)
  omega

theorem vmTlbEntry_pageSize (hcov : Covers m p dual) {b va : Nat} :
    (vmTlbEntry id slot (tlbEntriesAt p dual m b va)).regs.pageSize = p.value := by
  obtain ⟨-, -, -, -, -, hbits⟩ := pageSizes_row hcov.mem
  have hmask : (vmTlbEntry id slot (tlbEntriesAt p dual m b va)).regs.pageMask =
      p.name.bits * 2 ^ 13 := pageMask_encode p.name
  rw [TlbRegs.pageSize, hmask, Nat.mul_div_cancel _ (by decide), hbits]

/-- If the first address of the range is mapped to itself, the base is aligned. -/
theorem aligned_of_first (hcov : Covers m p dual) (hm : m ≤ 2 ^ 20)
    (h : (vmTlbEntry id slot (tlbEntriesAt p dual m (calculateMemBase p base)
      base)).regs.translate (physical base) = some (physical base)) :
    2 * p.value ∣ physical base ∧ physical base ≠ 0 := by
  have hVpos : 0 < p.value := pageSizes_pos hcov.mem
  have h4k : 2 ^ 12 ∣ p.value := by
    obtain ⟨k, hk12, -, hval, -⟩ := pageSizes_row hcov.mem
    exact hval ▸ Nat.pow_dvd_pow 2 hk12
  obtain ⟨-, c, hc, hc2⟩ := hcov.pages hm
  have hbasepage : physical base / p.value = base / p.value % c := by
    rw [physical_eq, hc, Nat.mod_mul_right_div_self]
  obtain ⟨-, hround⟩ := calculateMemBase_page hcov.mem base hc
  obtain ⟨hvalid, hpage⟩ := TlbRegs.translate_page (vmTlbEntry_pageSize hcov) hVpos h
  unfold TlbRegs.half at hvalid hpage
  rw [vmTlbEntry_pageSize hcov] at hvalid hpage
  split at hpage
  case isTrue heven =>
    -- the first half leads to the rounded base, so nothing was rounded
    rw [if_pos heven] at hvalid
    obtain ⟨hframe, hlo⟩ := frameEntryLo_page h4k (calculateMemBase p base)
    have hsame := hlo.symm.trans hpage
    rw [hround, hbasepage] at hsame
    have hdvd : p.value ∣ base := by
      by_contra hno
      rw [if_neg hno] at hsame
      exact add_mod_ne (by decide) (by omega) hsame
    have hbase : calculateMemBase p base = base := by
      rw [calculateMemBase, if_neg (not_not.mpr (Nat.mod_eq_zero_of_dvd hdvd))]
    have hphys : p.value ∣ physical base := by
      rw [physical_eq, Nat.dvd_mod_iff ⟨c, hc⟩]
      exact hdvd
    constructor
    · obtain ⟨q, hq⟩ := hphys
      rw [hq, Nat.mul_div_cancel_left _ hVpos] at heven
      rw [hq, Nat.mul_comm 2]
      exact Nat.mul_dvd_mul_left _ (Nat.dvd_of_mod_eq_zero heven)
    · intro hzero
      have hne := hframe.mp hvalid
      rw [hbase, hzero] at hne
      exact hne rfl
  case isFalse hodd =>
    -- the second half is empty or leads to a later page
    rw [if_neg hodd] at hvalid
    exfalso
    cases dual with
    | false =>
      have hlo1 : (vmTlbEntry id slot (tlbEntriesAt p false m (calculateMemBase p base)
          base)).regs.entryLo1 = 16 := by
        simp [vmTlbEntry, tlbEntriesAt, TlbEntry.regs, entryloCShift, u32]
      rw [hlo1] at hvalid
      omega
    | true =>
      have hsize := hcov.size_eq
      rw [if_pos rfl] at hsize
      have hhalf : m / 2 = p.value := by omega
      have hlo := (frameEntryLo_page h4k (add32 (calculateMemBase p base) (m / 2))).2
      have hsame := hlo.symm.trans hpage
      rw [hhalf, nextFrame_page hcov.mem hc, hround, hbasepage, Nat.mod_add_mod,
        Nat.add_assoc] at hsame
      refine add_mod_ne ?_ ?_ hsame
      · split <;> omega
      · split <;> omega

end Identity

/-- An additional map is the identity on its range exactly if its base is aligned to a
pair of pages and is not physical address 0. -/
theorem identity_iff {p : MemSizesDef PageMask} {dual : Bool} {m base id slot : Nat}
    (hm : IsMemSize m) (hcov : Covers m p dual) :
    (vmTlbEntry id slot (tlbEntriesAt p dual m (calculateMemBase p base) base)).regs.IdentityMap
        base m ↔ 2 * p.value ∣ base ∧ physical base ≠ 0 := by
  obtain ⟨hm4k, hm20, -⟩ := hm.bounds
  obtain ⟨h2V, -⟩ := hcov.pages hm20
  have hpair : 2 * p.value ∣ physical base ↔ 2 * p.value ∣ base := by
    rw [physical_eq, Nat.dvd_mod_iff h2V]
  constructor
  · intro hid
    have hfirst := hid 0 (by omega)
    rw [Nat.add_zero, Nat.add_zero] at hfirst
    obtain ⟨hdvd, hpos⟩ := aligned_of_first hcov hm20 hfirst
    exact ⟨hpair.mp hdvd, hpos⟩
  · rintro ⟨hdvd, hpos⟩ o ho
    have hdvd1 : p.value ∣ base := (Nat.dvd_mul_left _ 2).trans hdvd
    have hbase : calculateMemBase p base = base := by
      rw [calculateMemBase, if_neg (not_not.mpr (Nat.mod_eq_zero_of_dvd hdvd1))]
    -- a pair of pages from an aligned base does not leave the 512 MB
    have hfit : physical base + m ≤ 2 ^ 29 := by
      have hlt : physical base < 2 ^ 29 := physical_eq base ▸ Nat.mod_lt base (by decide)
      have hle : m ≤ 2 * p.value := by
        have := hcov.size_eq
        split at this <;> omega
      obtain ⟨q, hq⟩ := hpair.mpr hdvd
      obtain ⟨d, hd⟩ := h2V
      have hqd : q + 1 ≤ d := by
        refine Nat.lt_of_mul_lt_mul_left (a := 2 * p.value) ?_
        omega
      have hmul := Nat.mul_le_mul_left (2 * p.value) hqd
      rw [Nat.mul_add, Nat.mul_one] at hmul
      omega
    have hmod : physical (base + o) = physical base + o := by
      have hphys := physical_eq base
      rw [physical_eq, Nat.add_mod, ← hphys, Nat.mod_eq_of_lt (show o < 2 ^ 29 by omega),
        Nat.mod_eq_of_lt (by omega)]
    rw [hbase, hmod]
    refine (vmTlbEntry_translate hcov hdvd1 (hpair.mpr hdvd) (Nat.pos_of_ne_zero hpos) hfit).mpr ?_
    omega

/-! ## In the TLB of a configuration -/

/-- What `mapM` returns at a place is what the function returns there. -/
theorem mapM_getElem? {ε α β : Type} {f : α → Except ε β} {xs : List α} {ys : List β}
    (h : xs.mapM f = .ok ys) {i : Nat} {x : α} (hx : xs[i]? = some x) :
    ∃ y, ys[i]? = some y ∧ f x = .ok y := by
  induction xs generalizing ys i with
  | nil => cases hx
  | cons a xs ih =>
    rw [List.mapM_cons] at h
    obtain ⟨y, hy, hrest⟩ := bind_eq_ok.mp h
    obtain ⟨rest, hmap, hlist⟩ := bind_eq_ok.mp hrest
    obtain rfl : y :: rest = ys := Except.ok.inj hlist
    cases i with
    | zero =>
      obtain rfl : a = x := Option.some.inj hx
      exact ⟨y, rfl, hy⟩
    | succ i => exact ih hmap hx

/-- **Additional memory maps are identity maps** exactly if their base is aligned to a
pair of the pages chosen for them and is not physical address 0. Map `j` of VM `k` is
entry `j + 2` of that VM, after those of its RAM and its flash. -/
theorem memory_maps_identity {vms : List VmSetting} {rows : List (VmConf × VmInfo)}
    (hacc : genConfVms (some vms) = .ok rows) {k j : Nat} {vm : VmSetting} {mm : MemMapSetting}
    {base : BitVec 32} {name : String} (hvm : vms[k]? = some vm)
    (hmm : vm.memoryMaps[j]? = some mm) (hbase : mm.baseAddr = some base)
    (hname : mm.pageSize = some name) :
    ∃ mach e, (initializeMachines (rows.map Prod.fst)).machines[k]? = some mach ∧
      mach.tlbentries[j + 2]? = some e ∧
      (initializeMachines (rows.map Prod.fst)).tlb e.index = some e.regs ∧
      e.regs.guestRid = mach.id ∧
      (e.regs.IdentityMap base.toNat (getValueFromStr memSizes name) ↔
        2 * pageOf (getValueFromStr memSizes name) ∣ base.toNat ∧ physical base.toNat ≠ 0) := by
  have hbuilt := genConfVms_built hacc
  have hrows := genConfVms_rows hacc
  obtain ⟨hk, rfl⟩ := List.getElem?_eq_some_iff.mp hvm
  have hk' : k < rows.length := hrows.length_eq ▸ hk
  obtain ⟨s, next, -, hrow⟩ : ∃ s next, GenInv s ∧
      VmAccepted s vms[k] rows[k].1 rows[k].2 next := hrows.get hk hk'
  obtain ⟨ramEntry, flashEntry, maps, -, -, hmaps, htlb⟩ := hrow.tlb_eq
  obtain ⟨t, ht, hgen⟩ := mapM_getElem? hmaps hmm
  obtain ⟨hsize, p, dual, hcov, hpage, rfl⟩ := genMemMap_ok hbase hname hgen
  -- the machine built from the row of this VM, and its entry for the map
  have hconf : (rows.map Prod.fst)[k]? = some rows[k].1 := by
    rw [List.getElem?_map, List.getElem?_eq_getElem hk']
    rfl
  have hlen : k < (initializeMachines (rows.map Prod.fst)).machines.length := by
    rw [hbuilt.length_eq, List.length_map]
    exact hk'
  obtain ⟨mach, hmach⟩ : ∃ mach,
      (initializeMachines (rows.map Prod.fst)).machines[k]? = some mach :=
    ⟨_, List.getElem?_eq_getElem hlen⟩
  have htlbj : (rows[k].1.tlb.take rows[k].1.numTlbEntries)[j + 2]? = some (tlbEntriesAt p dual
      (getValueFromStr memSizes name) (calculateMemBase p base.toNat) base.toNat) := by
    have htake : rows[k].1.tlb.take rows[k].1.numTlbEntries = ramEntry :: flashEntry :: maps := by
      rw [htlb, hrow.num_eq]
      exact List.take_of_length_le (by simp [mapM_length hmaps])
    rw [htake, List.getElem?_cons_succ, List.getElem?_cons_succ, ht]
  obtain ⟨slot, hentry, hslot⟩ := hbuilt.entry hmach hconf htlbj
  refine ⟨mach, _, hmach, hentry, hslot, rfl, ?_⟩
  rw [hpage]
  exact identity_iff hsize hcov

/-- One VM with a map of 4 KB at `base`. -/
def deviceVm (base : BitVec 32) : List VmSetting :=
  [{ bareVm "ping" "MEM_SIZE_32KB" with memoryMaps := [⟨some base, some "MEM_SIZE_4KB"⟩] }]

def deviceVmRows (base : BitVec 32) : List (VmConf × VmInfo) :=
  (genConfVms (some (deviceVm base))).toOption.getD []

/-- The map of the sample configurations is the identity. -/
theorem memory_maps_identity_sample : ∃ mach e,
    (initializeMachines ((deviceVmRows 0xbf822000).map Prod.fst)).machines[0]? = some mach ∧
      mach.tlbentries[2]? = some e ∧ e.regs.IdentityMap 0xbf822000 4096 := by
  obtain ⟨mach, e, hmach, he, -, -, hid⟩ := memory_maps_identity
    (show genConfVms (some (deviceVm 0xbf822000)) = .ok (deviceVmRows 0xbf822000) from rfl)
    (show (deviceVm 0xbf822000)[0]? = some _ from rfl) (j := 0) rfl rfl rfl
  exact ⟨mach, e, hmach, he, hid.mpr (by decide)⟩

/-- The page of the USB controller lies in the upper half of its pair, which a map of 4 KB
leaves invalid: its first address is not mapped at all. -/
theorem usb_registers_unmapped :
    genConfVms (some (deviceVm 0xbf8e3000)) = .ok (deviceVmRows 0xbf8e3000) ∧
    ∃ mach e, (initializeMachines ((deviceVmRows 0xbf8e3000).map Prod.fst)).machines[0]? =
      some mach ∧ mach.tlbentries[2]? = some e ∧
      e.regs.translate (physical 0xbf8e3000) = none ∧ ¬ e.regs.IdentityMap 0xbf8e3000 4096 := by
  refine ⟨rfl, _, _, rfl, rfl, by decide, fun hid => ?_⟩
  exact absurd (hid 0 (by decide)) (by decide)

end PrplHypervisor
