import Mathlib.Data.List.Basic
import PrplHypervisor.Kernel.Partition

/-!
# Guest memory through the hypercall mapping

A handler that takes a guest pointer maps it with `tlbCreateEntry` into slot 15 and
then moves bytes through the address it gets back, upwards from it, until it is done
or the root TLB refuses an address: a TLB exception in the hypervisor stops it for
good.

- `RootTlb.lookup`: the hypervisor's own use of the TLB.
- `Transfer`: what a handler asks for; `Transfer.physical`: the physical bytes it
  reaches; `mappedBytes`: how many a mapping gives it at most.
- `Transfer.mem_physical`: these bytes, for every pointer, size and placement. The
  low page of the pair is the pointer's page only when the VM's RAM starts on an
  even page; the high page is the page of the end of the buffer.
- `Transfer.inRam_iff`: exactly which transfers stay in the VM's RAM.
-/

namespace PrplHypervisor

open Genconf Word32 Layout

/-- The slot the hypercall mappings use. -/
def hypercallSlot : Nat := 0xf

/-- Translation of an address of the hypervisor: by the entries of guest id 0. -/
def RootTlb.lookup (tlb : RootTlb) (va : Nat) : Option Nat :=
  (List.range 16).findSome? fun i =>
    (tlb i).bind fun r => if r.guestRid = 0 then r.translate va else none

/-- Physical bytes of `count` accesses upwards from `va`, up to the first one the TLB
refuses. -/
def accesses (tlb : RootTlb) (va : Nat) : Nat → List Nat
  | 0 => []
  | count + 1 =>
    match tlb.lookup va with
    | none => []
    | some pa => pa :: accesses tlb (add32 va 1) count

/-- Bytes moved through a mapping of a guest pointer. -/
structure Transfer where
  /-- The guest pointer. -/
  address : Nat
  /-- The size the mapping is made for. -/
  size : Nat
  /-- The number of bytes moved if nothing stops the handler. -/
  bytes : Nat
  /-- The mapping is written to rather than read. -/
  toGuest : Bool
  deriving Repr, DecidableEq

/-- Where `tlbCreateEntry` maps the pointer. -/
def mappedAt (address baseaddr : Nat) : Nat :=
  sub32 (add32 (address &&& 0xFFF) baseaddr) 0x80000000

/-- Physical bytes the handler reaches for a VM whose RAM starts at `baseaddr`. -/
def Transfer.physical (tlb : RootTlb) (baseaddr : Nat) (t : Transfer) : List Nat :=
  let (tlb', va) := tlbCreateEntry tlb t.address baseaddr t.size hypercallSlot cacheable
  accesses tlb' va t.bytes

/-! ## memcpy (sys/lib/libc.c) -/

/-- Iterations of `while((int)bytes-- > 0)`. -/
def signedCount (bytes : Nat) : Nat := if bytes < 0x80000000 then bytes else 0

/-- Bytes `memcpy` moves: byte by byte unless both addresses and the count are word
aligned, then word by word. -/
def memcpyBytes (dst src bytes : Nat) : Nat :=
  if (dst ||| src ||| bytes) &&& 3 ≠ 0 then signedCount bytes else 4 * signedCount (bytes >>> 2)

/-- A count below 2 GB is moved as it is. -/
theorem memcpyBytes_of_lt {bytes : Nat} (h : bytes < 0x80000000) (dst src : Nat) :
    memcpyBytes dst src bytes = bytes := by
  unfold memcpyBytes
  split
  case isTrue => exact if_pos h
  case isFalse hal =>
    have hmod : bytes % 4 = 0 := by
      rw [not_not, Nat.and_or_distrib_right, Nat.or_eq_zero_iff] at hal
      rw [← hal.2]
      exact (Nat.and_two_pow_sub_one_eq_mod bytes 2).symm
    rw [Nat.shiftRight_eq_div_pow, signedCount, if_pos (by omega)]
    omega

/-! ## The hypervisor's own entries -/

/-- Root TLBs that hypercalls can find: the one built at startup, with slot 15
overwritten any number of times. -/
inductive HypercallTlb (s : Startup) : RootTlb → Prop
  | startup : HypercallTlb s s.tlb
  | mapped {tlb : RootTlb} (address baseaddr size : Nat) (useCache : Bool) :
      HypercallTlb s tlb →
      HypercallTlb s (tlbCreateEntry tlb address baseaddr size hypercallSlot useCache).1

/-- Besides slot 15, every entry belongs to a guest. -/
def GuestTagged (tlb : RootTlb) : Prop :=
  ∀ i r, i ≠ hypercallSlot → tlb i = some r → r.guestRid ≠ 0

theorem Built.guestTagged {cs : List Genconf.VmConf} {s : Startup} (h : Built cs s) :
    GuestTagged s.tlb := by
  intro i r _ hr
  obtain ⟨e, he, -, rfl⟩ := (h.tlb_iff i r).mp hr
  obtain ⟨vm, hvm, he'⟩ := List.mem_flatMap.mp he
  obtain ⟨k, hk⟩ := List.mem_iff_getElem?.mp hvm
  have hlen : k < cs.length := h.length_eq ▸ (List.getElem?_eq_some_iff.mp hk).1
  obtain ⟨-, -, -, slot, hent⟩ := h.machine k vm cs[k] hk (List.getElem?_eq_getElem hlen)
  rw [hent] at he'
  obtain ⟨j, t, -, rfl⟩ := mem_vmTlbEntries.mp he'
  exact Nat.succ_ne_zero k

theorem HypercallTlb.guestTagged {s : Startup} {tlb : RootTlb} (h : HypercallTlb s tlb)
    (hs : GuestTagged s.tlb) : GuestTagged tlb := by
  induction h with
  | startup => exact hs
  | mapped address baseaddr size useCache _ ih =>
    intro i r hi hr
    refine ih i r hi ?_
    rw [← hr]
    exact (Function.update_of_ne hi ..).symm

/-- The hypervisor finds what slot 15 translates and nothing else. -/
theorem lookup_tlbEntryWrite {tlb : RootTlb} (htlb : GuestTagged tlb) {e : TlbEntry}
    (hidx : e.index = hypercallSlot) (hgid : e.guestid = 0) (va : Nat) :
    (tlbEntryWrite tlb e).lookup va = e.regs.translate va := by
  have hslot : tlbEntryWrite tlb e hypercallSlot = some e.regs := by
    rw [← hidx]
    exact Function.update_self ..
  -- the other slots belong to guests
  have hother : ∀ i, i ≠ hypercallSlot → ((tlbEntryWrite tlb e i).bind fun r =>
      if r.guestRid = 0 then r.translate va else none) = none := by
    intro i hi
    have hold : tlbEntryWrite tlb e i = tlb i := Function.update_of_ne (hidx ▸ hi) ..
    rw [hold]
    cases hr : tlb i with
    | none => rfl
    | some r =>
      rw [Option.bind_some, if_neg (htlb i r hi hr)]
  have hlast : (tlbEntryWrite tlb e hypercallSlot).bind (fun r =>
      if r.guestRid = 0 then r.translate va else none) = e.regs.translate va := by
    rw [hslot, Option.bind_some, if_pos (show e.regs.guestRid = 0 from hgid)]
  have hlow : ∀ i ∈ List.range 15, ((tlbEntryWrite tlb e i).bind fun r =>
      if r.guestRid = 0 then r.translate va else none) = none := by
    intro i hi
    rw [List.mem_range] at hi
    exact hother i (by simp only [hypercallSlot]; omega)
  -- the search reaches slot 15 with nothing found
  rw [RootTlb.lookup, List.range_succ, List.findSome?_append,
    List.findSome?_eq_none_iff.mpr hlow, Option.none_or]
  simp only [List.findSome?_cons, List.findSome?_nil]
  rw [show (15 : Nat) = hypercallSlot from rfl, hlast]
  cases e.regs.translate va <;> rfl

/-! ## Runs of accesses -/

/-- Where exactly the first `limit` addresses from `va` are mapped, the bytes reached are
the first `count` of theirs. -/
theorem accesses_eq {tlb : RootTlb} {va limit : Nat} (f : Nat → Nat) (hva : va + limit < 2 ^ 32)
    (hmapped : ∀ j, j < limit → tlb.lookup (va + j) = some (f j))
    (hstop : tlb.lookup (va + limit) = none) (count : Nat) :
    accesses tlb va count = (List.range (min count limit)).map f := by
  induction count generalizing va limit f with
  | zero => rw [Nat.zero_min]; rfl
  | succ count ih =>
    unfold accesses
    cases limit with
    | zero =>
      rw [Nat.add_zero] at hstop
      rw [hstop, Nat.min_zero]
      rfl
    | succ limit =>
      -- one access, and the rest from the next address on
      have h0 := hmapped 0 (Nat.succ_pos _)
      rw [Nat.add_zero] at h0
      have hnext : add32 va 1 = va + 1 := u32_of_lt (by omega)
      have hrest : accesses tlb (va + 1) count =
          (List.range (min count limit)).map fun j => f (j + 1) := by
        refine ih _ (by omega) (fun j hj => ?_) ?_
        · rw [Nat.add_assoc, Nat.add_comm 1 j]
          exact hmapped (j + 1) (by omega)
        · rw [Nat.add_assoc, Nat.add_comm 1 limit]
          exact hstop
      rw [h0, hnext, hrest, Nat.succ_min_succ, List.range_succ_eq_map, List.map_cons, List.map_map]
      rfl

/-! ## What the mapping of a guest pointer translates -/

/-- Physical address of a guest kseg0 address of the VM with RAM at `baseaddr`, as the
mapping computes it. -/
def guestPhysical (baseaddr a : Nat) : Nat :=
  add32 (sub32 baseaddr 0x80000000) (sub32 a 0x80000000)

/-- The range ends on a later page than it starts on, wrapping around: the mapping gets
a second page. -/
def MapsNext (address size : Nat) : Prop := address / 0x1000 < add32 address size / 0x1000

instance (address size : Nat) : Decidable (MapsNext address size) :=
  inferInstanceAs (Decidable (_ < _))

/-- The VM's RAM starts on an even physical page, the low one of its pair. -/
def EvenBase (baseaddr : Nat) : Prop := baseaddr / 0x1000 % 2 = 0

instance (baseaddr : Nat) : Decidable (EvenBase baseaddr) := inferInstanceAs (Decidable (_ = _))

/-- How many bytes the mapping gives the handler, from the mapped pointer up. On an odd
page the pointer falls into the second half of the pair. -/
def mappedBytes (address size baseaddr : Nat) : Nat :=
  if EvenBase baseaddr then (if MapsNext address size then 0x2000 else 0x1000) - address % 0x1000
  else if MapsNext address size then 0x1000 - address % 0x1000 else 0

/-- The physical byte the handler reaches at offset `k`. -/
def Transfer.byteAt (t : Transfer) (baseaddr k : Nat) : Nat :=
  let first := guestPhysical baseaddr t.address / 0x1000 * 0x1000
  let last := guestPhysical baseaddr (add32 t.address t.size) / 0x1000 * 0x1000
  let offset := t.address % 0x1000 + k
  if EvenBase baseaddr then (if offset < 0x1000 then first + offset else last + (offset - 0x1000))
  else last + offset

/-- RAM of a VM as the generator places it: whole pages in the kseg0 half. -/
structure IsRam (baseaddr ramSize : Nat) : Prop where
  base_ge : 0x80000000 ≤ baseaddr
  base_aligned : baseaddr % 0x1000 = 0
  size_aligned : ramSize % 0x1000 = 0
  stop_le : baseaddr + ramSize ≤ 0xA0000000
  size_pos : 0 < ramSize

/-- The generator places RAM so. -/
theorem isRam_of_row {vms : List VmSetting} {rows : List (VmConf × VmInfo)}
    (hacc : genConfVms (some vms) = .ok rows) {row : VmConf × VmInfo} (hrow : row ∈ rows) :
    IsRam row.1.ramBase row.2.ramSize := by
  obtain ⟨setting, -, s, next, hs, hacc_row⟩ := genConfVms_row hacc hrow
  obtain ⟨hge, hle, -, -⟩ := hacc_row.bounds hs
  obtain ⟨hmin, hmax, hmod⟩ := hacc_row.ram_size.bounds
  obtain ⟨p, dual, hsel, hcov⟩ := hacc_row.ram_size.covers
  obtain ⟨k, hk, -, hval, -⟩ := pageSizes_row hcov.mem
  have hpage : 2 ^ 12 ∣ pageOf row.2.ramSize := by
    have hpv : pageOf row.2.ramSize = p.value := by rw [pageOf, hsel]
    rw [hpv, hval]
    exact Nat.pow_dvd_pow 2 hk
  have hbase : pageOf row.2.ramSize ∣ row.1.ramBase := by
    have hstart : row.1.ramBase = alignUp (pageOf row.2.ramSize) s.vmRamInterAddr :=
      congrArg Region.start (hacc_row.regions hs).1
    rw [hstart]
    exact alignUp_dvd _ _
  have hdvd := hpage.trans hbase
  exact ⟨by omega, by omega, by omega, by omega, by omega⟩

section Mapping

variable {baseaddr ramSize : Nat} (hram : IsRam baseaddr ramSize)
include hram

theorem IsRam.sub32_base : sub32 baseaddr 0x80000000 = baseaddr - 0x80000000 := by
  have := hram.stop_le
  exact sub32_of_le hram.base_ge (by omega)

theorem mappedAt_eq (address : Nat) :
    mappedAt address baseaddr = baseaddr - 0x80000000 + address % 0x1000 := by
  have h1 := hram.base_ge
  have h2 := hram.stop_le
  have hand : address &&& 0xFFF = address % 0x1000 :=
    Nat.and_two_pow_sub_one_eq_mod address 12
  have hsum : add32 (address % 0x1000) baseaddr = address % 0x1000 + baseaddr :=
    u32_of_lt (by omega)
  rw [mappedAt, hand, hsum, sub32_of_le (by omega) (by omega)]
  omega

omit hram in
theorem guestPhysical_lt (a : Nat) : guestPhysical baseaddr a < 2 ^ 32 := u32_lt _

/-- The second frame is the one of the end of the range. -/
theorem secondFrame_eq (address size : Nat) :
    sub32 (add32 (add32 (sub32 baseaddr 0x80000000) address) size) 0x80000000 =
      guestPhysical baseaddr (add32 address size) := by
  unfold guestPhysical
  rw [hram.sub32_base]
  unfold sub32 add32 u32
  omega

/-- The register values the mapping programs. -/
theorem hypercallEntry_regs (t : Transfer) (slot kseg : Nat) :
    (hypercallEntry t.address baseaddr t.size slot kseg).regs.entryHi =
        2 * 0x1000 * (sub32 baseaddr kseg / 0x2000) ∧
      (hypercallEntry t.address baseaddr t.size slot kseg).regs.entryLo0 =
        guestPhysical baseaddr t.address / 2 ^ 12 * 2 ^ 6 + 16 + 6 ∧
      (hypercallEntry t.address baseaddr t.size slot kseg).regs.entryLo1 =
        if MapsNext t.address t.size
        then guestPhysical baseaddr (add32 t.address t.size) / 2 ^ 12 * 2 ^ 6 + 16 + 6
        else 16 := by
  set r := (hypercallEntry t.address baseaddr t.size slot kseg).regs with hr
  have hfirst : guestPhysical baseaddr t.address < 2 ^ 32 := guestPhysical_lt _
  have hlast : guestPhysical baseaddr (add32 t.address t.size) < 2 ^ 32 := guestPhysical_lt _
  refine ⟨?_, ?_, ?_⟩
  · have hvpn : sub32 baseaddr kseg >>> 12 = sub32 baseaddr kseg / 2 ^ 12 :=
      Nat.shiftRight_eq_div_pow _ _
    have hlt : sub32 baseaddr kseg < 2 ^ 32 := u32_lt _
    have hhi0 : r.entryHi = u32 ((sub32 baseaddr kseg >>> 12) <<< entryhiVpn2Shift) &&&
        entryhiMask := rfl
    rw [hhi0, hvpn, entryHi_encode (by omega)]
    omega
  · have hpfn : guestPhysical baseaddr t.address >>> 12 =
        guestPhysical baseaddr t.address / 2 ^ 12 := Nat.shiftRight_eq_div_pow _ _
    rw [← entryLo_encode (by omega) (Or.inr rfl : 6 = 0 ∨ 6 = 6), ← hpfn]
    rfl
  · by_cases hnext : MapsNext t.address t.size
    · rw [if_pos hnext]
      have hpfn : guestPhysical baseaddr (add32 t.address t.size) >>> 12 =
          guestPhysical baseaddr (add32 t.address t.size) / 2 ^ 12 :=
        Nat.shiftRight_eq_div_pow _ _
      rw [← entryLo_encode (by omega) (Or.inr rfl : 6 = 0 ∨ 6 = 6), ← hpfn,
        ← secondFrame_eq hram t.address t.size]
      have hcond : t.address / 0x1000 < add32 t.address t.size / 0x1000 := hnext
      simp only [hr, TlbEntry.regs, hypercallEntry, if_pos hcond]
      rfl
    · rw [if_neg hnext]
      have hcond : ¬ t.address / 0x1000 < add32 t.address t.size / 0x1000 := hnext
      simp only [hr, TlbEntry.regs, hypercallEntry, if_neg hcond]
      rfl

/-- The pair the mapping programs, at the VM's base rebased from `kseg`: the pointer's
page below the page of the end of the range, the latter only when it is a later one. -/
theorem hypercallEntry_pair (t : Transfer) (slot kseg : Nat) {va pa : Nat} :
    (hypercallEntry t.address baseaddr t.size slot kseg).regs.translate va = some pa ↔
    ∃ o, o < 2 * 0x1000 ∧ va = 2 * 0x1000 * (sub32 baseaddr kseg / 0x2000) + o ∧
      ((o < 0x1000 ∧ pa = guestPhysical baseaddr t.address / 0x1000 * 0x1000 + o) ∨
        (0x1000 ≤ o ∧ MapsNext t.address t.size ∧
          pa = guestPhysical baseaddr (add32 t.address t.size) / 0x1000 * 0x1000 +
            (o - 0x1000))) := by
  obtain ⟨hhi, hlo0, hlo1⟩ := hypercallEntry_regs hram t slot kseg
  have hpage : (hypercallEntry t.address baseaddr t.size slot kseg).regs.pageSize = 0x1000 := by
    have hmask : (hypercallEntry t.address baseaddr t.size slot kseg).regs.pageMask = 0 := rfl
    rw [TlbRegs.pageSize, hmask]
    rfl
  -- the frame an `EntryLo` value holds, and its valid flag
  have hframe : ∀ x, (x / 2 ^ 12 * 2 ^ 6 + 16 + 6) / 2 ^ 6 * 2 ^ 12 / 0x1000 * 0x1000 =
      x / 0x1000 * 0x1000 := by omega
  have hvalid : ∀ x, (x / 2 ^ 12 * 2 ^ 6 + 16 + 6) / 2 % 2 = 1 := by omega
  rw [TlbRegs.translate_eq_some hpage (by decide) hhi, hlo0, hlo1, hframe]
  constructor
  · rintro ⟨o, ho, hva, ⟨hlt, -, hpa⟩ | ⟨hge, hv, hpa⟩⟩
    · exact ⟨o, ho, hva, Or.inl ⟨hlt, hpa⟩⟩
    · by_cases hnext : MapsNext t.address t.size
      · rw [if_pos hnext, hframe] at hpa
        exact ⟨o, ho, hva, Or.inr ⟨hge, hnext, hpa⟩⟩
      · rw [if_neg hnext] at hv
        exact absurd hv (by decide)
  · rintro ⟨o, ho, hva, ⟨hlt, hpa⟩ | ⟨hge, hnext, hpa⟩⟩
    · exact ⟨o, ho, hva, Or.inl ⟨hlt, hvalid _, hpa⟩⟩
    · refine ⟨o, ho, hva, Or.inr ⟨hge, ?_⟩⟩
      rw [if_pos hnext, hframe]
      exact ⟨hvalid _, hpa⟩

/-- The same for the mappings of the hypercall handlers. -/
theorem hypercallEntry_translate (t : Transfer) {va pa : Nat} :
    (hypercallEntry t.address baseaddr t.size hypercallSlot 0x80000000).regs.translate va =
      some pa ↔
    ∃ o, o < 2 * 0x1000 ∧ va = 2 * 0x1000 * ((baseaddr - 0x80000000) / 0x2000) + o ∧
      ((o < 0x1000 ∧ pa = guestPhysical baseaddr t.address / 0x1000 * 0x1000 + o) ∨
        (0x1000 ≤ o ∧ MapsNext t.address t.size ∧
          pa = guestPhysical baseaddr (add32 t.address t.size) / 0x1000 * 0x1000 +
            (o - 0x1000))) := by
  rw [hypercallEntry_pair hram, hram.sub32_base]

variable {tlb : RootTlb} (htlb : GuestTagged tlb)
include htlb

/-- The bytes the handler reaches: the first `t.bytes` of those the mapping gives. -/
theorem Transfer.physical_eq (t : Transfer) :
    t.physical tlb baseaddr =
      (List.range (min t.bytes (mappedBytes t.address t.size baseaddr))).map
        (t.byteAt baseaddr) := by
  have hbase := hram.base_aligned
  have hge := hram.base_ge
  have hstop := hram.stop_le
  have hva := mappedAt_eq hram t.address
  set tlb' := (tlbCreateEntry tlb t.address baseaddr t.size hypercallSlot cacheable).1
  have hlookup : ∀ va, tlb'.lookup va = (hypercallEntry t.address baseaddr t.size hypercallSlot
      0x80000000).regs.translate va := fun va => lookup_tlbEntryWrite htlb rfl rfl va
  have hmapped : mappedBytes t.address t.size baseaddr ≤ 0x2000 := by
    unfold mappedBytes
    split <;> split <;> omega
  show accesses tlb' (mappedAt t.address baseaddr) t.bytes = _
  refine accesses_eq _ (by omega) (fun j hj => ?_) ?_ t.bytes
  · rw [hlookup, hypercallEntry_translate hram]
    unfold Transfer.byteAt
    unfold mappedBytes at hj
    by_cases heven : EvenBase baseaddr
    · rw [if_pos heven] at hj ⊢
      unfold EvenBase at heven
      by_cases hoff : t.address % 0x1000 + j < 0x1000
      · rw [if_pos hoff]
        exact ⟨t.address % 0x1000 + j, by omega, by omega, Or.inl ⟨hoff, rfl⟩⟩
      · rw [if_neg hoff]
        by_cases hnext : MapsNext t.address t.size
        · rw [if_pos hnext] at hj
          exact ⟨t.address % 0x1000 + j, by omega, by omega, Or.inr ⟨by omega, hnext, rfl⟩⟩
        · rw [if_neg hnext] at hj
          omega
    · rw [if_neg heven] at hj ⊢
      unfold EvenBase at heven
      by_cases hnext : MapsNext t.address t.size
      · rw [if_pos hnext] at hj
        exact ⟨0x1000 + (t.address % 0x1000 + j), by omega, by omega,
          Or.inr ⟨by omega, hnext, by omega⟩⟩
      · rw [if_neg hnext] at hj
        omega
  · rw [hlookup, Option.eq_none_iff_forall_ne_some]
    intro pa hpa
    obtain ⟨o, ho, hvo, hcases⟩ := (hypercallEntry_translate hram t).mp hpa
    rw [hva] at hvo
    unfold mappedBytes EvenBase at hvo
    by_cases hnext : MapsNext t.address t.size
    · -- two pages end where the second one does
      simp only [hnext, if_true] at hvo
      split at hvo <;> omega
    · -- one page: its half of the pair is the only one that is valid
      simp only [hnext, if_false] at hvo
      rcases hcases with ⟨hlt, -⟩ | ⟨-, hyes, -⟩
      · split at hvo <;> omega
      · exact hnext hyes

/-- The mapping gives the handler no more bytes than the transfer asks for and no more
than the pages hold. -/
theorem Transfer.length_physical (t : Transfer) :
    (t.physical tlb baseaddr).length = min t.bytes (mappedBytes t.address t.size baseaddr) := by
  rw [t.physical_eq hram htlb, List.length_map, List.length_range]

omit htlb

/-! ## Staying in the VM's own RAM -/

/-- The guest address lies in the guest's RAM. -/
def InRam (ramSize a : Nat) : Prop := sub32 a 0x80000000 < ramSize

instance (ramSize a : Nat) : Decidable (InRam ramSize a) := inferInstanceAs (Decidable (_ < _))

/-- The transfer stays in the VM's RAM. On an even base page the pointer has to lie in
RAM and, when the transfer runs on to the next page, so has the end of the range. On
an odd base page only the end counts, and only when the mapping has a second page. -/
def Transfer.Fits (t : Transfer) (baseaddr ramSize : Nat) : Prop :=
  t.bytes = 0 ∨
    if EvenBase baseaddr then
      InRam ramSize t.address ∧ (MapsNext t.address t.size → 0x1000 < t.address % 0x1000 + t.bytes →
        InRam ramSize (add32 t.address t.size))
    else MapsNext t.address t.size → InRam ramSize (add32 t.address t.size)

omit hram in
instance (t : Transfer) (baseaddr ramSize : Nat) : Decidable (t.Fits baseaddr ramSize) :=
  inferInstanceAs (Decidable (_ ∨ ite _ _ _))

/-- A frame of the mapping lies in the VM's RAM as a whole or not at all. -/
theorem frame_inRam (a : Nat) {o : Nat} (ho : o < 0x1000) :
    (physicalRegion ⟨baseaddr, ramSize⟩).Contains
        (guestPhysical baseaddr a / 0x1000 * 0x1000 + o) ↔ InRam ramSize a := by
  obtain ⟨h1, h2, h3, h4, h5⟩ := hram
  have hphys : physical baseaddr = baseaddr - 0x80000000 := by
    rw [physical_eq]
    omega
  have hx : sub32 a 0x80000000 < 2 ^ 32 := u32_lt _
  have hgp : guestPhysical baseaddr a =
      (baseaddr - 0x80000000 + sub32 a 0x80000000) % 2 ^ 32 := by
    rw [guestPhysical, sub32_of_le h1 (by omega)]
    rfl
  simp only [Region.Contains, Region.stop, physicalRegion, InRam, hphys, hgp]
  generalize sub32 a 0x80000000 = x at hx
  omega

include htlb in
/-- **Exactly when a transfer stays in its VM's RAM.** -/
theorem Transfer.inRam_iff (t : Transfer) :
    (∀ pa ∈ t.physical tlb baseaddr, (physicalRegion ⟨baseaddr, ramSize⟩).Contains pa) ↔
      t.Fits baseaddr ramSize := by
  have hall : (∀ pa ∈ t.physical tlb baseaddr,
      (physicalRegion ⟨baseaddr, ramSize⟩).Contains pa) ↔
      ∀ k, k < t.bytes → k < mappedBytes t.address t.size baseaddr →
        (physicalRegion ⟨baseaddr, ramSize⟩).Contains (t.byteAt baseaddr k) := by
    rw [t.physical_eq hram htlb, List.forall_mem_map]
    simp only [List.mem_range, Nat.lt_min, and_imp]
  have hoff : t.address % 0x1000 < 0x1000 := Nat.mod_lt _ (by decide)
  rw [hall]
  by_cases hbytes : t.bytes = 0
  · -- nothing is transferred
    exact iff_of_true (fun k hk => by omega) (Or.inl hbytes)
  unfold Transfer.Fits mappedBytes Transfer.byteAt
  rw [or_iff_right hbytes]
  by_cases heven : EvenBase baseaddr
  · simp only [if_pos heven]
    constructor
    · intro h
      refine ⟨?_, fun hnext hcross => ?_⟩
      · -- the first byte decides about its page
        have h0 := h 0 (by omega) (by split <;> omega)
        rw [if_pos (by omega)] at h0
        exact (frame_inRam hram t.address (by omega)).mp h0
      · -- and so does the first one of the next page
        have hk := h (0x1000 - t.address % 0x1000) (by omega) (by rw [if_pos hnext]; omega)
        rw [if_neg (by omega)] at hk
        exact (frame_inRam hram _ (by omega)).mp hk
    · rintro ⟨haddr, hend⟩ k hk hkm
      by_cases hlow : t.address % 0x1000 + k < 0x1000
      · rw [if_pos hlow]
        exact (frame_inRam hram t.address hlow).mpr haddr
      · rw [if_neg hlow]
        by_cases hnext : MapsNext t.address t.size
        · rw [if_pos hnext] at hkm
          exact (frame_inRam hram _ (by omega)).mpr (hend hnext (by omega))
        · rw [if_neg hnext] at hkm
          omega
  · -- the pointer's own page is never reached
    simp only [if_neg heven]
    constructor
    · intro h hnext
      have h0 := h 0 (by omega) (by rw [if_pos hnext]; omega)
      exact (frame_inRam hram _ (by omega)).mp h0
    · intro hend k hk hkm
      by_cases hnext : MapsNext t.address t.size
      · rw [if_pos hnext] at hkm
        exact (frame_inRam hram _ (by omega)).mpr (hend hnext)
      · rw [if_neg hnext] at hkm
        omega

end Mapping

end PrplHypervisor
