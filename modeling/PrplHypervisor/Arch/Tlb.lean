import Mathlib.Logic.Function.Basic
import PrplHypervisor.Lib.Word32

/-!
# The root TLB (arch/mips/common/tlb.c)

The hypervisor programs the root TLB by index. Every entry maps a pair of
adjacent virtual pages and is tagged with a guest id; id 0 is the hypervisor.

- `TlbEntry`: `struct tlbentry`; `tlbEntryWrite` encodes it into the five CP0
  registers a `tlbwi` commits.
- `TlbRegs.translate`: what one committed entry does to a virtual address. The
  page mask fixes the page size, `EntryHi` selects the pair, the bit above the
  page offset selects the half, and a half without the valid flag does not
  translate.
- `tlbCreateEntry`: the temporary root mapping of a guest pointer made by the
  hypercall handlers.
-/

namespace PrplHypervisor

open Word32

/-! ## Flags and field positions (tlb.h) -/

def entryloD : Nat := 4
def entryloV : Nat := 2
def entryloCShift : Nat := 3
def entryloPfnShift : Nat := 6
def pagemaskMaskShift : Nat := 13
def entryhiVpn2Shift : Nat := 12
def entryhiMask : Nat := 0xFFFFE000

/-- The page masks of tlb.h. -/
inductive PageMask where
  | mask4KB | mask16KB | mask64KB | mask256KB | mask1MB | mask4MB | mask16MB | mask64MB
  | mask256MB
  deriving Repr, DecidableEq

/-- The value of each `PAGEMASK_*` macro. -/
def PageMask.bits : PageMask → Nat
  | .mask4KB => 0
  | .mask16KB => 0x3
  | .mask64KB => 0xF
  | .mask256KB => 0x3F
  | .mask1MB => 0xFF
  | .mask4MB => 0x3FF
  | .mask16MB => 0xFFF
  | .mask64MB => 0x3FFF
  | .mask256MB => 0xFFFF

/-- `struct tlbentry`. -/
structure TlbEntry where
  guestid : Nat
  index : Nat
  entrylo0 : Nat
  lo0flags : Nat
  entrylo1 : Nat
  lo1flags : Nat
  pagemask : Nat
  entryhi : Nat
  coherency : Nat
  deriving Repr, DecidableEq

/-- The CP0 registers a `tlbwi` commits into one TLB slot. -/
structure TlbRegs where
  guestRid : Nat
  entryLo0 : Nat
  entryLo1 : Nat
  pageMask : Nat
  entryHi : Nat
  deriving Repr, DecidableEq

/-- The root TLB: what each slot holds, `none` while never written. -/
abbrev RootTlb := Nat → Option TlbRegs

/-- The register values `tlbEntryWrite` loads. -/
def TlbEntry.regs (e : TlbEntry) : TlbRegs where
  guestRid := e.guestid
  entryLo0 := u32 ((e.entrylo0 <<< entryloPfnShift) ||| e.lo0flags |||
    (e.coherency <<< entryloCShift))
  entryLo1 := u32 ((e.entrylo1 <<< entryloPfnShift) ||| e.lo1flags |||
    (e.coherency <<< entryloCShift))
  pageMask := u32 (e.pagemask <<< pagemaskMaskShift)
  entryHi := u32 (e.entryhi <<< entryhiVpn2Shift) &&& entryhiMask

/-- Write an entry into its slot of the TLB. -/
def tlbEntryWrite (tlb : RootTlb) (entry : TlbEntry) : RootTlb :=
  Function.update tlb entry.index (some entry.regs)

/-! ## Translation by one slot -/

namespace TlbRegs

/-- Page size selected by the page mask. -/
def pageSize (r : TlbRegs) : Nat := (r.pageMask / 2 ^ 13 + 1) * 2 ^ 12

/-- `EntryHi` selects the pair of pages that contains `va`. -/
def Matches (r : TlbRegs) (va : Nat) : Prop :=
  va / (2 * r.pageSize) = r.entryHi / (2 * r.pageSize)

instance (r : TlbRegs) (va : Nat) : Decidable (r.Matches va) := by
  unfold Matches
  infer_instance

/-- The `EntryLo` register of the half of the pair `va` lies in. -/
def half (r : TlbRegs) (va : Nat) : Nat :=
  if va / r.pageSize % 2 = 0 then r.entryLo0 else r.entryLo1

/-- Physical address the slot gives `va`, if it matches and the half is valid. -/
def translate (r : TlbRegs) (va : Nat) : Option Nat :=
  if r.Matches va ∧ r.half va / 2 % 2 = 1 then
    some (r.half va / 2 ^ 6 * 2 ^ 12 / r.pageSize * r.pageSize + va % r.pageSize)
  else none

end TlbRegs

/-- A slot whose `EntryHi` is the pair number `q` translates the `2 * V` addresses
of that pair: the low page through `EntryLo0`, the high page through `EntryLo1`. -/
theorem TlbRegs.translate_eq_some {r : TlbRegs} {V q va pa : Nat} (hV : r.pageSize = V)
    (hpos : 0 < V) (hhi : r.entryHi = 2 * V * q) :
    r.translate va = some pa ↔ ∃ o, o < 2 * V ∧ va = 2 * V * q + o ∧
      ((o < V ∧ r.entryLo0 / 2 % 2 = 1 ∧ pa = r.entryLo0 / 2 ^ 6 * 2 ^ 12 / V * V + o) ∨
        (V ≤ o ∧ r.entryLo1 / 2 % 2 = 1 ∧
          pa = r.entryLo1 / 2 ^ 6 * 2 ^ 12 / V * V + (o - V))) := by
  have hpos2 : 0 < 2 * V := by omega
  have hmatch : r.Matches va ↔ ∃ o, o < 2 * V ∧ va = 2 * V * q + o := by
    unfold TlbRegs.Matches
    rw [hV, hhi, Nat.mul_div_cancel_left _ hpos2]
    constructor
    · intro hq
      exact ⟨va % (2 * V), Nat.mod_lt _ hpos2, by rw [← hq]; exact (Nat.div_add_mod va _).symm⟩
    · rintro ⟨o, ho, rfl⟩
      rw [Nat.mul_add_div hpos2, Nat.div_eq_of_lt ho, Nat.add_zero]
  -- page number and page offset of an address of the pair
  have hpage : ∀ o, (2 * V * q + o) / V = 2 * q + o / V ∧ (2 * V * q + o) % V = o % V := by
    intro o
    rw [show 2 * V * q + o = V * (2 * q) + o by rw [Nat.mul_comm 2 V, Nat.mul_assoc]]
    exact ⟨Nat.mul_add_div hpos _ _, Nat.mul_add_mod _ _ _⟩
  have hlow : ∀ o, o < V → r.half (2 * V * q + o) = r.entryLo0 := by
    intro o ho
    unfold TlbRegs.half
    rw [hV, (hpage o).1, Nat.div_eq_of_lt ho, if_pos (by omega)]
  have hhigh : ∀ o, V ≤ o → o < 2 * V → r.half (2 * V * q + o) = r.entryLo1 := by
    intro o hVo ho
    have hone : o / V = 1 := by
      rw [Nat.div_eq_iff hpos]
      omega
    unfold TlbRegs.half
    rw [hV, (hpage o).1, hone, if_neg (by omega)]
  unfold TlbRegs.translate
  rw [hV]
  constructor
  · intro h
    split at h
    case isFalse => cases h
    case isTrue hc =>
      obtain ⟨hm, hvalid⟩ := hc
      obtain ⟨o, ho, rfl⟩ := hmatch.mp hm
      have hpa := Option.some.inj h
      rw [(hpage o).2] at hpa
      refine ⟨o, ho, rfl, ?_⟩
      rcases Nat.lt_or_ge o V with hlt | hge
      · rw [hlow o hlt] at hvalid hpa
        rw [Nat.mod_eq_of_lt hlt] at hpa
        exact Or.inl ⟨hlt, hvalid, hpa.symm⟩
      · rw [hhigh o hge ho] at hvalid hpa
        rw [Nat.mod_eq_sub_mod hge, Nat.mod_eq_of_lt (by omega)] at hpa
        exact Or.inr ⟨hge, hvalid, hpa.symm⟩
  · rintro ⟨o, ho, rfl, ⟨hlt, hvalid, rfl⟩ | ⟨hge, hvalid, rfl⟩⟩
    · rw [hlow o hlt, (hpage o).2, Nat.mod_eq_of_lt hlt,
        if_pos ⟨hmatch.mpr ⟨o, ho, rfl⟩, hvalid⟩]
    · have hmod : o % V = o - V := by
        rw [Nat.mod_eq_sub_mod hge, Nat.mod_eq_of_lt (by omega)]
      rw [hhigh o hge ho, (hpage o).2, hmod,
        if_pos ⟨hmatch.mpr ⟨o, ho, rfl⟩, hvalid⟩]

/-- An `EntryLo` register for a 20-bit frame number with coherency 2: frame
number, flags and coherency occupy disjoint fields. -/
theorem entryLo_encode {pfn flags : Nat} (hp : pfn < 2 ^ 20) (hf : flags = 0 ∨ flags = 6) :
    u32 ((pfn <<< entryloPfnShift) ||| flags ||| (2 <<< entryloCShift)) =
      pfn * 2 ^ 6 + 16 + flags := by
  have hlow : (flags ||| (2 <<< entryloCShift)) = 16 + flags := by
    rcases hf with rfl | rfl <;> rfl
  have hlt : 16 + flags < 2 ^ 6 := by omega
  rw [Nat.or_assoc, hlow, entryloPfnShift, or_shiftLeft hlt, u32_of_lt (by omega)]
  omega

theorem pageMask_encode (m : PageMask) :
    u32 (m.bits <<< pagemaskMaskShift) = m.bits * 2 ^ 13 := by
  cases m <;> rfl

/-- `EntryHi` keeps the virtual page pair: the address rounded down to 8 KB. -/
theorem entryHi_encode {vpn : Nat} (h : vpn < 2 ^ 20) :
    u32 (vpn <<< entryhiVpn2Shift) &&& entryhiMask = vpn / 2 * 2 ^ 13 := by
  have hsh : u32 (vpn <<< entryhiVpn2Shift) = vpn * 2 ^ 12 := by
    rw [Nat.shiftLeft_eq, entryhiVpn2Shift, u32_of_lt (by omega)]
  have hmask : entryhiMask = not32 (2 ^ 13 - 1) := rfl
  rw [hsh, hmask, and_not32_mask (by omega) (by decide)]
  omega

/-! ## Temporary mappings of guest pointers -/

def cacheable : Bool := true
def noncacheable : Bool := false

/-- The entry `tlbCreateEntry` fills in. The second half is mapped only when the
end of the range falls on a later page than its start. -/
def hypercallEntry (address baseaddr size tlbindex kseg : Nat) : TlbEntry where
  guestid := 0
  index := tlbindex
  entrylo0 := add32 (sub32 baseaddr 0x80000000) (sub32 address 0x80000000) >>> 12
  lo0flags := entryloV ||| entryloD
  entrylo1 :=
    if address / 0x1000 < add32 address size / 0x1000 then
      sub32 (add32 (add32 (sub32 baseaddr 0x80000000) address) size) 0x80000000 >>> 12
    else 0
  lo1flags :=
    if address / 0x1000 < add32 address size / 0x1000 then entryloV ||| entryloD else 0
  pagemask := PageMask.mask4KB.bits
  entryhi := sub32 baseaddr kseg >>> 12
  coherency := 2

/-- Create a temporary TLB entry for a guest pointer. Returns the TLB and the
mapped address. -/
def tlbCreateEntry (tlb : RootTlb) (address baseaddr size tlbindex : Nat) (useCache : Bool) :
    RootTlb × Nat :=
  let kseg := if useCache then 0x80000000 else 0xA0000000
  (tlbEntryWrite tlb (hypercallEntry address baseaddr size tlbindex kseg),
    sub32 (add32 (address &&& 0xFFF) baseaddr) kseg)

end PrplHypervisor
