import Mathlib.Data.List.Chain
import PrplHypervisor.Drivers.RemoteConnection
import PrplHypervisor.Scripts.Genhex

/-!
# The image that boots (scripts/genhex.sh against cryptography/security.c)

`isVmTrust` looks for the key and the signature of a VM at the end of its flash size.
`genhex.sh` puts them in front of the next VM. The two places are the same as long as the
generator does not skip flash between VMs to align the next one.

- `Placed`: what the verifier relies on for one VM of the image.
- `NoGap`: the flash sizes after which every VM starts aligned.
- `placed_iff`: a VM is placed exactly if its slot is as long as its flash.
- `image_agrees`: builder and verifier agree exactly on the images without gaps.
-/

namespace PrplHypervisor

open Word32 Genconf Segments Layout

/-- What `uECC_sign` and the key pair are relied on for. -/
structure Signer.Sound (c : Crypto) (signer : Signer) : Prop where
  key_length : signer.publicKey.length = 64
  key_valid : c.validPublicKey signer.publicKey ≠ 0
  /-- The point at infinity is no public key. -/
  zero_invalid : c.validPublicKey (List.replicate 64 0) = 0
  signs : ∀ name image, ∃ signature, signer.sign name (c.sha256 image) = some signature ∧
    signature.length = 64 ∧ c.verify signer.publicKey (c.sha256 image) signature ≠ 0

/-- Flash with the image at the hypervisor base address, erased behind it. -/
def flashOf (image : List UInt8) (a : Nat) : UInt8 := image.getD (a - baseAddr) 0xFF

/-- The VM of `row` is in the image where the verifier looks for it. -/
structure Placed (c : Crypto) (signer : Signer) (apps : String → List UInt8) (b : Build)
    (row : VmConf × VmInfo) : Prop where
  binary : slice b.firmware (row.1.flashBaseAdd - baseAddr) (apps row.2.appName).length =
    apps row.2.appName
  key : slice b.firmware (row.1.flashBaseAdd + row.1.flashSize - 128 - baseAddr) 64 =
    signer.publicKey
  /-- What was signed is the region up to the key. -/
  signed : (row.2.appName,
    slice b.firmware (row.1.flashBaseAdd - baseAddr) (row.1.flashSize - 128)) ∈ b.signed
  signature : signer.sign row.2.appName
      (c.sha256 (slice b.firmware (row.1.flashBaseAdd - baseAddr) (row.1.flashSize - 128))) =
    some (slice b.firmware (row.1.flashBaseAdd + row.1.flashSize - 64 - baseAddr) 64)

/-! ## The contents of a slot -/

section Segment

variable {c : Crypto} {signer : Signer} {apps : String → List UInt8} {p : VmInfo × Nat}

/-- A sound key signs what it verifies, so the signing program saves both parts. -/
theorem segment_eq (hsound : signer.Sound c) (apps : String → List UInt8) (p : VmInfo × Nat) :
    ∃ signature,
    signer.sign p.1.appName (c.sha256 (padded apps p)) = some signature ∧
      signature.length = 64 ∧
      c.verify signer.publicKey (c.sha256 (padded apps p)) signature ≠ 0 ∧
      segment c signer apps p = padded apps p ++ (signer.publicKey ++ signature) := by
  obtain ⟨signature, hsign, hlen, hverify⟩ := hsound.signs p.1.appName (padded apps p)
  refine ⟨signature, hsign, hlen, hverify, ?_⟩
  simp only [segment, ecdsaSign, hsign, if_neg hverify, Option.getD_some]

theorem padded_length (hroom : (apps p.1.appName).length + 128 ≤ p.2) :
    (padded apps p).length = p.2 - 128 := by
  rw [padded, List.length_append, List.length_replicate]
  omega

theorem segment_length (hsound : signer.Sound c)
    (hroom : (apps p.1.appName).length + 128 ≤ p.2) :
    (segment c signer apps p).length = p.2 := by
  obtain ⟨signature, -, hlen, -, hseg⟩ := segment_eq hsound apps p
  rw [hseg, List.length_append, List.length_append, padded_length hroom, hsound.key_length, hlen]
  omega

/-- In front of the key a slot is the padded binary. -/
theorem segment_padded (hroom : (apps p.1.appName).length + 128 ≤ p.2) {k n : Nat}
    (hk : k + n ≤ p.2 - 128) :
    slice (segment c signer apps p) k n = slice (padded apps p) k n :=
  slice_append_left (by rw [padded_length hroom]; exact hk)

/-- Behind the binary a slot is zero up to the key. -/
theorem segment_zero (hroom : (apps p.1.appName).length + 128 ≤ p.2) {k n : Nat}
    (hlow : (apps p.1.appName).length ≤ k) (hk : k + n ≤ p.2 - 128) :
    slice (segment c signer apps p) k n = List.replicate n 0 := by
  have hoffset : k = (apps p.1.appName).length + (k - (apps p.1.appName).length) := by omega
  rw [segment_padded hroom hk, hoffset, padded, slice_append_right]
  exact slice_replicate (by omega)

end Segment

/-! ## Slots and gaps -/

/-- Every slot ends where the next VM starts. -/
theorem contiguous_slots {c : Crypto} {signer : Signer} (hsound : signer.Sound c)
    {apps : String → List UInt8} {infos : List VmInfo} (hord : Ordered infos)
    (hfits : Fits apps infos) {x : Nat} (hstart : ∀ info ∈ infos.head?, info.addressStart = x) :
    Contiguous x ((slots infos).map fun p => (p.1.addressStart, segment c signer apps p)) := by
  induction infos generalizing x with
  | nil => trivial
  | cons info rest ih =>
    have hle := flashSize_le_slotLength hord
    have hroom := (hfits info List.mem_cons_self).2
    have hlen :
        (segment c signer apps (info, slotLength info rest)).length = slotLength info rest :=
      segment_length hsound (show (apps info.appName).length + 128 ≤ slotLength info rest by omega)
    -- the slot ends at the next VM
    have hnext : ∀ later ∈ rest.head?, later.addressStart = x + slotLength info rest := by
      have hinfo := hstart info rfl
      cases rest with
      | nil =>
        intro later hlater
        cases hlater
      | cons next rest =>
        intro later hlater
        cases hlater
        have hgap := (List.isChain_cons_cons.mp hord).1
        simp only [slotLength]
        omega
    refine ⟨hstart info rfl, ?_⟩
    rw [hlen]
    exact ih hord.of_cons (fun later hlater => hfits later (List.mem_cons_of_mem _ hlater)) hnext

/-- The slots have the lengths of the flashes exactly if no flash is skipped. -/
theorem slots_exact_iff {infos : List VmInfo} (hord : Ordered infos) :
    (∀ p ∈ slots infos, p.2 = p.1.flashSize) ↔
      infos.IsChain fun a b => b.addressStart = a.addressStart + a.flashSize := by
  induction infos with
  | nil => exact ⟨fun _ => List.IsChain.nil, fun _ p hp => by cases hp⟩
  | cons info rest ih =>
    rw [slots, List.forall_mem_cons, ih hord.of_cons]
    cases rest with
    | nil => exact ⟨fun _ => List.IsChain.singleton info, fun h => ⟨rfl, List.IsChain.nil⟩⟩
    | cons next rest =>
      have hgap := (List.isChain_cons_cons.mp hord).1
      rw [List.isChain_cons_cons]
      refine and_congr_left ?_
      intro _
      simp only [slotLength]
      omega

/-- Slots keep to multiples that all addresses and sizes keep to. -/
theorem slot_dvd {infos : List VmInfo} {m : Nat}
    (hdvd : ∀ info ∈ infos, m ∣ info.addressStart ∧ m ∣ info.flashSize) :
    ∀ p ∈ slots infos, m ∣ p.2 := by
  induction infos with
  | nil =>
    intro p hp
    cases hp
  | cons info rest ih =>
    have hinfo := hdvd info List.mem_cons_self
    intro p hp
    rcases List.mem_cons.mp hp with rfl | hp
    · cases rest with
      | nil => exact hinfo.2
      | cons next rest =>
        have hnext := hdvd next (List.mem_cons_of_mem _ List.mem_cons_self)
        exact Nat.dvd_sub hnext.1 hinfo.1
    · exact ih (fun later hlater => hdvd later (List.mem_cons_of_mem _ hlater)) p hp

/-! ## The generated rows -/

/-- The flash of an accepted row: whole pages above the hypervisor's. -/
structure FlashRow (row : VmConf × VmInfo) : Prop where
  size_eq : row.1.flashSize = row.2.flashSize
  start_eq : row.2.addressStart = row.1.flashBaseAdd
  start_ge : 0x9D010000 ≤ row.1.flashBaseAdd
  stop_le : row.1.flashBaseAdd + row.2.flashSize ≤ 0x9D010000 + 15 * 2 ^ 20
  start_dvd : 4096 ∣ row.1.flashBaseAdd
  size_dvd : 4096 ∣ row.2.flashSize
  size_ge : 4096 ≤ row.2.flashSize

/-- Pages are at least 4 KB. -/
theorem pageOf_dvd {m : Nat} (h : IsMemSize m) : 4096 ∣ pageOf m := by
  obtain ⟨p, dual, hsel, hcov⟩ := h.covers
  obtain ⟨k, hk, -, hval, -⟩ := pageSizes_row hcov.mem
  rw [pageOf, hsel]
  show 4096 ∣ p.value
  rw [hval]
  exact Nat.pow_dvd_pow 2 hk

section Rows

variable {vms : List VmSetting} {rows : List (VmConf × VmInfo)}

theorem flashRow (hacc : genConfVms (some vms) = .ok rows) {row : VmConf × VmInfo}
    (hrow : row ∈ rows) : FlashRow row := by
  obtain ⟨vm, -, s, next, hs, hvm⟩ := genConfVms_row hacc hrow
  obtain ⟨-, -, hge, hle⟩ := hvm.bounds hs
  have hplaced : row.1.flashBaseAdd = alignUp (pageOf row.2.flashSize) s.vmFlashInterAddr :=
    congrArg Region.start (hvm.regions hs).2
  have hsize := hvm.flash_size.bounds
  exact {
    size_eq := hvm.flash_size_eq
    start_eq := hvm.address_eq
    start_ge := hge
    stop_le := hle
    start_dvd := hplaced ▸ (pageOf_dvd hvm.flash_size).trans (alignUp_dvd _ _)
    size_dvd := Nat.dvd_of_mod_eq_zero hsize.2.2
    size_ge := hsize.1 }

theorem rows_ordered (hacc : genConfVms (some vms) = .ok rows) : Ordered (rows.map Prod.snd) := by
  have hpair := place_pairwise (rows.map fun r => flashReq r.2) vmsFlashIntermediateBaseAddress
  rw [← (genConfLoop_place genInv_init hacc).2, List.pairwise_map] at hpair
  rw [Ordered, List.isChain_map]
  refine (hpair.imp_of_mem fun {a b} ha hb hle => ?_).isChain
  have hle' : a.1.flashBaseAdd + a.2.flashSize ≤ b.1.flashBaseAdd := hle
  rw [(flashRow hacc ha).start_eq, (flashRow hacc hb).start_eq]
  exact hle'

/-- The flash request of a VM with `size` bytes. -/
def sizeReq (size : Nat) : Req := ⟨pageOf size, size, pageOf_pos size⟩

/-- Every VM but the first starts aligned for its page where the one before ends. -/
def NoGap : List Nat → Prop
  | [] => True
  | size :: sizes =>
    Tight (alignUp (pageOf size) vmsFlashIntermediateBaseAddress + size) (sizes.map sizeReq)

instance decidableNoGap : (sizes : List Nat) → Decidable (NoGap sizes)
  | [] => .isTrue trivial
  | _ :: _ => inferInstanceAs (Decidable (Tight _ _))

theorem noGap_iff (hacc : genConfVms (some vms) = .ok rows) :
    NoGap (rows.map (·.2.flashSize)) ↔
      (rows.map Prod.snd).IsChain fun a b => b.addressStart = a.addressStart + a.flashSize := by
  have hplace := (genConfLoop_place genInv_init hacc).2
  -- the chain speaks of the regions that were placed
  have hchain : (rows.map flashRegion).IsChain (fun r t => t.start = r.stop) ↔
      (rows.map Prod.snd).IsChain fun a b => b.addressStart = a.addressStart + a.flashSize := by
    rw [List.isChain_map, List.isChain_map]
    refine List.IsChain.iff_of_mem_imp fun {a b} ha hb => ?_
    rw [(flashRow hacc ha).start_eq, (flashRow hacc hb).start_eq]
    rfl
  rw [← hchain]
  cases rows with
  | nil => exact ⟨fun _ => List.IsChain.nil, fun _ => trivial⟩
  | cons row rows =>
    rw [List.map_cons, List.map_cons, place] at hplace
    obtain ⟨hfirst, hrest⟩ := List.cons.inj hplace
    have hreqs : (rows.map (·.2.flashSize)).map sizeReq = rows.map fun r => flashReq r.2 :=
      List.map_map
    have hstop : (flashRegion row).stop =
        alignUp (pageOf row.2.flashSize) vmsFlashIntermediateBaseAddress + row.2.flashSize :=
      congrArg Region.stop hfirst
    rw [List.map_cons, List.map_cons, NoGap, hreqs, ← hstop, hrest, ← hfirst]
    exact (place_tight (flashRegion row) _).symm

/-- Slot `p` of the image belongs to `row`. -/
structure SlotOf (apps : String → List UInt8) (row : VmConf × VmInfo) (p : VmInfo × Nat) :
    Prop where
  info_eq : p.1 = row.2
  flash : FlashRow row
  room : (apps row.2.appName).length + 128 ≤ row.2.flashSize
  size_le : row.2.flashSize ≤ p.2
  slot_dvd : 4096 ∣ p.2

theorem slotOf (hacc : genConfVms (some vms) = .ok rows) {apps : String → List UInt8}
    (hfits : Fits apps (rows.map Prod.snd)) {row : VmConf × VmInfo} (hrow : row ∈ rows)
    {p : VmInfo × Nat} (hp : p ∈ slots (rows.map Prod.snd)) (hinfo : p.1 = row.2) :
    SlotOf apps row p := by
  have hdvd : ∀ info ∈ rows.map Prod.snd, 4096 ∣ info.addressStart ∧ 4096 ∣ info.flashSize := by
    intro info hmem
    obtain ⟨row, hrow, rfl⟩ := List.mem_map.mp hmem
    have hflash := flashRow hacc hrow
    exact ⟨hflash.start_eq ▸ hflash.start_dvd, hflash.size_dvd⟩
  exact {
    info_eq := hinfo
    flash := flashRow hacc hrow
    room := (hfits row.2 (List.mem_map_of_mem hrow)).2
    size_le := hinfo ▸ flashSize_le_slot (rows_ordered hacc) hp
    slot_dvd := slot_dvd hdvd p hp }

end Rows

/-! ## The image -/

/-- The image is made of the slots of `infos`, and what was signed are their binaries. -/
structure Assembled (c : Crypto) (signer : Signer) (apps : String → List UInt8)
    (infos : List VmInfo) (b : Build) : Prop where
  layout : ∃ segs : List (Nat × List UInt8), Contiguous baseAddr segs ∧ b.firmware = join segs ∧
    ∀ p ∈ slots infos, (p.1.addressStart, segment c signer apps p) ∈ segs
  signed : b.signed = (slots infos).map fun p => (p.1.appName, padded apps p)

section Image

variable {c : Crypto} {signer : Signer} {apps : String → List UInt8} {infos : List VmInfo}
  {b : Build} {row : VmConf × VmInfo} {p : VmInfo × Nat}

theorem SlotOf.segment_length (hsound : signer.Sound c) (hslot : SlotOf apps row p) :
    (segment c signer apps p).length = p.2 := by
  have hroom := hslot.room
  have hle := hslot.size_le
  rw [← hslot.info_eq] at hroom hle
  exact PrplHypervisor.segment_length hsound (by omega)

theorem Assembled.slice_eq (h : Assembled c signer apps infos b) (hsound : signer.Sound c)
    (hp : p ∈ slots infos) (hslot : SlotOf apps row p) {k n : Nat} (hk : k + n ≤ p.2) :
    slice b.firmware (row.1.flashBaseAdd - baseAddr + k) n =
      slice (segment c signer apps p) k n := by
  obtain ⟨segs, hcont, himage, hsegs⟩ := h.layout
  rw [himage, ← hslot.flash.start_eq, ← hslot.info_eq]
  exact hcont.slice_join (hsegs p hp) (show k + n ≤ _ by rw [hslot.segment_length hsound]; exact hk)

theorem Assembled.length_ge (h : Assembled c signer apps infos b) (hsound : signer.Sound c)
    (hp : p ∈ slots infos) (hslot : SlotOf apps row p) :
    row.1.flashBaseAdd - baseAddr + p.2 ≤ b.firmware.length := by
  obtain ⟨segs, hcont, himage, hsegs⟩ := h.layout
  have hstop := hcont.stop_le (hsegs p hp)
  rw [hslot.segment_length hsound] at hstop
  rw [himage, ← hslot.flash.start_eq, ← hslot.info_eq]
  exact hstop

/-- A gap puts zeros where the key should be. -/
theorem Assembled.key_zero (h : Assembled c signer apps infos b) (hsound : signer.Sound c)
    (hp : p ∈ slots infos) (hslot : SlotOf apps row p) (hgap : p.2 ≠ p.1.flashSize) :
    slice b.firmware (row.1.flashBaseAdd - baseAddr + (row.2.flashSize - 128)) 64 =
      List.replicate 64 0 := by
  obtain ⟨x, hx⟩ := hslot.slot_dvd
  obtain ⟨y, hy⟩ := hslot.flash.size_dvd
  have hroom := hslot.room
  have hle := hslot.size_le
  have hge := hslot.flash.size_ge
  rw [hslot.info_eq] at hgap
  rw [h.slice_eq hsound hp hslot (by omega)]
  refine segment_zero ?_ ?_ ?_
  · rw [hslot.info_eq]
    omega
  · rw [hslot.info_eq]
    omega
  · omega

/-- Without a gap the three parts are where the verifier reads them. -/
theorem Assembled.parts (h : Assembled c signer apps infos b) (hsound : signer.Sound c)
    (hp : p ∈ slots infos) (hslot : SlotOf apps row p) (hexact : p.2 = p.1.flashSize) :
    ∃ signature, signer.sign row.2.appName (c.sha256 (padded apps p)) = some signature ∧
      c.verify signer.publicKey (c.sha256 (padded apps p)) signature ≠ 0 ∧
      slice b.firmware (row.1.flashBaseAdd - baseAddr) (row.2.flashSize - 128) = padded apps p ∧
      slice b.firmware (row.1.flashBaseAdd - baseAddr + (row.2.flashSize - 128)) 64 =
        signer.publicKey ∧
      slice b.firmware (row.1.flashBaseAdd - baseAddr + (row.2.flashSize - 64)) 64 = signature := by
  obtain ⟨signature, hsign, hlen, hverify, hseg⟩ := segment_eq hsound apps p
  have hroom := hslot.room
  have hge := hslot.flash.size_ge
  have hkey := hsound.key_length
  rw [hslot.info_eq] at hsign hexact
  have hpadded : (padded apps p).length = row.2.flashSize - 128 := by
    rw [padded_length (by rw [hslot.info_eq]; omega), hexact]
  refine ⟨signature, hsign, hverify, ?_, ?_, ?_⟩
  · have hstart := h.slice_eq hsound hp hslot (k := 0) (n := row.2.flashSize - 128) (by omega)
    rw [Nat.add_zero] at hstart
    rw [hstart, hseg, slice_append_left (by omega), ← hpadded, slice_zero]
  · have hoffset : row.2.flashSize - 128 = (padded apps p).length + 0 := by omega
    rw [h.slice_eq hsound hp hslot (by omega), hseg, hoffset, slice_append_right,
      slice_append_left (by omega), ← hkey, slice_zero]
  · have hoffset : row.2.flashSize - 64 =
        (padded apps p).length + (signer.publicKey.length + 0) := by omega
    rw [h.slice_eq hsound hp hslot (by omega), hseg, hoffset, slice_append_right,
      slice_append_right, ← hlen, slice_zero]

/-- **One VM.** It is placed exactly if its slot is as long as its flash. -/
theorem Assembled.placed_iff (h : Assembled c signer apps infos b) (hsound : signer.Sound c)
    (hp : p ∈ slots infos) (hslot : SlotOf apps row p) :
    Placed c signer apps b row ↔ p.2 = p.1.flashSize := by
  have hroom := hslot.room
  have hle := hslot.size_le
  have hsize := hslot.flash.size_eq
  have hge := hslot.flash.size_ge
  have hstart := hslot.flash.start_ge
  have hbase : baseAddr = 0x9D000000 := rfl
  have hoffset : row.1.flashBaseAdd + row.1.flashSize - 128 - baseAddr =
      row.1.flashBaseAdd - baseAddr + (row.2.flashSize - 128) := by omega
  constructor
  · intro hplaced
    by_contra hgap
    -- the key read there is the point at infinity
    have hzero := h.key_zero hsound hp hslot hgap
    rw [← hoffset, hplaced.key] at hzero
    exact hsound.key_valid (hzero ▸ hsound.zero_invalid)
  · intro hexact
    obtain ⟨signature, hsign, -, hdata, hkey, hsig⟩ := h.parts hsound hp hslot hexact
    have hoffset' : row.1.flashBaseAdd + row.1.flashSize - 64 - baseAddr =
        row.1.flashBaseAdd - baseAddr + (row.2.flashSize - 64) := by omega
    refine ⟨?_, ?_, ?_, ?_⟩
    · have hbin := h.slice_eq hsound hp hslot (k := 0) (n := (apps row.2.appName).length) (by omega)
      rw [Nat.add_zero] at hbin
      rw [hbin, segment_padded (by rw [hslot.info_eq]; omega) (by omega), padded, hslot.info_eq,
        slice_append_left (by omega), slice_zero]
    · rw [hoffset, hkey]
    · rw [hsize, hdata, h.signed, ← hslot.info_eq]
      exact List.mem_map_of_mem hp
    · rw [hsize] at hoffset' ⊢
      rw [hdata, hoffset', hsig, hsign]

/-- What `isVmTrust` reads of the VM's flash. -/
theorem map_lAddrVm (h : Assembled c signer apps infos b) (hsound : signer.Sound c)
    (hp : p ∈ slots infos) (hslot : SlotOf apps row p) {k n : Nat} (hk : k + n ≤ row.2.flashSize) :
    ((List.range n).map fun i => lAddrVm (flashOf b.firmware) row.1 (k + i)) =
      slice b.firmware (row.1.flashBaseAdd - baseAddr + k) n := by
  have hle := hslot.size_le
  have hlen := h.length_ge hsound hp hslot
  have hge := hslot.flash.start_ge
  have hstop := hslot.flash.stop_le
  have hbase : baseAddr = 0x9D000000 := rfl
  rw [← map_getD_eq_slice (d := 0xFF) (by omega)]
  refine List.map_congr_left ?_
  intro i hi
  have hlt := List.mem_range.mp hi
  have haddr : add32 row.1.flashBaseAdd (k + i) - baseAddr =
      row.1.flashBaseAdd - baseAddr + k + i := by
    rw [add32, u32_of_lt (by omega)]
    omega
  rw [lAddrVm, flashOf, haddr]

theorem copyTail_eq_slice (h : Assembled c signer apps infos b) (hsound : signer.Sound c)
    (hp : p ∈ slots infos) (hslot : SlotOf apps row p) {back : Nat} (hlow : 64 ≤ back)
    (hback : back ≤ 128) :
    copyTail (flashOf b.firmware) row.1 back =
      slice b.firmware (row.1.flashBaseAdd - baseAddr + (row.2.flashSize - back)) 64 := by
  have hge := hslot.flash.size_ge
  have hstart := hslot.flash.start_ge
  have hstop := hslot.flash.stop_le
  have hread := map_lAddrVm h hsound hp hslot (k := row.2.flashSize - back) (n := 64) (by omega)
  rw [← hread, copyTail]
  refine List.map_congr_left ?_
  intro i hi
  have hlt := List.mem_range.mp hi
  rw [hslot.flash.size_eq, sub32_of_le (by omega) (by omega), add32, u32_of_lt (by omega)]

theorem hashVm_eq_slice (h : Assembled c signer apps infos b) (hsound : signer.Sound c)
    (hp : p ∈ slots infos) (hslot : SlotOf apps row p) :
    hashVm c (flashOf b.firmware) row.1 =
      c.sha256 (slice b.firmware (row.1.flashBaseAdd - baseAddr) (row.2.flashSize - 128)) := by
  have hge := hslot.flash.size_ge
  have hstart := hslot.flash.start_ge
  have hstop := hslot.flash.stop_le
  have hread := map_lAddrVm h hsound hp hslot (k := 0) (n := row.2.flashSize - 128) (by omega)
  rw [Nat.add_zero] at hread
  simp only [Nat.zero_add] at hread
  rw [hashVm, hslot.flash.size_eq, sub32_of_le (by omega) (by omega), hread]

/-- The verifier accepts the same VMs. -/
theorem Assembled.genuine_iff (h : Assembled c signer apps infos b) (hsound : signer.Sound c)
    (hp : p ∈ slots infos) (hslot : SlotOf apps row p) :
    Genuine c (flashOf b.firmware) row.1 ↔ p.2 = p.1.flashSize := by
  rw [Genuine, ← copyTail_key, copyTail_eq_slice h hsound hp hslot (by decide) (by decide),
    copyTail_eq_slice h hsound hp hslot (by decide) (by decide), hashVm_eq_slice h hsound hp hslot]
  constructor
  · rintro ⟨hvalid, -⟩
    by_contra hgap
    rw [h.key_zero hsound hp hslot hgap] at hvalid
    exact hvalid hsound.zero_invalid
  · intro hexact
    obtain ⟨signature, -, hverify, hdata, hkey, hsig⟩ := h.parts hsound hp hslot hexact
    rw [hdata, hkey, hsig]
    exact ⟨hsound.key_valid, hverify⟩

end Image

/-! ## Builder and verifier -/

section Agreement

variable {vms : List VmSetting} {rows : List (VmConf × VmInfo)} {c : Crypto} {signer : Signer}
  {apps : String → List UInt8} {b : Build}

/-- What holds of a row exactly if its slot is as long as its flash holds of all rows
exactly if there is no gap. -/
theorem forall_row_iff (hacc : genConfVms (some vms) = .ok rows)
    (hfits : Fits apps (rows.map Prod.snd)) {P : VmConf × VmInfo → Prop}
    (hP : ∀ row p, p ∈ slots (rows.map Prod.snd) → SlotOf apps row p →
      (P row ↔ p.2 = p.1.flashSize)) :
    (∀ row ∈ rows, P row) ↔ NoGap (rows.map (·.2.flashSize)) := by
  rw [noGap_iff hacc, ← slots_exact_iff (rows_ordered hacc)]
  constructor
  · intro hrows p hp
    obtain ⟨row, hrow, hinfo⟩ := List.mem_map.mp (mem_of_mem_slots hp)
    exact (hP row p hp (slotOf hacc hfits hrow hp hinfo.symm)).mp (hrows row hrow)
  · intro hexact row hrow
    have hmem : row.2 ∈ rows.map Prod.snd := List.mem_map_of_mem hrow
    rw [← slots_fst (rows.map Prod.snd)] at hmem
    obtain ⟨p, hp, hinfo⟩ := List.mem_map.mp hmem
    exact (hP row p hp (slotOf hacc hfits hrow hp hinfo)).mpr (hexact p hp)

/-- All VMs are placed exactly if the generator left no gap. -/
theorem Assembled.placed_iff_noGap (h : Assembled c signer apps (rows.map Prod.snd) b)
    (hacc : genConfVms (some vms) = .ok rows) (hsound : signer.Sound c)
    (hfits : Fits apps (rows.map Prod.snd)) :
    (∀ row ∈ rows, Placed c signer apps b row) ↔ NoGap (rows.map (·.2.flashSize)) :=
  forall_row_iff hacc hfits fun _ _ hp hslot => h.placed_iff hsound hp hslot

/-- The image boots exactly if the generator left no gap. -/
theorem Assembled.trust_iff_noGap (h : Assembled c signer apps (rows.map Prod.snd) b)
    (hacc : genConfVms (some vms) = .ok rows) (hsound : signer.Sound c)
    (hfits : Fits apps (rows.map Prod.snd)) :
    isVmTrust c (flashOf b.firmware) (rows.map Prod.fst) = 1 ↔
      NoGap (rows.map (·.2.flashSize)) := by
  rw [isVmTrust_eq_one, List.forall_mem_map]
  exact forall_row_iff hacc hfits fun _ _ hp hslot => h.genuine_iff hsound hp hslot

/-- The script builds the image of accepted rows from its slots. -/
theorem genhex_assembled (hacc : genConfVms (some vms) = .ok rows) (hne : rows ≠ [])
    (hnames : BuildNames (rows.map Prod.snd)) (hfits : Fits apps (rows.map Prod.snd))
    (hsound : signer.Sound c) {hypervisor : List UInt8} (hhyp : hypervisor ≠ [])
    (hroom : ∀ row ∈ rows.head?, baseAddr + hypervisor.length ≤ row.1.flashBaseAdd)
    {tmp : String → Option (List UInt8)}
    (hstale : ∀ row ∈ rows, tmp (row.2.appName ++ ".temp") = none) :
    ∃ b, genhex c signer apps hypervisor tmp (vmsInfo (rows.map Prod.snd))
        (rows.map (·.2.appName)) = some b ∧
      Assembled c signer apps (rows.map Prod.snd) b := by
  have hroom' : ∀ info ∈ (rows.map Prod.snd).head?,
      baseAddr + hypervisor.length ≤ info.addressStart := by
    intro info hinfo
    rw [List.head?_map] at hinfo
    obtain ⟨row, hrow, rfl⟩ := Option.map_eq_some_iff.mp hinfo
    rw [(flashRow hacc (List.mem_of_mem_head? hrow)).start_eq]
    exact hroom row hrow
  have hne' : rows.map Prod.snd ≠ [] := by
    rwa [Ne, List.map_eq_nil_iff]
  have hstale' : ∀ info ∈ rows.map Prod.snd, tmp (info.appName ++ ".temp") = none := by
    intro info hinfo
    obtain ⟨row, hrow, rfl⟩ := List.mem_map.mp hinfo
    exact hstale row hrow
  have hord := rows_ordered hacc
  obtain ⟨b, bin, hrun, hbin, himage, hsigned⟩ :=
    genhex_spec c signer apps hnames hord hfits hne' hhyp hroom' hstale'
  rw [List.map_map] at hrun
  have hcont : Contiguous baseAddr ((baseAddr, bin) ::
      (slots (rows.map Prod.snd)).map fun p => (p.1.addressStart, segment c signer apps p)) :=
    ⟨rfl, contiguous_slots hsound hord hfits fun info hinfo => (hbin info hinfo).symm⟩
  exact ⟨b, hrun, ⟨_, hcont, himage, fun p hp => List.mem_cons_of_mem _ (List.mem_map_of_mem hp)⟩,
    hsigned⟩

end Agreement

/-- The flash size a cfg file names for a VM. -/
def Genconf.VmSetting.flashBytes (vm : VmSetting) : Nat :=
  getValueFromStr memSizes (vm.flashSizeBytes.getD "")

theorem genConfVm_flashSize {s next : GenState} {vm : VmSetting} {row : VmConf × VmInfo}
    (h : genConfVm s vm = .ok (row, next)) : row.2.flashSize = vm.flashBytes := by
  obtain ⟨-, flashName, -, -, -, -, -, -, -, -, hname, hsize, -⟩ := genConfVm_eq_ok h
  rw [VmSetting.flashBytes, hname]
  exact (lookupSize_eq_ok.mp hsize).1.symm

theorem genConfLoop_flashSizes {s : GenState} {vms : List VmSetting} {rows : List (VmConf × VmInfo)}
    (h : genConfLoop s vms = .ok rows) :
    rows.map (·.2.flashSize) = vms.map VmSetting.flashBytes := by
  induction vms generalizing s rows with
  | nil =>
    cases h
    rfl
  | cons vm vms ih =>
    obtain ⟨⟨row, next⟩, hvm, h⟩ := bind_eq_ok.mp h
    obtain ⟨rest, hrest, h⟩ := bind_eq_ok.mp h
    cases h
    rw [List.map_cons, List.map_cons, genConfVm_flashSize hvm, ih hrest]

/-- **Image builder and verifier.** The script builds an image in which every VM is placed
and that boots, exactly if there is a VM and the generator left no gap between the VMs. -/
theorem image_agrees {vms : List VmSetting} {rows : List (VmConf × VmInfo)}
    (hacc : genConfVms (some vms) = .ok rows) (hnames : BuildNames (rows.map Prod.snd))
    {apps : String → List UInt8} (hfits : Fits apps (rows.map Prod.snd))
    {hypervisor : List UInt8} (hhyp : hypervisor ≠ [])
    (hroom : ∀ row ∈ rows.head?, baseAddr + hypervisor.length ≤ row.1.flashBaseAdd)
    {c : Crypto} {signer : Signer} (hsound : signer.Sound c)
    {tmp : String → Option (List UInt8)}
    (hstale : ∀ row ∈ rows, tmp (row.2.appName ++ ".temp") = none) :
    (∃ b, genhex c signer apps hypervisor tmp (vmsInfo (rows.map Prod.snd))
          (rows.map (·.2.appName)) = some b ∧
        (∀ row ∈ rows, Placed c signer apps b row) ∧
        isVmTrust c (flashOf b.firmware) (rows.map Prod.fst) = 1) ↔
      vms ≠ [] ∧ NoGap (vms.map VmSetting.flashBytes) := by
  have hsizes := genConfLoop_flashSizes hacc
  have hempty : vms = [] ↔ rows = [] := by
    rw [← List.length_eq_zero_iff, (genConfVms_rows hacc).length_eq, List.length_eq_zero_iff]
  rw [← hsizes, Ne, hempty]
  constructor
  · rintro ⟨b, hrun, hplaced, -⟩
    -- without a VM the script has no address to start from
    have hne : rows ≠ [] := by
      rintro rfl
      cases hrun
    obtain ⟨b', hrun', himage⟩ :=
      genhex_assembled hacc hne hnames hfits hsound hhyp hroom hstale
    cases Option.some.inj (hrun.symm.trans hrun')
    exact ⟨hne, (himage.placed_iff_noGap hacc hsound hfits).mp hplaced⟩
  · rintro ⟨hne, hgap⟩
    obtain ⟨b, hrun, himage⟩ := genhex_assembled hacc hne hnames hfits hsound hhyp hroom hstale
    exact ⟨b, hrun, (himage.placed_iff_noGap hacc hsound hfits).mpr hgap,
      (himage.trust_iff_noGap hacc hsound hfits).mpr hgap⟩

/-- The hash of the byte 1 and zeros up to the key of a slot of 64 KB. -/
def imageHash : List UInt8 :=
  (List.range 32).map fun i =>
    UInt8.ofNat (0x36147fc3d899db98af11894c0ecec7b6997ce18fbf1ba91c7f0d551f3bc76031 >>>
      (8 * (31 - i)))

/-- A signature of that hash by the secret key 42. -/
def imageSignature : List UInt8 :=
  (List.range 64).map (byteOf
    (0x5cbdf0646e5db4eaa398f365f2ea7a0e3d419b7e0330e39ce92bddedcac4f9bc * 2 ^ 256 +
      0x7d51fdbfb523a6035c4f11256a77d44d20dd6f0f6facc8dd64e99da5d1ef9cdb))

/-- What the library computes on the inputs of the samples below. -/
def imageCrypto : Crypto where
  validPublicKey key := if key = (List.range 64).map (byteOf sampleKey) then 1 else 0
  verify key hash signature :=
    if key = (List.range 64).map (byteOf sampleKey) ∧ hash = imageHash ∧
      signature = imageSignature then 1 else 0
  sha256 _ := imageHash

/-- The secret key 42. -/
def imageSigner : Signer where
  publicKey := (List.range 64).map (byteOf sampleKey)
  sign _ _ := some imageSignature

theorem imageSigner_sound : imageSigner.Sound imageCrypto where
  key_length := rfl
  key_valid := by decide +kernel
  zero_invalid := by decide +kernel
  signs _ _ := ⟨imageSignature, rfl, rfl,
    show imageCrypto.verify imageSigner.publicKey imageHash imageSignature ≠ 0 by decide +kernel⟩

/-- Two VMs of 64 KB. -/
def evenVms : List VmSetting := [bareVm "ping" "MEM_SIZE_64KB", bareVm "pong" "MEM_SIZE_64KB"]

/-- A VM of 16 KB in front of one of 64 KB. -/
def unevenVms : List VmSetting := [bareVm "ping" "MEM_SIZE_16KB", bareVm "pong" "MEM_SIZE_64KB"]

/-- The generated rows of a list. -/
def rowsOf (vms : List VmSetting) : List (VmConf × VmInfo) :=
  (genConfVms (some vms)).toOption.getD []

/-- Equal VMs of 64 KB boot. -/
theorem image_agrees_even :
    ∃ b, genhex imageCrypto imageSigner (fun _ => [1]) [1] (fun _ => none)
          (vmsInfo ((rowsOf evenVms).map Prod.snd)) ((rowsOf evenVms).map (·.2.appName)) = some b ∧
        (∀ row ∈ rowsOf evenVms, Placed imageCrypto imageSigner (fun _ => [1]) b row) ∧
        isVmTrust imageCrypto (flashOf b.firmware) ((rowsOf evenVms).map Prod.fst) = 1 := by
  have hacc : genConfVms (some evenVms) = .ok (rowsOf evenVms) := rfl
  have hnames : BuildNames ((rowsOf evenVms).map Prod.snd) := by
    constructor <;> decide +kernel
  have hfits : Fits (fun _ => [1]) ((rowsOf evenVms).map Prod.snd) := by
    unfold Fits
    decide +kernel
  exact (image_agrees hacc hnames hfits (by decide) (by decide +kernel) imageSigner_sound
    fun _ _ => rfl).mpr ⟨by decide, by decide⟩

/-- The smaller VM is padded up to the larger one's page, behind its own flash: its key is not
found, and the image does not boot. -/
theorem image_uneven :
    genConfVms (some unevenVms) = .ok (rowsOf unevenVms) ∧
      BuildNames ((rowsOf unevenVms).map Prod.snd) ∧
      Fits (fun _ => [1]) ((rowsOf unevenVms).map Prod.snd) ∧
      ∃ b, genhex imageCrypto imageSigner (fun _ => [1]) [1] (fun _ => none)
          (vmsInfo ((rowsOf unevenVms).map Prod.snd)) ((rowsOf unevenVms).map (·.2.appName)) =
            some b ∧
        ¬ (∀ row ∈ rowsOf unevenVms, Placed imageCrypto imageSigner (fun _ => [1]) b row) ∧
        isVmTrust imageCrypto (flashOf b.firmware) ((rowsOf unevenVms).map Prod.fst) ≠ 1 := by
  have hacc : genConfVms (some unevenVms) = .ok (rowsOf unevenVms) := rfl
  have hnames : BuildNames ((rowsOf unevenVms).map Prod.snd) := by
    constructor <;> decide +kernel
  have hfits : Fits (fun _ => [1]) ((rowsOf unevenVms).map Prod.snd) := by
    unfold Fits
    decide +kernel
  have hgap : ¬ NoGap ((rowsOf unevenVms).map (·.2.flashSize)) := by decide
  obtain ⟨b, hrun, himage⟩ : ∃ b, genhex imageCrypto imageSigner (fun _ => [1]) [1]
      (fun _ => none) (vmsInfo ((rowsOf unevenVms).map Prod.snd))
        ((rowsOf unevenVms).map (·.2.appName)) = some b ∧
      Assembled imageCrypto imageSigner (fun _ => [1]) ((rowsOf unevenVms).map Prod.snd) b :=
    genhex_assembled hacc (by decide) hnames hfits imageSigner_sound (by decide)
      (by decide +kernel) fun _ _ => rfl
  exact ⟨hacc, hnames, hfits, b, hrun,
    fun h => hgap ((himage.placed_iff_noGap hacc imageSigner_sound hfits).mp h),
    fun h => hgap ((himage.trust_iff_noGap hacc imageSigner_sound hfits).mp h)⟩

end PrplHypervisor
