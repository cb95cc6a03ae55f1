import Mathlib.Logic.Function.Basic
import PrplHypervisor.Config.Buffers
import PrplHypervisor.Cryptography.Security
import PrplHypervisor.Lib.Segments

/-!
# The image builder (scripts/genhex.sh, cryptography/app/micro_ecc_host)

After the build of the hypervisor and the VMs, `genhex.sh` pads every binary, has the VM
binaries signed and appends them to each other. It learns the layout from `vms.info`, which
`genconf` wrote; its arguments are the VM names in the order of the cfg file.

- `awk`, `arith`, `dd`: the tools, with what makes them fail.
- `ecdsaSign`: the program that signs one binary.
- `padLoop`, `concatVms`, `genhex`: the script on the files `/tmp/NAME.bin`.
- `genhex_spec`: with `BuildNames`, the names the script can tell apart, the image is the
  segments of `slots` one after the other.

A run in which one of the tools reports an error has no result here.
-/

namespace PrplHypervisor

open Genconf

/-! ## The tools -/

/-- A field of `vms.info`, as `awk` splits the lines. -/
inductive Field where
  | word (text : String)
  | number (value : Nat)
  deriving Repr, DecidableEq

/-- The lines of `vms.info`, the heading first. -/
def vmsInfo (infos : List VmInfo) : List (List Field) :=
  ["VM", "name", "flash_size", "ram_size", "address_start"].map Field.word ::
    infos.map fun info =>
      [.word info.appName, .number info.flashSize, .number info.ramSize, .number info.addressStart]

/-- What `awk` prints of column `column` for the lines that start with `name`. -/
def awk (lines : List (List Field)) (name : String) (column : Nat) : List Field :=
  (lines.filter fun fields => fields.head? = some (.word name)).filterMap fun fields =>
    fields[column - 1]?

/-- Arithmetic expansion: no text and an unset variable are 0, two operands without an
operator are a syntax error. -/
def arith : List Field → Option Int
  | [] => some 0
  | [.number n] => some n
  | [.word _] => some 0
  | _ :: _ :: _ => none

/-- `dd bs=BS conv=sync`: the last block is filled up with zeros. -/
def dd (input : List UInt8) (bs : Int) : Option (List UInt8) :=
  if bs ≤ 0 then none
  else some (input ++ List.replicate ((bs.toNat - input.length % bs.toNat) % bs.toNat) 0)

/-- The key of `private_key.txt`: its public half, and the signature `uECC_sign` draws for
the hash of a VM, if it finds one. -/
structure Signer where
  publicKey : List UInt8
  sign : String → List UInt8 → Option (List UInt8)

/-- `ecdsa_sign`: the contents of the file it saves for `image`. -/
def ecdsaSign (c : Crypto) (signer : Signer) (name : String) (image : List UInt8) :
    Option (List UInt8) :=
  let hash := c.sha256 image
  match signer.sign name hash with
  | none => none
  | some signature =>
    if c.verify signer.publicKey hash signature = 0 then none
    else some (signer.publicKey ++ signature)

/-! ## The script -/

/-- The hypervisor base address. -/
def baseAddr : Nat := 0x9D000000

/-- The files `/tmp/NAME.bin`, and what `ecdsa_sign` was run on so far. -/
structure Build where
  tmp : String → Option (List UInt8)
  signed : List (String × List UInt8) := []

/-- The second half of the loop body: the padded binary is signed, and both parts of the
signature are appended to it by way of `NAME.temp.bin`. -/
def signVm (c : Crypto) (signer : Signer) (b : Build) (name : String) (bin : List UInt8) : Build :=
  let tmp := Function.update b.tmp name (some bin)
  let security := ecdsaSign c signer name bin
  let temp := name ++ ".temp"
  -- the redirection appends to a file that is there already
  let joined := (tmp temp).getD [] ++ bin ++ security.getD []
  { tmp := Function.update (Function.update tmp name (some joined)) temp none
    signed := b.signed ++ [(name, bin)] }

/-- `PADDING` of a VM: from the start address of the next one, and for the last VM from its
flash size. -/
def vmPadding (lines : List (List Field)) (name : String) (base : Int) :
    List (String × Int) → Option Int
  | (_, next) :: _ => some (next - base - 128)
  | [] => (arith (awk lines name 2)).map (· - 128)

/-- The loop that pads and signs the VMs; each comes with its entry of `address_array`. -/
def padLoop (c : Crypto) (signer : Signer) (apps : String → List UInt8)
    (lines : List (List Field)) : Build → Int → List (String × Int) → Option Build
  | b, _, [] => some b
  | b, base, (name, _) :: rest => do
    let padding ← vmPadding lines name base rest
    let bin ← dd (apps name) padding
    padLoop c signer apps lines (signVm c signer b name bin) (base + padding + 128) rest

/-- One pass of the last loop: `firmware.bin` with one more file behind it. -/
def concatVm (tmp : String → Option (List UInt8)) (name : String) : String → Option (List UInt8) :=
  let joined := (tmp "tmp").getD [] ++ (tmp "firmware").getD [] ++ (tmp name).getD []
  Function.update (Function.update tmp "firmware" (some joined)) "tmp" none

/-- The concatenation, which starts with the padded hypervisor. -/
def concatVms (tmp : String → Option (List UInt8)) (names : List String) :
    String → Option (List UInt8) :=
  let tmp := Function.update tmp "tmp" none
  let tmp := Function.update tmp "firmware" (some ((tmp "prplHypervisor").getD []))
  names.foldl concatVm tmp

/-- `genhex.sh NAMES`, from the files that earlier builds left in `/tmp`. -/
def genhex (c : Crypto) (signer : Signer) (apps : String → List UInt8) (hypervisor : List UInt8)
    (tmp : String → Option (List UInt8)) (lines : List (List Field)) (names : List String) :
    Option Build := do
  let addressArray ← names.mapM fun name => arith (awk lines name 4)
  let first ← addressArray.head?
  let padding := first - baseAddr
  let bin ← dd hypervisor padding
  let b := { tmp := Function.update tmp "prplHypervisor" (some bin) }
  let b ← padLoop c signer apps lines b (baseAddr + padding) (names.zip addressArray)
  return { b with tmp := concatVms b.tmp names }

/-- The file `firmware.bin`. -/
def Build.firmware (b : Build) : List UInt8 := (b.tmp "firmware").getD []

/-! ## The layout the script gives the image -/

/-- Room for a VM that `rest` follows: up to the next VM, and for the last one its size. -/
def slotLength (info : VmInfo) : List VmInfo → Nat
  | next :: _ => next.addressStart - info.addressStart
  | [] => info.flashSize

/-- The VMs with the room each of them gets. -/
def slots : List VmInfo → List (VmInfo × Nat)
  | [] => []
  | info :: rest => (info, slotLength info rest) :: slots rest

/-- A binary padded for its slot. -/
def padded (apps : String → List UInt8) (p : VmInfo × Nat) : List UInt8 :=
  apps p.1.appName ++ List.replicate (p.2 - 128 - (apps p.1.appName).length) 0

/-- What fills a slot. -/
def segment (c : Crypto) (signer : Signer) (apps : String → List UInt8) (p : VmInfo × Nat) :
    List UInt8 :=
  padded apps p ++ (ecdsaSign c signer p.1.appName (padded apps p)).getD []

/-- No VM starts before the one in front of it ends. -/
def Ordered (infos : List VmInfo) : Prop :=
  infos.IsChain fun a b => a.addressStart + a.flashSize ≤ b.addressStart

/-- The binary of every VM leaves room for the key and the signature. -/
def Fits (apps : String → List UInt8) (infos : List VmInfo) : Prop :=
  ∀ info ∈ infos, apps info.appName ≠ [] ∧ (apps info.appName).length + 128 ≤ info.flashSize

theorem slots_fst (infos : List VmInfo) : (slots infos).map Prod.fst = infos := by
  induction infos with
  | nil => rfl
  | cons info rest ih => rw [slots, List.map_cons, ih]

theorem mem_of_mem_slots {infos : List VmInfo} {p : VmInfo × Nat} (hp : p ∈ slots infos) :
    p.1 ∈ infos :=
  slots_fst infos ▸ List.mem_map_of_mem hp

theorem flashSize_le_slotLength {info : VmInfo} {rest : List VmInfo}
    (hord : Ordered (info :: rest)) : info.flashSize ≤ slotLength info rest := by
  cases rest with
  | nil => exact le_rfl
  | cons next rest =>
    have hle := (List.isChain_cons_cons.mp hord).1
    simp only [slotLength]
    omega

/-- The next VM starts where the slot ends. -/
theorem Ordered.next_start {info : VmInfo} {rest : List VmInfo} (hord : Ordered (info :: rest)) :
    ∀ next ∈ rest.head?, next.addressStart = info.addressStart + slotLength info rest := by
  cases rest with
  | nil =>
    intro next hnext
    cases hnext
  | cons next rest =>
    rintro _ ⟨rfl⟩
    have hgap := (List.isChain_cons_cons.mp hord).1
    simp only [slotLength]
    omega

theorem flashSize_le_slot {infos : List VmInfo} (hord : Ordered infos) {p : VmInfo × Nat}
    (hp : p ∈ slots infos) : p.1.flashSize ≤ p.2 := by
  induction infos with
  | nil => cases hp
  | cons info rest ih =>
    rcases List.mem_cons.mp hp with rfl | hp
    · exact flashSize_le_slotLength hord
    · exact ih hord.of_cons hp

/-- A block size that holds the whole input fills it up once. -/
theorem dd_fill {input : List UInt8} {n : Nat} (hne : input ≠ []) (hle : input.length ≤ n) :
    dd input n = some (input ++ List.replicate (n - input.length) 0) := by
  have hpos := List.length_pos_iff.mpr hne
  have hpad : (n - input.length % n) % n = n - input.length := by
    rcases Nat.lt_or_eq_of_le hle with hlt | heq
    · rw [Nat.mod_eq_of_lt hlt, Nat.mod_eq_of_lt (by omega)]
    · rw [heq, Nat.mod_self, Nat.sub_zero, Nat.mod_self, Nat.sub_self]
  rw [dd, if_neg (by omega), Int.toNat_natCast, hpad]

theorem dd_padded {apps : String → List UInt8} {info : VmInfo} {length : Nat}
    (hne : apps info.appName ≠ []) (hroom : (apps info.appName).length + 128 ≤ length) :
    dd (apps info.appName) ((length : Int) - 128) = some (padded apps (info, length)) := by
  have hcast : (length : Int) - 128 = ((length - 128 : Nat) : Int) := by omega
  rw [hcast, dd_fill hne (by omega)]
  rfl

/-! ## Names -/

/-- Characters that make, the shell, `awk`, a path or a C string can take for something else. -/
def special : List Char := "\"'\\$`#;&|<>()*?[]\x7b\x7d~!/".toList

/-- Characters of one word, which reaches the script as it stands in the cfg file. -/
def plain (ch : Char) : Bool := 32 < ch.toNat && ch.toNat != 127 && !special.contains ch

/-- Names that the script and its tools can tell apart. -/
structure BuildNames (infos : List VmInfo) : Prop where
  nodup : (infos.map (·.appName)).Nodup
  word : ∀ info ∈ infos, info.appName ≠ "" ∧ info.appName.toList.all plain
  /-- `strings_cat` drops no part of a row of `vms.info`. -/
  row_whole : ∀ info ∈ infos,
    ((rowParts (cstr info.appName) info).map List.length).sum ≤ strsz
  /-- The array of `genconf` holds all names, each with a blank behind it. -/
  list_fits : (infos.map fun info => (cstr info.appName).length + 1).sum < strsz
  /-- The heading of `vms.info` and the script's own files. -/
  free : ∀ info ∈ infos, info.appName ∉ ["VM", "tmp", "firmware", "prplHypervisor"]
  /-- A later VM is not joined in the file of an earlier one. -/
  temp : infos.Pairwise fun a b => a.appName ≠ b.appName ++ ".temp"

theorem temp_ne (name : String) : name ++ ".temp" ≠ name := by
  intro h
  have hlen := congrArg String.length h
  rw [String.length_append] at hlen
  have : ".temp".length = 5 := rfl
  omega

/-- The padded hypervisor is no file a VM is joined in. -/
theorem temp_ne_hypervisor (name : String) : name ++ ".temp" ≠ "prplHypervisor" := by
  intro h
  have hlast := congrArg (fun s => s.toList.getLast?) h
  simp at hlast

section Lines

variable {infos : List VmInfo}

/-- Of rows with distinct names the one of `info` is selected. -/
theorem filter_name (hnodup : (infos.map (·.appName)).Nodup) {info : VmInfo}
    (hinfo : info ∈ infos) : infos.filter (·.appName = info.appName) = [info] := by
  induction infos with
  | nil => cases hinfo
  | cons head rest ih =>
    obtain ⟨hhead, hrest⟩ := List.nodup_cons.mp hnodup
    rcases List.mem_cons.mp hinfo with rfl | hinfo
    · have hnone : rest.filter (·.appName = info.appName) = [] :=
        List.filter_eq_nil_iff.mpr fun other hother heq =>
          hhead (List.mem_map.mpr ⟨other, hother, of_decide_eq_true heq⟩)
      rw [List.filter_cons_of_pos (by simp), hnone]
    · have hne : ¬ head.appName = info.appName := fun heq =>
        hhead (List.mem_map.mpr ⟨info, hinfo, heq.symm⟩)
      rw [List.filter_cons_of_neg (by simpa using hne), ih hrest hinfo]

theorem awk_vmsInfo (hnodup : (infos.map (·.appName)).Nodup) {info : VmInfo} (hinfo : info ∈ infos)
    (hheading : info.appName ≠ "VM") (column : Nat) :
    awk (vmsInfo infos) info.appName column =
      [[.word info.appName, .number info.flashSize, .number info.ramSize,
        .number info.addressStart]].filterMap fun fields => fields[column - 1]? := by
  have hhead : ¬ Field.word "VM" = Field.word info.appName := fun h =>
    hheading (Field.word.inj h).symm
  have hrows := congrArg (List.map fun info : VmInfo =>
    [Field.word info.appName, .number info.flashSize, .number info.ramSize,
      .number info.addressStart]) (filter_name hnodup hinfo)
  rw [List.map_cons, List.map_nil] at hrows
  rw [awk, vmsInfo, List.map_cons, List.filter_cons_of_neg (by simpa using hhead), List.filter_map]
  simp only [Function.comp_def, List.head?_cons, Option.some.injEq, Field.word.injEq]
  rw [hrows]

theorem mapM_some {α β : Type} {f : α → Option β} {g : α → β} {l : List α}
    (h : ∀ x ∈ l, f x = some (g x)) : l.mapM f = some (l.map g) := by
  induction l with
  | nil => rfl
  | cons x l ih =>
    rw [List.mapM_cons, h x List.mem_cons_self, ih fun y hy => h y (List.mem_cons_of_mem _ hy)]
    rfl

theorem BuildNames.ne_heading (hnames : BuildNames infos) {info : VmInfo} (hinfo : info ∈ infos) :
    info.appName ≠ "VM" := fun heq => hnames.free info hinfo (List.mem_cons.mpr (Or.inl heq))

/-- The array of start addresses. -/
theorem BuildNames.addressArray (hnames : BuildNames infos) :
    (infos.map (·.appName)).mapM (fun name => arith (awk (vmsInfo infos) name 4)) =
      some (infos.map fun info => (info.addressStart : Int)) := by
  rw [List.mapM_map]
  refine mapM_some ?_
  intro info hinfo
  rw [Function.comp_apply, awk_vmsInfo hnames.nodup hinfo (hnames.ne_heading hinfo)]
  rfl

theorem BuildNames.flashSize (hnames : BuildNames infos) :
    ∀ info ∈ infos, arith (awk (vmsInfo infos) info.appName 2) = some (info.flashSize : Int) := by
  intro info hinfo
  rw [awk_vmsInfo hnames.nodup hinfo (hnames.ne_heading hinfo)]
  rfl

/-- No VM has the name of a file that the concatenation writes. -/
theorem BuildNames.ne_written (hnames : BuildNames infos) :
    ∀ name ∈ infos.map (·.appName), name ≠ "tmp" ∧ name ≠ "firmware" := by
  intro name hname
  obtain ⟨info, hinfo, rfl⟩ := List.mem_map.mp hname
  have hfree := hnames.free info hinfo
  simp only [List.mem_cons, not_or] at hfree
  exact ⟨hfree.2.1, hfree.2.2.1⟩

theorem BuildNames.ne_hypervisor (hnames : BuildNames infos) {info : VmInfo}
    (hinfo : info ∈ infos) :
    "prplHypervisor" ≠ info.appName := fun heq => hnames.free info hinfo (by rw [← heq]; decide)

end Lines

/-! ## What the script does with these names -/

section Loop

variable (c : Crypto) (signer : Signer) (apps : String → List UInt8)

theorem signVm_self {b : Build} {name : String} (hstale : b.tmp (name ++ ".temp") = none)
    (bin : List UInt8) :
    (signVm c signer b name bin).tmp name =
      some (bin ++ (ecdsaSign c signer name bin).getD []) := by
  simp only [signVm, Function.update_of_ne (temp_ne name).symm, Function.update_self,
    Function.update_of_ne (temp_ne name), hstale, Option.getD_none, List.nil_append]

theorem signVm_other (b : Build) {name other : String} (bin : List UInt8) (hname : other ≠ name)
    (htemp : other ≠ name ++ ".temp") : (signVm c signer b name bin).tmp other = b.tmp other := by
  simp only [signVm, Function.update_of_ne htemp, Function.update_of_ne hname]

theorem signVm_temp (b : Build) (name : String) (bin : List UInt8) :
    (signVm c signer b name bin).tmp (name ++ ".temp") = none :=
  Function.update_self ..

/-- The padding of a VM leaves the key and the signature of its slot. -/
theorem vmPadding_eq {lines : List (List Field)} {info : VmInfo} {rest : List VmInfo}
    (hline : arith (awk lines info.appName 2) = some info.flashSize)
    (hord : Ordered (info :: rest)) :
    vmPadding lines info.appName info.addressStart
      (rest.map fun info => (info.appName, (info.addressStart : Int))) =
        some ((slotLength info rest : Int) - 128) := by
  cases rest with
  | nil =>
    rw [List.map_nil, vmPadding, hline]
    rfl
  | cons next rest =>
    have hgap := (List.isChain_cons_cons.mp hord).1
    simp only [List.map_cons, vmPadding, slotLength, Option.some.injEq]
    omega

/-- After the loop the file of every VM is its segment. Other files are as before. -/
theorem padLoop_spec {lines : List (List Field)} {infos : List VmInfo}
    (hlines : ∀ info ∈ infos, arith (awk lines info.appName 2) = some info.flashSize)
    (hord : Ordered infos) (hfits : Fits apps infos) (hnodup : (infos.map (·.appName)).Nodup)
    (htemp : infos.Pairwise fun a b => a.appName ≠ b.appName ++ ".temp") {b : Build}
    (hstale : ∀ info ∈ infos, b.tmp (info.appName ++ ".temp") = none) {base : Nat}
    (hbase : ∀ info ∈ infos.head?, info.addressStart = base) :
    ∃ b', padLoop c signer apps lines b base
        (infos.map fun info => (info.appName, (info.addressStart : Int))) = some b' ∧
      (∀ p ∈ slots infos, b'.tmp p.1.appName = some (segment c signer apps p)) ∧
      (∀ other, (∀ info ∈ infos, other ≠ info.appName ∧ other ≠ info.appName ++ ".temp") →
        b'.tmp other = b.tmp other) ∧
      b'.signed = b.signed ++ (slots infos).map fun p => (p.1.appName, padded apps p) := by
  induction infos generalizing b base with
  | nil =>
    refine ⟨b, rfl, fun p hp => ?_, fun _ _ => rfl, (List.append_nil _).symm⟩
    cases hp
  | cons info rest ih =>
    obtain ⟨hne, hroom⟩ := hfits info List.mem_cons_self
    obtain ⟨hfresh, hnodup'⟩ := List.nodup_cons.mp hnodup
    obtain ⟨hhead, htemp'⟩ := List.pairwise_cons.mp htemp
    obtain rfl : info.addressStart = base := hbase info rfl
    have hle := flashSize_le_slotLength hord
    have hpadding := vmPadding_eq (hlines info List.mem_cons_self) hord
    set bin := padded apps (info, slotLength info rest) with hbin
    have hdd : dd (apps info.appName) ((slotLength info rest : Int) - 128) = some bin :=
      dd_padded hne (by omega)
    -- the passes that follow
    have hother : ∀ later ∈ rest, info.appName ≠ later.appName := fun later hlater heq =>
      hfresh (List.mem_map.mpr ⟨later, hlater, heq.symm⟩)
    have hstale' : ∀ later ∈ rest,
        (signVm c signer b info.appName bin).tmp (later.appName ++ ".temp") = none := by
      intro later hlater
      by_cases heq : later.appName ++ ".temp" = info.appName ++ ".temp"
      · rw [heq, signVm_temp]
      · rw [signVm_other c signer b bin (hhead later hlater).symm heq]
        exact hstale later (List.mem_cons_of_mem _ hlater)
    obtain ⟨b', hloop, hfiles, hframe, hsigned⟩ := ih
      (fun later hlater => hlines later (List.mem_cons_of_mem _ hlater)) hord.of_cons
      (fun later hlater => hfits later (List.mem_cons_of_mem _ hlater)) hnodup' htemp' hstale'
      hord.next_start
    have hbase' : (info.addressStart : Int) + ((slotLength info rest : Int) - 128) + 128 =
        ((info.addressStart + slotLength info rest : Nat) : Int) := by omega
    refine ⟨b', ?_, ?_, ?_, ?_⟩
    · rw [List.map_cons, padLoop, hpadding, Option.bind_eq_bind, Option.bind_some, hdd,
        Option.bind_eq_bind, Option.bind_some, hbase', hloop]
    · intro p hp
      rcases List.mem_cons.mp hp with rfl | hp
      · rw [hframe _ fun later hlater => ⟨hother later hlater, hhead later hlater⟩]
        exact signVm_self c signer (hstale info List.mem_cons_self) bin
      · exact hfiles p hp
    · intro other hne'
      have hinfo := hne' info List.mem_cons_self
      rw [hframe other fun later hlater => hne' later (List.mem_cons_of_mem _ hlater),
        signVm_other c signer b bin hinfo.1 hinfo.2]
    · rw [hsigned, slots, List.map_cons]
      exact List.append_assoc ..

/-- The last loop appends the files in order. -/
theorem foldl_concatVm {names : List String}
    (hfree : ∀ name ∈ names, name ≠ "tmp" ∧ name ≠ "firmware")
    {tmp : String → Option (List UInt8)} (htmp : tmp "tmp" = none) {firmware : List UInt8}
    (hfirmware : tmp "firmware" = some firmware) :
    names.foldl concatVm tmp "firmware" =
      some (firmware ++ (names.map fun name => (tmp name).getD []).flatten) := by
  induction names generalizing tmp firmware with
  | nil => rw [List.foldl_nil, hfirmware, List.map_nil, List.flatten_nil, List.append_nil]
  | cons name names ih =>
    have hname := hfree name List.mem_cons_self
    have htmp' : concatVm tmp name "tmp" = none := by rw [concatVm, Function.update_self]
    have hfirmware' : concatVm tmp name "firmware" = some (firmware ++ (tmp name).getD []) := by
      rw [concatVm, Function.update_of_ne (by decide), Function.update_self, htmp, hfirmware]
      rfl
    have hothers : names.map (fun name' => (concatVm tmp name name').getD []) =
        names.map fun name' => (tmp name').getD [] := by
      refine List.map_congr_left ?_
      intro name' hmem
      obtain ⟨htmp, hfirmware⟩ := hfree name' (List.mem_cons_of_mem _ hmem)
      rw [concatVm, Function.update_of_ne htmp, Function.update_of_ne hfirmware]
    rw [List.foldl_cons, ih (fun name' hmem => hfree name' (List.mem_cons_of_mem _ hmem)) htmp'
      hfirmware', hothers, List.map_cons, List.flatten_cons, List.append_assoc]

theorem concatVms_firmware {names : List String}
    (hfree : ∀ name ∈ names, name ≠ "tmp" ∧ name ≠ "firmware")
    {tmp : String → Option (List UInt8)} {bin : List UInt8}
    (hbin : tmp "prplHypervisor" = some bin) :
    concatVms tmp names "firmware" =
      some (bin ++ (names.map fun name => (tmp name).getD []).flatten) := by
  have hothers : names.map (fun name =>
      (Function.update (Function.update tmp "tmp" none) "firmware" (some bin) name).getD []) =
      names.map fun name => (tmp name).getD [] := by
    refine List.map_congr_left ?_
    intro name hmem
    obtain ⟨htmp, hfirmware⟩ := hfree name hmem
    rw [Function.update_of_ne hfirmware, Function.update_of_ne htmp]
  simp only [concatVms]
  rw [Function.update_of_ne (by decide), hbin, Option.getD_some,
    foldl_concatVm hfree (by rw [Function.update_of_ne (by decide), Function.update_self])
      (Function.update_self ..), hothers]

/-- The image is the padded hypervisor and the segments of the VMs. -/
theorem genhex_spec {infos : List VmInfo} (hnames : BuildNames infos) (hord : Ordered infos)
    (hfits : Fits apps infos) (hne : infos ≠ []) {hypervisor : List UInt8} (hhyp : hypervisor ≠ [])
    (hroom : ∀ info ∈ infos.head?, baseAddr + hypervisor.length ≤ info.addressStart)
    {tmp : String → Option (List UInt8)}
    (hstale : ∀ info ∈ infos, tmp (info.appName ++ ".temp") = none) :
    ∃ b bin, genhex c signer apps hypervisor tmp (vmsInfo infos) (infos.map (·.appName)) = some b ∧
      (∀ info ∈ infos.head?, baseAddr + bin.length = info.addressStart) ∧
      b.firmware = Segments.join ((baseAddr, bin) ::
        (slots infos).map fun p => (p.1.addressStart, segment c signer apps p)) ∧
      b.signed = (slots infos).map fun p => (p.1.appName, padded apps p) := by
  obtain ⟨first, rest, rfl⟩ := List.exists_cons_of_ne_nil hne
  have hfirst := hroom first rfl
  -- the hypervisor is padded up to the first VM
  set bin := hypervisor ++
    List.replicate (first.addressStart - baseAddr - hypervisor.length) 0 with hbin
  have hdd : dd hypervisor ((first.addressStart : Int) - baseAddr) = some bin := by
    have hcast : (first.addressStart : Int) - baseAddr =
      ((first.addressStart - baseAddr : Nat) : Int) := by omega
    rw [hcast, dd_fill hhyp (by omega)]
  -- the loop over the VMs leaves it alone
  have hstale' : ∀ info ∈ first :: rest,
      Function.update tmp "prplHypervisor" (some bin) (info.appName ++ ".temp") = none := by
    intro info hinfo
    rw [Function.update_of_ne (temp_ne_hypervisor _), hstale info hinfo]
  have hbase : ∀ info ∈ (first :: rest).head?, info.addressStart = first.addressStart := by
    intro info hinfo
    cases hinfo
    rfl
  obtain ⟨b, hloop, hfiles, hframe, hsigned⟩ := padLoop_spec c signer apps hnames.flashSize hord
    hfits hnames.nodup hnames.temp (b := { tmp := Function.update tmp "prplHypervisor" (some bin) })
    hstale' hbase
  have hhyp' : b.tmp "prplHypervisor" = some bin := by
    rw [hframe "prplHypervisor" fun info hinfo =>
      ⟨hnames.ne_hypervisor hinfo, (temp_ne_hypervisor _).symm⟩]
    show Function.update tmp "prplHypervisor" (some bin) "prplHypervisor" = some bin
    rw [Function.update_self]
  have hzip : ((first :: rest).map (·.appName)).zip
      ((first :: rest).map fun info => (info.addressStart : Int)) =
      (first :: rest).map fun info => (info.appName, (info.addressStart : Int)) :=
    List.zip_map' ..
  refine ⟨{ b with tmp := concatVms b.tmp ((first :: rest).map (·.appName)) }, bin, ?_, ?_, ?_, ?_⟩
  · -- the script, step by step
    have hstart : (baseAddr : Int) + ((first.addressStart : Int) - baseAddr) =
        (first.addressStart : Int) := by omega
    have hhead : ((first :: rest).map fun info => (info.addressStart : Int)).head? =
        some (first.addressStart : Int) := rfl
    simp only [genhex, hnames.addressArray, hhead, hzip, Option.bind_eq_bind, Option.bind_some, hdd,
      hstart, hloop]
    rfl
  · intro info hinfo
    cases hinfo
    rw [hbin, List.length_append, List.length_replicate]
    omega
  · -- the concatenation finds the segments in the files
    have hsegments : ((first :: rest).map (·.appName)).map (fun name => (b.tmp name).getD []) =
        (slots (first :: rest)).map (segment c signer apps) := by
      rw [List.map_map, ← slots_fst (first :: rest), List.map_map, slots_fst]
      refine List.map_congr_left ?_
      intro p hp
      rw [Function.comp_apply, Function.comp_apply, hfiles p hp, Option.getD_some]
    show (concatVms b.tmp _ "firmware").getD [] = _
    rw [concatVms_firmware hnames.ne_written hhyp', Option.getD_some, hsegments, Segments.join,
      List.map_cons, List.map_map, List.flatten_cons]
    rfl
  · rw [hsigned]
    rfl

end Loop

end PrplHypervisor
