import PrplHypervisor.Config.Buffers

/-!
# When the buffers of the configuration generator suffice (platform/cfg_reader/genconf.c)

- The lines of a TLB entry contain numbers only and always fit (`tlbStrings_eq`), so the
  generator's checks are what is left of `mapStrings` (`mapStrings_eq`).
- `nameStrings_some`, `settingStrings_some`, `infoStrings_some` and their counterparts `_none`: the
  lines with names.
- `LoopInv`, `genConfVmStrings_cases`: one iteration. `vms_info` never overflows, for the TLB
  entries run out before (`vmsInfo_room`).
- `genconf_fits_iff`: the whole program.
-/

namespace PrplHypervisor.Genconf

open CString Format

/-! ## Lines with numbers only -/

section Numbers

theorem strsz_pos : 0 < strsz := by decide

theorem strsz_le : strsz ≤ 2 ^ 31 := by decide

theorem length_decimal_le (v : BitVec 32) : (decimal v).length ≤ 11 :=
  Directive.length_text_le _ (Nat.zero_le 11) v

theorem length_hex_le (v : BitVec 32) : (hex v).length ≤ 13 := by
  have hdigits := (Directive.mk false 0 0 .x).length_text_le (Nat.zero_le 11) v
  have htwo : (cstr "0x").length = 2 := rfl
  rw [hex, List.length_append]
  omega

theorem length_hexAddress_le (v : Nat) : (hexAddress v).length ≤ 13 := by
  have hdigits := (Directive.mk false 1 5 .x).length_text_le (show 5 ≤ 11 by omega)
    (BitVec.ofNat 32 v)
  have htwo : (cstr "0x").length = 2 := rfl
  rw [hexAddress, List.length_append]
  omega

theorem decimal_nul (v : BitVec 32) : 0 ∉ decimal v := Directive.text_nul _ v

theorem hex_nul (v : BitVec 32) : 0 ∉ hex v := append_nul (cstr_nul _) (Directive.text_nul _ v)

theorem hexAddress_nul (v : Nat) : 0 ∉ hexAddress v :=
  append_nul (cstr_nul _) (Directive.text_nul _ _)

theorem rowText_nul (info : VmInfo) : 0 ∉ rowText info := by
  have htab := cstr_nul " \t"
  have hflash := append_nul (decimal_nul (BitVec.ofNat 32 info.flashSize)) htab
  have hram := append_nul hflash (append_nul (decimal_nul (BitVec.ofNat 32 info.ramSize)) htab)
  rw [← List.append_assoc] at hram
  exact append_nul (append_nul hram (hex_nul _)) (cstr_nul "\n")

/-- A row of `vms.info` without the name fits into `auxstr`. -/
theorem length_rowText_lt (info : VmInfo) : (rowText info).length < strsz := by
  have hflash := length_decimal_le (BitVec.ofNat 32 info.flashSize)
  have hram := length_decimal_le (BitVec.ofNat 32 info.ramSize)
  have haddr := length_hex_le (BitVec.ofNat 32 info.addressStart)
  have htab : (cstr " \t").length = 2 := rfl
  have hend : (cstr "\n").length = 1 := rfl
  simp only [rowText, count, List.length_append, strsz]
  omega

variable {junk : Nat → UInt8} {b str auxstr : Buffer}

theorem three_nul {s t u : List UInt8} (hs : 0 ∉ s) (ht : 0 ∉ t) (hu : 0 ∉ u) :
    ∀ c ∈ [s, t, u], 0 ∉ c := by
  intro c hc
  rw [List.mem_cons, List.mem_cons, List.mem_singleton] at hc
  rcases hc with rfl | rfl | rfl
  · exact hs
  · exact ht
  · exact hu

/-- Three strings that fit together. -/
theorem stringsCat_three {s t u : List UInt8} (hb : b.size = strsz) (hs : 0 ∉ s) (ht : 0 ∉ t)
    (hu : 0 ∉ u) (hlt : s.length + t.length + u.length < strsz) :
    ∃ b', stringsCat b strsz [s, t, u] = some b' ∧ b'.size = strsz := by
  have hfits : CatFits strsz 0 [s, t, u] := by
    apply catFits_of_lt
    simp only [List.flatten_cons, List.flatten_nil, List.length_append, List.length_nil]
    omega
  obtain ⟨b', hcat, hsize, -⟩ :=
    stringsCat_spec strsz_pos strsz_le hb (three_nul hs ht hu) hfits
  exact ⟨b', hcat, hsize⟩

theorem snprintf_line {s : List UInt8} (hb : b.size = strsz) (hs : 0 ∉ s) : ∃ b',
    snprintf b strsz s = some b' ∧ b'.size = strsz ∧ b'.HoldsText (s.take (strsz - 1)) := by
  obtain ⟨b', hprint, hsize, hheld⟩ := snprintf_spec hs (Nat.le_of_eq hb.symm) strsz_pos
  exact ⟨b', hprint, hsize.trans hb, hheld⟩

/-- A step of a `do` block that succeeds. -/
theorem bind_some_of {α β : Type} {x : Option α} {f : α → Option β} {a : α} {r : Option β}
    (hx : x = some a) (hf : f a = r) : x >>= f = r := by
  rw [hx, Option.bind_eq_bind, Option.bind_some, hf]

/-- A step of a `do` block that has no result. -/
theorem bind_none_of {α β : Type} {x : Option α} {f : α → Option β} (hx : x = none) :
    x >>= f = none := by
  rw [hx]
  rfl

theorem entryLine_some (junk : Nat → UInt8) (label : String)
    (hlabel : (cstr label).length ≤ 100) (v : Nat) :
    ∃ b', entryLine junk label (hexAddress v) = some b' := by
  have hlen := length_hexAddress_le v
  have hend : (cstr ",\n").length = 2 := rfl
  have hsize : (array junk).size = 128 := rfl
  obtain ⟨straux, hcpy, -, hheld⟩ := strcpy_spec (b := array junk) (hexAddress_nul v) (by omega)
  obtain ⟨b', hcat, -⟩ := stringsCat_three (b := array junk) rfl (cstr_nul label)
    (hexAddress_nul v) (cstr_nul ",\n") (by rw [strsz]; omega)
  exact ⟨b', bind_some_of hcpy (bind_some_of hheld.text_eq hcat)⟩

theorem pagemaskLine_some (junk : Nat → UInt8) (p : PageMask) : ∃ straux b',
    snprintf (array junk) strsz (cstr (pagemaskName p)) = some straux ∧
    straux.text = some (cstr (pagemaskName p)) ∧
    stringsCat (array junk) strsz
      [cstr "\t\t\t\tpagemask: ", cstr (pagemaskName p), cstr ",\n"] = some b' := by
  have hname : (cstr (pagemaskName p)).length ≤ 14 := by
    cases p <;> decide
  obtain ⟨straux, hprint, -, hheld⟩ := snprintf_line (b := array junk) rfl
    (cstr_nul (pagemaskName p))
  rw [List.take_of_length_le (Nat.le_trans hname (by decide))] at hheld
  have hlabel : (cstr "\t\t\t\tpagemask: ").length = 14 := rfl
  have hend : (cstr ",\n").length = 2 := rfl
  obtain ⟨b', hcat, -⟩ := stringsCat_three (b := array junk) rfl (cstr_nul "\t\t\t\tpagemask: ")
    (cstr_nul (pagemaskName p)) (cstr_nul ",\n") (by rw [strsz]; omega)
  exact ⟨straux, b', hprint, hheld.text_eq, hcat⟩

/-- `process_tlb_entry` stays in its arrays. -/
theorem tlbStrings_eq (dual : Bool) (e : TlbEntries) : tlbStrings junk dual e = some () := by
  obtain ⟨b₀, h₀⟩ := entryLine_some junk "\t\t\t\tentrylo0: " (by decide) e.entrylo0
  obtain ⟨b₁, h₁⟩ := entryLine_some junk "\t\t\t\tentrylo1: " (by decide) e.entrylo1
  obtain ⟨b₂, h₂⟩ := entryLine_some junk "\t\t\t\tentryhi: " (by decide) e.entryhi
  obtain ⟨straux, b₃, hprint, htext, hcat⟩ := pagemaskLine_some junk e.pagemask
  have hlo1 : ∃ b, entrylo1Line junk dual e = some b := by
    rw [entrylo1Line]
    split
    · exact ⟨b₁, h₁⟩
    · exact ⟨array junk, rfl⟩
  obtain ⟨b₄, h₄⟩ := hlo1
  refine bind_some_of h₀ ?_
  refine bind_some_of h₄ ?_
  refine bind_some_of hprint ?_
  refine bind_some_of htext ?_
  refine bind_some_of hcat ?_
  exact bind_some_of h₂ rfl

end Numbers

/-! ## The checks between the lines -/

section Checks

variable {junk : Nat → UInt8} {s : GenState} {vm : VmSetting} {name os : String}

theorem orStop_eq {ε α β : Type} {x : Except ε α} {f : α → Option (Except ε β)}
    {g : α → Except ε β} (h : ∀ a, x = .ok a → f a = some (g a)) : orStop x f = some (x >>= g) := by
  cases x with
  | error e => rfl
  | ok a => exact h a rfl

theorem ok_bind {ε α β : Type} (a : α) (f : α → Except ε β) : (Except.ok a >>= f) = f a := rfl

theorem lookup_some {α : Type} (e : GenconfError) (a : α) : lookup e (some a) = .ok a := rfl

theorem mapsStrings_eq (maps : List MemMapSetting) :
    mapsStrings junk maps = some ((maps.mapM genMemMap).map fun _ => ()) := by
  induction maps with
  | nil => rfl
  | cons mm maps ih =>
    rw [mapsStrings, List.mapM_cons]
    cases genMemMap mm with
    | error e => rfl
    | ok e =>
      rw [orStop, tlbStrings_eq, Option.bind_some, ih]
      cases maps.mapM genMemMap with
      | error e => rfl
      | ok es => rfl

/-- Nothing but the checks can stop an iteration between the OS type and the row. -/
theorem mapStrings_eq (hname : vm.appName = some name) (hos : vm.osType = some os) :
    mapStrings junk s vm = some (genConfVm s vm) := by
  rw [mapStrings]
  split
  case isTrue hmax =>
    simp only [genConfVm, hname, hos, if_pos hmax]
    rfl
  case isFalse hmax =>
    conv_rhs => simp only [genConfVm, hname, hos, lookup_some, ok_bind, if_neg hmax]
    refine orStop_eq ?_
    intro ramName hramName
    refine orStop_eq ?_
    intro ramSize hram
    refine orStop_eq ?_
    intro ram hentry
    rw [tlbStrings_eq, Option.bind_some]
    refine orStop_eq ?_
    intro flashName hflashName
    refine orStop_eq ?_
    intro flashSize hflash
    refine orStop_eq ?_
    intro flash hentry'
    rw [tlbStrings_eq, Option.bind_some, mapsStrings_eq, Option.bind_some]
    cases hmaps : vm.memoryMaps.mapM genMemMap with
    | error e => rfl
    | ok maps =>
      simp only [Except.map, orStop, genConfVm, hname, hos, lookup_some, ok_bind, if_neg hmax,
        hramName, hram, hentry, hflashName, hflash, hentry', hmaps]

theorem mapM_ok_iff {ε α β : Type} {f : α → Except ε β} {xs : List α} :
    (∃ ys, xs.mapM f = .ok ys) ↔ ∀ x ∈ xs, ∃ y, f x = .ok y := by
  induction xs with
  | nil => exact iff_of_true ⟨[], rfl⟩ fun x hx => absurd hx List.not_mem_nil
  | cons x xs ih =>
    rw [List.mapM_cons, List.forall_mem_cons, ← ih]
    constructor
    · rintro ⟨ys, h⟩
      obtain ⟨y, hy, h⟩ := bind_eq_ok.mp h
      obtain ⟨rest, hrest, -⟩ := bind_eq_ok.mp h
      exact ⟨⟨y, hy⟩, rest, hrest⟩
    · rintro ⟨⟨y, hy⟩, rest, hrest⟩
      exact ⟨y :: rest, by rw [hy, ok_bind, hrest]; rfl⟩

theorem processTlbEntry_isMemSize {m : Nat} (h : IsMemSize m) (base va : Nat) :
    ∃ r, processTlbEntry m base va = .ok r := by
  obtain ⟨p, dual, hsel, -⟩ := h.covers
  exact ⟨_, by rw [processTlbEntry, hsel]⟩

theorem lookupSize_of_ne_zero {e : String → GenconfError} {name : String}
    (h : getValueFromStr memSizes name ≠ 0) :
    lookupSize e name = .ok (getValueFromStr memSizes name) := lookupSize_eq_ok.mpr ⟨rfl, h⟩

theorem genMemMap_ok_iff {mm : MemMapSetting} : (∃ e, genMemMap mm = .ok e) ↔
    mm.baseAddr.isSome ∧ ∃ name, mm.pageSize = some name ∧ getValueFromStr memSizes name ≠ 0 := by
  constructor
  · rintro ⟨e, h⟩
    obtain ⟨base, hbase, h⟩ := bind_eq_ok.mp h
    obtain ⟨name, hname, h⟩ := bind_eq_ok.mp h
    obtain ⟨size, hsize, -⟩ := bind_eq_ok.mp h
    obtain ⟨rfl, hne⟩ := lookupSize_eq_ok.mp hsize
    exact ⟨Option.isSome_iff_exists.mpr ⟨base, lookup_eq_ok.mp hbase⟩, name,
      lookup_eq_ok.mp hname, hne⟩
  · rintro ⟨hbase, name, hname, hne⟩
    obtain ⟨base, hbase⟩ := Option.isSome_iff_exists.mp hbase
    have hsize := lookupSize_of_ne_zero (e := .invalidFlashSize) hne
    have hmem := isMemSize_of_lookupSize hsize
    obtain ⟨r, hr⟩ := processTlbEntry_isMemSize hmem base.toNat base.toNat
    exact ⟨r.1, by rw [genMemMap, hbase, hname, lookup_some, ok_bind, lookup_some, ok_bind, hsize,
      ok_bind, hr]; rfl⟩

theorem genConfVm_ok_iff (hname : vm.appName = some name) (hos : vm.osType = some os) :
    (∃ r, genConfVm s vm = .ok r) ↔ Passes s.totalTlbEntries vm := by
  constructor
  · rintro ⟨⟨row, next⟩, h⟩
    obtain ⟨ramName, flashName, ramEntry, flashEntry, maps, -, hmax, hramName, hram, -,
      hflashName, hflash, -, hmaps, -⟩ := genConfVm_eq_ok h
    have hmaps := mapM_ok_iff.mp ⟨maps, hmaps⟩
    refine ⟨hmax, ⟨ramName, hramName, ?_⟩, ⟨flashName, hflashName, ?_⟩,
      fun mm hmm => genMemMap_ok_iff.mp (hmaps mm hmm)⟩
    · obtain ⟨heq, hne⟩ := lookupSize_eq_ok.mp hram
      rwa [heq]
    · obtain ⟨heq, hne⟩ := lookupSize_eq_ok.mp hflash
      rwa [heq]
  · rintro ⟨hmax, ⟨ramName, hramName, hram⟩, ⟨flashName, hflashName, hflash⟩, hmaps⟩
    have hram := lookupSize_of_ne_zero (e := .invalidRamSize) hram
    have hflash := lookupSize_of_ne_zero (e := .invalidFlashSize) hflash
    obtain ⟨ram, hentry⟩ := processTlbEntry_isMemSize (isMemSize_of_lookupSize hram)
      s.vmRamInterAddr vmsRamVirtualBaseAddress
    obtain ⟨flash, hentry'⟩ := processTlbEntry_isMemSize (isMemSize_of_lookupSize hflash)
      s.vmFlashInterAddr vmsFlashVirtualBaseAddress
    obtain ⟨maps, hmaps⟩ := mapM_ok_iff.mpr fun mm hmm => genMemMap_ok_iff.mpr (hmaps mm hmm)
    exact ⟨_, by
      simp only [genConfVm, hname, hos, lookup_some, ok_bind, if_neg (Nat.not_lt.mpr hmax),
        hramName, hram, hentry, hflashName, hflash, hentry', hmaps]
      rfl⟩

end Checks

/-! ## The row of a VM -/

section Row

variable {s next : GenState} {vm : VmSetting} {row : VmConf × VmInfo} {name : List UInt8}

/-- An address of eight digits, as all flash addresses are. -/
theorem length_hex_eq {n : Nat} (hlow : 16 ^ 7 ≤ n) (hhigh : n < 16 ^ 8) :
    (hex (BitVec.ofNat 32 n)).length = 10 := by
  have hnum : (BitVec.ofNat 32 n).toNat = n := Nat.mod_eq_of_lt hhigh
  have hle : (numeral 97 16 n).length ≤ 8 :=
    (numeral_length_le_iff (by decide) (by decide)).mpr hhigh
  have hgt : ¬ (numeral 97 16 n).length ≤ 7 := by
    intro h
    have hlt := (numeral_length_le_iff (by decide) (by decide)).mp h
    exact absurd hlt (Nat.not_lt.mpr hlow)
  have htwo : (cstr "0x").length = 2 := rfl
  have hbare : (Directive.mk false 0 0 .x).bare (BitVec.ofNat 32 n) = (numeral 97 16 n).length := by
    rw [Directive.bare, List.length_append, Conversion.digits, hnum]
    exact Nat.zero_add _
  rw [hex, List.length_append, Directive.length_text, hbare, Nat.zero_max]
  omega

/-- The row of an accepted VM is as long as that of `rowInfo`. -/
theorem length_rowText (hs : GenInv s) (h : genConfVm s vm = .ok (row, next)) :
    (rowText row.2).length = (rowText (rowInfo vm)).length := by
  have hbounds := (genConfVm_spec h).bounds hs
  obtain ⟨ramName, flashName, -, -, -, -, -, hramName, hram, -, hflashName, hflash, -, -, -, -, -,
    haddr, -⟩ := genConfVm_eq_ok h
  have hram : (rowInfo vm).ramSize = row.2.ramSize := by
    rw [rowInfo, hramName]
    exact (lookupSize_eq_ok.mp hram).1
  have hflash : (rowInfo vm).flashSize = row.2.flashSize := by
    rw [rowInfo, hflashName]
    exact (lookupSize_eq_ok.mp hflash).1
  have hlen : (hex (BitVec.ofNat 32 row.2.addressStart)).length = 10 := by
    rw [haddr]
    exact length_hex_eq (by omega) (by omega)
  have hfirst : 16 ^ 7 ≤ vmsFlashIntermediateBaseAddress ∧
      vmsFlashIntermediateBaseAddress < 16 ^ 8 := by decide
  have hlen' : (hex (BitVec.ofNat 32 (rowInfo vm).addressStart)).length = 10 :=
    length_hex_eq hfirst.1 hfirst.2
  simp only [rowText, List.length_append, hram, hflash, hlen, hlen']

theorem rowFits_iff (hs : GenInv s) (h : genConfVm s vm = .ok (row, next)) (name : List UInt8) :
    CatFits strsz 0 (rowParts name row.2) ↔ CatFits strsz 0 (rowParts name (rowInfo vm)) := by
  apply catFits_congr
  simp only [rowParts, List.map_cons, List.map_nil, length_rowText hs h]

end Row

/-! ## Lines with names -/

/-- The arrays of `main` and `gen_conf_vms` have their sizes; `app_list` holds the names `t` and
`vms_info` the rows `u`. -/
structure Held (l : Strings) (t u : List UInt8) : Prop where
  appList : l.appList.HoldsText t
  vmsInfo : l.vmsInfo.HoldsText u
  appListSize : l.appList.size = strsz
  vmsInfoSize : l.vmsInfo.size = largestr
  appNameSize : l.appName.size = strsz
  strSize : l.str.size = strsz
  auxstrSize : l.auxstr.size = strsz

section Lines

variable {l : Strings} {t u name : List UInt8} {b : Buffer} {lines : List (List (List UInt8))}
  {vm : VmSetting} {os : String}

theorem linesStrings_some (hb : b.size = strsz) (hnul : ∀ line ∈ lines, ∀ c ∈ line, 0 ∉ c)
    (hfits : ∀ line ∈ lines, CatFits strsz 0 line) :
    ∃ b', linesStrings b lines = some b' ∧ b'.size = strsz := by
  induction lines generalizing b with
  | nil => exact ⟨b, rfl, hb⟩
  | cons line lines ih =>
    rw [List.forall_mem_cons] at hnul hfits
    obtain ⟨b₁, hcat, hb₁, -⟩ := stringsCat_spec strsz_pos strsz_le hb hnul.1 hfits.1
    rw [linesStrings, hcat, Option.bind_some]
    exact ih hb₁ hnul.2 hfits.2

theorem linesStrings_none (hb : b.size = strsz) (hnul : ∀ line ∈ lines, ∀ c ∈ line, 0 ∉ c)
    (hfits : ¬ ∀ line ∈ lines, CatFits strsz 0 line) : linesStrings b lines = none := by
  induction lines generalizing b with
  | nil => exact absurd (fun line h => absurd h List.not_mem_nil) hfits
  | cons line lines ih =>
    rw [List.forall_mem_cons] at hnul hfits
    rw [linesStrings]
    by_cases hline : CatFits strsz 0 line
    · obtain ⟨b₁, hcat, hb₁, -⟩ := stringsCat_spec strsz_pos strsz_le hb hnul.1 hline
      rw [hcat, Option.bind_some]
      exact ih hb₁ hnul.2 fun hrest => hfits ⟨hline, hrest⟩
    · rw [stringsCat_none strsz_pos strsz_le hb hnul.1 hline]
      rfl

theorem deviceLines_nul (devices : List String) :
    ∀ line ∈ deviceLines devices, ∀ c ∈ line, 0 ∉ c := by
  intro line hline
  obtain ⟨device, -, hline⟩ := List.mem_flatMap.mp hline
  rw [List.mem_pair] at hline
  rcases hline with rfl | rfl
  · exact three_nul (cstr_nul _) (cstr_nul _) (cstr_nul _)
  · exact three_nul (cstr_nul _) (cstr_nul _) (cstr_nul _)

/-- A blank and the name go to `app_list`, whose end `strncat` looks for; the bound it is given
counts from there. -/
theorem nameStrings_some (hl : Held l t u) (hname : 0 ∉ name) (hfits : NameFits t name) :
    ∃ l', nameStrings l name = some l' ∧ Held l' (t ++ name ++ cstr " ") u ∧
      l'.appName.HoldsText name := by
  obtain ⟨hlt, hline⟩ := hfits
  have hblank : (cstr " ").length = 1 := rfl
  have htake : name.take strsz = name := List.take_of_length_le (by omega)
  obtain ⟨b₁, h₁, hs₁, ht₁⟩ := strcat_spec hl.appList hname (by rw [hl.appListSize]; omega)
  obtain ⟨b₂, h₂, hs₂, ht₂⟩ := strcat_spec ht₁ (cstr_nul " ")
    (by rw [hs₁, hl.appListSize, List.length_append]; omega)
  obtain ⟨b₃, h₃, hs₃, ht₃⟩ := strncpy_spec (b := l.appName) (n := strsz) hname
    (Nat.le_of_eq hl.appNameSize.symm) (by omega)
  obtain ⟨b₄, h₄, hs₄, -⟩ := stringsCat_spec strsz_pos strsz_le hl.strSize
    (three_nul (cstr_nul _) hname (cstr_nul _)) hline
  refine ⟨{ l with appList := b₂, appName := b₃, str := b₄ }, ?_, ?_, ht₃⟩
  · rw [nameStrings, strncat_eq, htake]
    refine bind_some_of h₁ ?_
    refine bind_some_of h₂ ?_
    refine bind_some_of h₃ ?_
    refine bind_some_of ht₃.text_eq ?_
    exact bind_some_of h₄ rfl
  · exact ⟨ht₂, hl.vmsInfo, hs₂.trans (hs₁.trans hl.appListSize), hl.vmsInfoSize,
      hs₃.trans hl.appNameSize, hs₄, hl.auxstrSize⟩

theorem nameStrings_none (hl : Held l t u) (hname : 0 ∉ name) (hfits : ¬ NameFits t name) :
    nameStrings l name = none := by
  have hblank : (cstr " ").length = 1 := rfl
  by_cases hroom : t.length + (name.take strsz).length < strsz
  · have htake : name.take strsz = name := List.take_of_length_le (by
      rw [List.length_take] at hroom
      omega)
    rw [htake] at hroom
    obtain ⟨b₁, h₁, hs₁, ht₁⟩ := strcat_spec hl.appList hname (by rw [hl.appListSize]; omega)
    rw [nameStrings, strncat_eq, htake]
    refine bind_some_of h₁ ?_
    by_cases hlt : t.length + name.length + 1 < strsz
    · obtain ⟨b₂, h₂, -⟩ := strcat_spec ht₁ (cstr_nul " ")
        (by rw [hs₁, hl.appListSize, List.length_append]; omega)
      obtain ⟨b₃, h₃, -, ht₃⟩ := strncpy_spec (b := l.appName) (n := strsz) hname
        (Nat.le_of_eq hl.appNameSize.symm) (by omega)
      refine bind_some_of h₂ ?_
      refine bind_some_of h₃ ?_
      refine bind_some_of ht₃.text_eq ?_
      exact bind_none_of (stringsCat_none strsz_pos strsz_le hl.strSize
        (three_nul (cstr_nul _) hname (cstr_nul _)) fun hline => hfits ⟨hlt, hline⟩)
    · -- no room for the blank
      exact bind_none_of (strcat_none (s := cstr " ") ht₁
        (by rw [hs₁, hl.appListSize, List.length_append]; omega))
  · exact bind_none_of (strcat_none hl.appList (by rw [hl.appListSize]; omega))

/-- A number between two strings. -/
theorem around_nul (before after : String) {v : List UInt8} (hv : 0 ∉ v) :
    0 ∉ cstr before ++ v ++ cstr after :=
  append_nul (append_nul (cstr_nul before) hv) (cstr_nul after)

theorem settingStrings_some (hl : Held l t u) (hfits : SettingFits os vm.deviceMapping) :
    ∃ l', settingStrings l os vm = some l' ∧ Held l' t u ∧ l'.appName = l.appName := by
  obtain ⟨b₁, h₁, hs₁, -⟩ := stringsCat_spec strsz_pos strsz_le hl.strSize
    (three_nul (cstr_nul _) (cstr_nul _) (cstr_nul _)) hfits.1
  obtain ⟨b₂, h₂, hs₂, -⟩ := snprintf_line hs₁
    (around_nul "\t\tdevices_mapping_sz: " ",\n" (decimal_nul _))
  obtain ⟨b₃, h₃, hs₃⟩ := linesStrings_some hs₂ (deviceLines_nul vm.deviceMapping) hfits.2
  obtain ⟨b₄, h₄, hs₄, -⟩ := snprintf_line hs₃
    (around_nul "\t\tfast_int_sz: " ",\n" (decimal_nul _))
  obtain ⟨b₅, h₅, hs₅, -⟩ := snprintf_line hs₄
    (around_nul "\t\tinterrupt_redirect_sz: " ",\n" (decimal_nul _))
  obtain ⟨b₆, h₆, hs₆, -⟩ := snprintf_line hl.auxstrSize
    (around_nul "\t\tnum_tlb_entries: " ",\n" (hex_nul _))
  refine ⟨{ l with str := b₅, auxstr := b₆ }, ?_, ?_, rfl⟩
  · rw [settingStrings]
    refine bind_some_of h₁ ?_
    refine bind_some_of h₂ ?_
    refine bind_some_of h₃ ?_
    refine bind_some_of h₄ ?_
    refine bind_some_of h₅ ?_
    exact bind_some_of h₆ rfl
  · exact ⟨hl.appList, hl.vmsInfo, hl.appListSize, hl.vmsInfoSize, hl.appNameSize, hs₅, hs₆⟩

theorem settingStrings_none (hl : Held l t u) (hfits : ¬ SettingFits os vm.deviceMapping) :
    settingStrings l os vm = none := by
  rw [settingStrings]
  by_cases hos : CatFits strsz 0 (osParts os)
  · obtain ⟨b₁, h₁, hs₁, -⟩ := stringsCat_spec strsz_pos strsz_le hl.strSize
      (three_nul (cstr_nul _) (cstr_nul _) (cstr_nul _)) hos
    obtain ⟨b₂, h₂, hs₂, -⟩ := snprintf_line hs₁
      (around_nul "\t\tdevices_mapping_sz: " ",\n" (decimal_nul _))
    refine bind_some_of h₁ ?_
    refine bind_some_of h₂ ?_
    exact bind_none_of (linesStrings_none hs₂ (deviceLines_nul vm.deviceMapping)
      fun hdevices => hfits ⟨hos, hdevices⟩)
  · exact bind_none_of (stringsCat_none strsz_pos strsz_le hl.strSize
      (three_nul (cstr_nul _) (cstr_nul _) (cstr_nul _)) hos)

/-- The row is the only line of `infoStrings` that a name is in. -/
theorem infoStrings_eq (hl : Held l t u) (happ : l.appName.HoldsText name) (row : VmConf × VmInfo) :
    ∃ auxstr, auxstr.size = strsz ∧ infoStrings l row =
      (stringsCat l.str strsz (rowParts name row.2)).bind fun str => str.text.bind fun line =>
        (strcat l.vmsInfo line).bind fun vmsInfo =>
          some { l with vmsInfo := vmsInfo, str := str, auxstr := auxstr } := by
  obtain ⟨b₁, h₁, hs₁, -⟩ := snprintf_line hl.auxstrSize
    (around_nul "\t\tram_base: " ",\n" (hex_nul (BitVec.ofNat 32 row.1.ramBase)))
  obtain ⟨b₂, h₂, hs₂, -⟩ := snprintf_line hs₁
    (around_nul "\t\tflash_size: " ",\n" (hex_nul (BitVec.ofNat 32 row.1.flashSize)))
  obtain ⟨b₃, h₃, hs₃, -⟩ := snprintf_line hs₂
    (around_nul "\t\tflash_base_add: " "\n" (hex_nul (BitVec.ofNat 32 row.1.flashBaseAdd)))
  obtain ⟨b₄, h₄, hs₄, ht₄⟩ := snprintf_line hs₃ (rowText_nul row.2)
  have hrow : (rowText row.2).length ≤ strsz - 1 := Nat.le_pred_of_lt (length_rowText_lt row.2)
  rw [List.take_of_length_le hrow] at ht₄
  refine ⟨b₄, hs₄, ?_⟩
  rw [infoStrings]
  refine bind_some_of h₁ ?_
  refine bind_some_of h₂ ?_
  refine bind_some_of h₃ ?_
  refine bind_some_of h₄ ?_
  refine bind_some_of happ.text_eq ?_
  exact bind_some_of ht₄.text_eq rfl

theorem rowParts_nul (hname : 0 ∉ name) (info : VmInfo) : ∀ c ∈ rowParts name info, 0 ∉ c :=
  three_nul hname (cstr_nul _) (rowText_nul info)

/-- Some row of at most 127 characters goes to `vms_info`. -/
theorem infoStrings_some (hl : Held l t u) (happ : l.appName.HoldsText name)
    (hroom : u.length + 127 < largestr) {row : VmConf × VmInfo}
    (hfits : CatFits strsz 0 (rowParts name row.2)) :
    ∃ l' line, infoStrings l row = some l' ∧ Held l' t (u ++ line) ∧ line.length ≤ 127 ∧
      l'.appName.HoldsText name ∧ l'.str.HoldsText line := by
  obtain ⟨auxstr, haux, heq⟩ := infoStrings_eq hl happ row
  have hnul := rowParts_nul happ.nul row.2
  obtain ⟨b₁, h₁, hs₁, ht₁⟩ := stringsCat_spec strsz_pos strsz_le hl.strSize hnul hfits
  have hlen : 0 + (catText strsz 0 (rowParts name row.2)).length < strsz :=
    length_catText_le strsz_pos
  have hsz : strsz = 128 := rfl
  obtain ⟨b₂, h₂, hs₂, ht₂⟩ := strcat_spec hl.vmsInfo ht₁.nul (by rw [hl.vmsInfoSize]; omega)
  refine ⟨{ l with vmsInfo := b₂, str := b₁, auxstr := auxstr }, _, ?_, ?_, by omega, happ, ht₁⟩
  · rw [heq, h₁, Option.bind_some, ht₁.text_eq, Option.bind_some, h₂, Option.bind_some]
  · exact ⟨hl.appList, ht₂, hl.appListSize, hs₂.trans hl.vmsInfoSize, hl.appNameSize, hs₁, haux⟩

theorem infoStrings_none (hl : Held l t u) (happ : l.appName.HoldsText name)
    {row : VmConf × VmInfo} (hfits : ¬ CatFits strsz 0 (rowParts name row.2)) :
    infoStrings l row = none := by
  obtain ⟨auxstr, -, heq⟩ := infoStrings_eq hl happ row
  rw [heq, stringsCat_none strsz_pos strsz_le hl.strSize (rowParts_nul happ.nul row.2) hfits]
  rfl

end Lines

/-! ## The VMs -/

/-- What holds between two iterations: `vms_info` has got half a row for each TLB entry at most. -/
structure LoopInv (s : GenState) (l : Strings) (t : List UInt8) : Prop where
  gen : GenInv s
  held : ∃ u, Held l t u ∧ 2 * u.length ≤ 92 + 127 * s.totalTlbEntries

/-- `app_name` and `str` have been written. -/
def Named (l : Strings) : Prop :=
  (∃ name, l.appName.HoldsText name) ∧ ∃ line, l.str.HoldsText line

section Vms

variable {junk : Nat → UInt8} {s next : GenState} {l l' : Strings} {t : List UInt8}
  {vm : VmSetting} {row : VmConf × VmInfo} {app os : String} {used : Nat}
  {P : Nat → List UInt8 → Prop}

theorem vmFits_of_appName (happ : vm.appName = none) : VmFits used t vm P := by
  intro name hname
  rw [happ] at hname
  cases hname

theorem vmFits_of_osType (happ : vm.appName = some app) (hos : vm.osType = none)
    (hfits : NameFits t (cstr app)) : VmFits used t vm P := by
  intro name hname
  rw [happ] at hname
  obtain rfl := Option.some.inj hname
  refine ⟨hfits, fun osType hosType => ?_⟩
  rw [hos] at hosType
  cases hosType

theorem vmFits_iff (happ : vm.appName = some app) (hos : vm.osType = some os) :
    VmFits used t vm P ↔ NameFits t (cstr app) ∧ SettingFits os vm.deviceMapping ∧
      (Passes used vm → CatFits strsz 0 (rowParts (cstr app) (rowInfo vm)) ∧
        P (used + (vm.memoryMaps.length + 2)) (t ++ cstr app ++ cstr " ")) := by
  constructor
  · intro h
    exact ⟨(h app happ).1, (h app happ).2 os hos⟩
  · rintro ⟨hname, hset, hrest⟩ name hname'
    rw [happ] at hname'
    obtain rfl := Option.some.inj hname'
    refine ⟨hname, fun osType hosType => ?_⟩
    rw [hos] at hosType
    obtain rfl := Option.some.inj hosType
    exact ⟨hset, hrest⟩

/-- The TLB entries run out before `vms_info` is full. -/
theorem vmsInfo_room {u : List UInt8}
    (hu : 2 * u.length ≤ 92 + 127 * s.totalTlbEntries) (hnext : GenInv next)
    (hentries : s.totalTlbEntries + 2 ≤ next.totalTlbEntries) : u.length + 127 < largestr := by
  have htotal := hnext.total_le
  simp only [totalTlbEntriesMax] at htotal
  rw [largestr]
  omega

/-- The last part of an iteration, when the VM has passed. -/
theorem genConfVmStrings_row (hs : GenInv s) {u : List UInt8} (hl : Held l t u)
    (hu : 2 * u.length ≤ 92 + 127 * s.totalTlbEntries) {name : List UInt8}
    (happ : l.appName.HoldsText name) (h : genConfVm s vm = .ok (row, next)) :
    next.totalTlbEntries = s.totalTlbEntries + (vm.memoryMaps.length + 2) ∧
    (CatFits strsz 0 (rowParts name (rowInfo vm)) → ∃ l', infoStrings l row = some l' ∧
      LoopInv next l' t ∧ l'.appName.HoldsText name ∧ ∃ line, l'.str.HoldsText line) ∧
    (¬ CatFits strsz 0 (rowParts name (rowInfo vm)) → infoStrings l row = none) := by
  have hacc := genConfVm_spec h
  have hnext := (hacc.next_spec hs).2.2
  have hentries : next.totalTlbEntries = s.totalTlbEntries + (vm.memoryMaps.length + 2) := by
    rw [hacc.entries_next, hacc.num_eq]
  refine ⟨hentries, ?_, ?_⟩
  · intro hfits
    have hroom := vmsInfo_room hu hnext (by omega)
    obtain ⟨l', line, hinfo, hl', hline, happ', hstr⟩ :=
      infoStrings_some hl happ hroom ((rowFits_iff hs h name).mpr hfits)
    refine ⟨l', hinfo, ⟨hnext, u ++ line, hl', ?_⟩, happ', line, hstr⟩
    rw [List.length_append, hentries]
    omega
  · intro hfits
    exact infoStrings_none hl happ fun hrow => hfits ((rowFits_iff hs h name).mp hrow)

/-- An iteration stops, writes outside, or goes on with the name in `app_list`. -/
theorem genConfVmStrings_cases (junk : Nat → UInt8) (h : LoopInv s l t) (n : Nat) (vm : VmSetting) :
    (∃ e, genConfVmStrings junk s n l vm = some (.error e) ∧
      ∀ P, VmFits s.totalTlbEntries t vm P) ∨
    (genConfVmStrings junk s n l vm = none ∧ ∀ P, ¬ VmFits s.totalTlbEntries t vm P) ∨
    ∃ s' l' t', genConfVmStrings junk s n l vm = some (.ok (s', l')) ∧ LoopInv s' l' t' ∧
      Named l' ∧ ∀ P, VmFits s.totalTlbEntries t vm P ↔ P s'.totalTlbEntries t' := by
  obtain ⟨hgen, u, hl, hu⟩ := h
  obtain ⟨b, hb, hsb, -⟩ := snprintf_line hl.strSize
    (around_nul "\t\x7b /* VM#" " */\n" (decimal_nul (BitVec.ofNat 32 n)))
  have hl₀ : Held { l with str := b } t u :=
    ⟨hl.appList, hl.vmsInfo, hl.appListSize, hl.vmsInfoSize, hl.appNameSize, hsb, hl.auxstrSize⟩
  rw [genConfVmStrings, count, hb, Option.bind_some]
  cases happ : vm.appName with
  | none => exact .inl ⟨_, rfl, fun P => vmFits_of_appName happ⟩
  | some app =>
  rw [lookup_some, orStop]
  by_cases hname : NameFits t (cstr app)
  swap
  · refine .inr (.inl ⟨?_, fun P hfits => hname (hfits app happ).1⟩)
    rw [nameStrings_none hl₀ (cstr_nul app) hname]
    rfl
  obtain ⟨l₁, h₁, hl₁, happ₁⟩ := nameStrings_some hl₀ (cstr_nul app) hname
  rw [h₁, Option.bind_some]
  cases hos : vm.osType with
  | none => exact .inl ⟨_, rfl, fun P => vmFits_of_osType happ hos hname⟩
  | some os =>
  rw [lookup_some, orStop]
  by_cases hset : SettingFits os vm.deviceMapping
  swap
  · refine .inr (.inl ⟨?_, fun P hfits => hset ((vmFits_iff happ hos).mp hfits).2.1⟩)
    rw [settingStrings_none hl₁ hset]
    rfl
  obtain ⟨l₂, h₂, hl₂, happ₂⟩ := settingStrings_some hl₁ hset
  rw [← happ₂] at happ₁
  rw [h₂, Option.bind_some, mapStrings_eq happ hos, Option.bind_some]
  cases hrow : genConfVm s vm with
  | error e =>
    refine .inl ⟨e, rfl, fun P => (vmFits_iff happ hos).mpr ⟨hname, hset, fun hpass => ?_⟩⟩
    obtain ⟨r, hr⟩ := (genConfVm_ok_iff happ hos).mpr hpass
    rw [hrow] at hr
    cases hr
  | ok r =>
  obtain ⟨row, next⟩ := r
  have hpass := (genConfVm_ok_iff happ hos).mp ⟨_, hrow⟩
  obtain ⟨hentries, hsome, hnone⟩ := genConfVmStrings_row hgen hl₂ hu happ₁ hrow
  rw [orStop]
  by_cases hfits : CatFits strsz 0 (rowParts (cstr app) (rowInfo vm))
  · obtain ⟨l₃, h₃, hinv, happ₃, hstr⟩ := hsome hfits
    refine .inr (.inr ⟨next, l₃, _, ?_, hinv, ⟨⟨_, happ₃⟩, hstr⟩, fun P => ?_⟩)
    · rw [h₃, Option.map_some]
    · rw [vmFits_iff happ hos, hentries]
      exact ⟨fun h => (h.2.2 hpass).2, fun h => ⟨hname, hset, fun _ => ⟨hfits, h⟩⟩⟩
  · refine .inr (.inl ⟨?_, fun P h => hfits (((vmFits_iff happ hos).mp h).2.2 hpass).1⟩)
    rw [hnone hfits, Option.map_none]

theorem numberLine_some (label tail : String)
    (hlen : (cstr label).length + (cstr tail).length ≤ 100) (value : Option (BitVec 32))
    {b : Buffer × Buffer} (hb : b.1.size = strsz) (hb' : b.2.size = strsz) :
    ∃ r, numberLine label tail value b = some r ∧ r.1.size = strsz ∧ r.2.size = strsz := by
  cases value with
  | none => exact ⟨b, rfl, hb, hb'⟩
  | some v =>
    have hnum := length_decimal_le v
    have hsz : strsz = 128 := rfl
    obtain ⟨auxstr, h₁, hs₁, ht₁⟩ := snprintf_line hb' (decimal_nul v)
    rw [List.take_of_length_le (by omega)] at ht₁
    obtain ⟨str, h₂, hs₂⟩ := stringsCat_three hb (cstr_nul label) (decimal_nul v) (cstr_nul tail)
      (by omega)
    refine ⟨(str, auxstr), ?_, hs₂, hs₁⟩
    rw [numberLine]
    refine bind_some_of h₁ ?_
    refine bind_some_of ht₁.text_eq ?_
    exact bind_some_of h₂ rfl

theorem numberStrings_some {b : Buffer} (hb : b.HoldsText t)
    (hfits : CatFits strsz 0 (appListParts t)) (vmCount : Nat) :
    numberStrings junk vmCount b = some () := by
  have hempty : (array junk).size = strsz := rfl
  obtain ⟨str, h₁, hs₁, -⟩ := stringsCat_spec strsz_pos strsz_le hempty
    (three_nul (cstr_nul _) hb.nul (cstr_nul _)) hfits
  obtain ⟨r, h₂, -⟩ := numberLine_some "#define NVMACHINES " "\n" (by decide)
    (some (BitVec.ofNat 32 vmCount)) (b := (str, array junk)) hs₁ rfl
  rw [numberStrings]
  refine bind_some_of hb.text_eq ?_
  refine bind_some_of h₁ ?_
  exact bind_some_of h₂ rfl

theorem numberStrings_none {b : Buffer} (hb : b.HoldsText t)
    (hfits : ¬ CatFits strsz 0 (appListParts t)) (vmCount : Nat) :
    numberStrings junk vmCount b = none := by
  rw [numberStrings]
  refine bind_some_of hb.text_eq ?_
  exact bind_none_of (stringsCat_none strsz_pos strsz_le rfl
    (three_nul (cstr_nul _) hb.nul (cstr_nul _)) hfits)

/-- The loop and what follows it. -/
theorem genConfLoopStrings_some (junk : Nat → UInt8) {vms : List VmSetting} (h : LoopInv s l t)
    (hfits : VmsFit s.totalTlbEntries t vms) (n vmCount : Nat) :
    ∃ r, (genConfLoopStrings junk s n l vms).bind (finishStrings junk vmCount) = some r ∧
      ∀ l', r = .ok l' → (∃ t' u', Held l' t' u') ∧ (vms ≠ [] ∨ Named l → Named l') := by
  induction vms generalizing s l t n with
  | nil =>
    obtain ⟨-, u, hl, -⟩ := h
    refine ⟨.ok l, ?_, ?_⟩
    · rw [genConfLoopStrings, Option.bind_some, finishStrings]
      exact congrArg (Option.map _) (numberStrings_some hl.appList hfits vmCount)
    · intro l' hl'
      obtain rfl := Except.ok.inj hl'
      exact ⟨⟨t, u, hl⟩, fun hor => hor.resolve_left fun hne => hne rfl⟩
  | cons vm vms ih =>
    rw [genConfLoopStrings]
    rcases genConfVmStrings_cases junk h n vm with
      ⟨e, hstop, -⟩ | ⟨-, hout⟩ | ⟨s', l₁, t', hgo, hinv, hnamed, hiff⟩
    · rw [hstop]
      refine ⟨.error (.vms e), rfl, ?_⟩
      intro l' hl'
      cases hl'
    · exact absurd hfits (hout _)
    · obtain ⟨r, hr, hend⟩ := ih hinv ((hiff _).mp hfits) (n + 1)
      refine ⟨r, ?_, fun l' hl' => ⟨(hend l' hl').1, fun _ => (hend l' hl').2 (.inr hnamed)⟩⟩
      rw [hgo, Option.bind_some, orStop]
      exact hr

theorem genConfLoopStrings_none {vms : List VmSetting} (h : LoopInv s l t)
    (hfits : ¬ VmsFit s.totalTlbEntries t vms) (n vmCount : Nat) :
    (genConfLoopStrings junk s n l vms).bind (finishStrings junk vmCount) = none := by
  induction vms generalizing s l t n with
  | nil =>
    obtain ⟨-, u, hl, -⟩ := h
    rw [genConfLoopStrings, Option.bind_some, finishStrings]
    exact congrArg (Option.map _) (numberStrings_none hl.appList hfits vmCount)
  | cons vm vms ih =>
    rw [genConfLoopStrings]
    rcases genConfVmStrings_cases junk h n vm with
      ⟨e, -, hstop⟩ | ⟨hout, -⟩ | ⟨s', l₁, t', hgo, hinv, -, hiff⟩
    · exact absurd (hstop _) hfits
    · rw [hout]
      rfl
    · rw [hgo, Option.bind_some, orStop]
      exact ih hinv (fun hrest => hfits ((hiff _).mpr hrest)) (n + 1)

end Vms

/-! ## The program -/

section Program

variable {junk : Nat → UInt8} {cfg : CfgSetting}

theorem defineParts_nul (flags : List (Option String)) :
    ∀ line ∈ flags.map defineParts, ∀ c ∈ line, 0 ∉ c := by
  intro line hline
  obtain ⟨flag, -, rfl⟩ := List.mem_map.mp hline
  cases flag with
  | none =>
    intro c hc
    rw [List.mem_singleton.mp hc]
    exact cstr_nul _
  | some f => exact three_nul (cstr_nul _) (cstr_nul _) (cstr_nul _)

theorem milisecondParts_nul : ∀ c ∈ milisecondParts, 0 ∉ c := by decide

theorem milisecondParts_fit : CatFits strsz 0 milisecondParts := catFits_of_lt (by decide)

theorem systemStrings_eq (hfits : ∀ flag ∈ cfg.debug, CatFits strsz 0 (defineParts flag)) :
    systemStrings junk cfg = some (checkQuantum cfg.schedulerQuantumMs) := by
  obtain ⟨b₁, h₁, hs₁⟩ := linesStrings_some (b := array junk) rfl (defineParts_nul cfg.debug)
    (List.forall_mem_map.mpr hfits)
  obtain ⟨b₂, h₂, hs₂, -⟩ := stringsCat_spec strsz_pos strsz_le hs₁ milisecondParts_nul
    milisecondParts_fit
  obtain ⟨l₁, h₃, hs₃, hs₃'⟩ := numberLine_some "#define UART_SPEED " "\n" (by decide) cfg.uartSpeed
    (b := (b₂, array junk)) hs₂ rfl
  obtain ⟨l₂, h₄, hs₄, hs₄'⟩ := numberLine_some "#define QUANTUM_SCHEDULER_MS " " \n" (by decide)
    cfg.schedulerQuantumMs hs₃ hs₃'
  obtain ⟨l₃, h₅, -⟩ := numberLine_some "#define GUEST_QUANTUM_MS " " \n" (by decide)
    cfg.guestQuantumMs hs₄ hs₄'
  rw [systemStrings]
  refine bind_some_of h₁ ?_
  refine bind_some_of h₂ ?_
  refine bind_some_of h₃ ?_
  cases checkQuantum cfg.schedulerQuantumMs with
  | error e => rfl
  | ok _ =>
    refine bind_some_of h₄ ?_
    exact bind_some_of h₅ rfl

theorem systemStrings_none (hfits : ¬ ∀ flag ∈ cfg.debug, CatFits strsz 0 (defineParts flag)) :
    systemStrings junk cfg = none := by
  rw [systemStrings]
  exact bind_none_of (linesStrings_none rfl (defineParts_nul cfg.debug)
    fun hlines => hfits (List.forall_mem_map.mp hlines))

/-- The loop starts with an empty list of names and the header of `vms_info`. -/
theorem loopInv_init (junk : Nat → UInt8) : ∃ appList vmsInfo,
    strcpy (array junk) [] = some appList ∧
    strcpy ⟨largestr, junk⟩ (cstr "VM name \tflash_size \tram_size \t address_start\n") =
      some vmsInfo ∧
    LoopInv {} ⟨appList, vmsInfo, array junk, array junk, array junk⟩ [] := by
  have hheader : (cstr "VM name \tflash_size \tram_size \t address_start\n").length = 46 := by
    decide
  have hlarge : largestr = 1024 := rfl
  obtain ⟨appList, h₁, hs₁, ht₁⟩ := strcpy_spec (b := array junk) (s := []) List.not_mem_nil
    strsz_pos
  obtain ⟨vmsInfo, h₂, hs₂, ht₂⟩ := strcpy_spec (b := ⟨largestr, junk⟩)
    (cstr_nul "VM name \tflash_size \tram_size \t address_start\n") (by dsimp only; omega)
  refine ⟨appList, vmsInfo, h₁, h₂, genInv_init, _, ⟨ht₁, ht₂, hs₁, hs₂, rfl, rfl, rfl⟩, ?_⟩
  rw [hheader]
  decide

theorem genconf_some (junk : Nat → UInt8) (hfits : Fits cfg) : ∃ r, genconf junk cfg = some r ∧
    ∀ l, r = .ok l → Terminated (cfg.virtualMachines.getD []) l := by
  obtain ⟨hdebug, hvms⟩ := hfits
  obtain ⟨appList, vmsInfo, h₁, h₂, hinv⟩ := loopInv_init junk
  rw [genconf, systemStrings_eq hdebug, Option.bind_some]
  cases hquantum : checkQuantum cfg.schedulerQuantumMs with
  | error e =>
    refine ⟨.error e, rfl, ?_⟩
    intro l hl
    cases hl
  | ok _ =>
    rw [orStop, genConfVmsStrings, h₁, Option.bind_some, h₂, Option.bind_some]
    cases hset : cfg.virtualMachines with
    | none =>
      refine ⟨.error (.vms .missingVirtualMachines), rfl, ?_⟩
      intro l hl
      cases hl
    | some vms =>
      rw [lookup_some, orStop]
      obtain ⟨r, hr, hend⟩ := genConfLoopStrings_some junk hinv (hvms hquantum vms hset) 1
        vms.length
      refine ⟨r, hr, ?_⟩
      intro l hl
      obtain ⟨⟨t, u, hheld⟩, hnamed⟩ := hend l hl
      exact ⟨⟨hheld.appListSize, t, hheld.appList⟩, ⟨hheld.vmsInfoSize, u, hheld.vmsInfo⟩,
        ⟨hheld.appNameSize, fun hne => (hnamed (.inl hne)).1⟩,
        ⟨hheld.strSize, fun hne => (hnamed (.inl hne)).2⟩⟩

theorem genconf_none (junk : Nat → UInt8) (hfits : ¬ Fits cfg) : genconf junk cfg = none := by
  rw [genconf]
  by_cases hdebug : ∀ flag ∈ cfg.debug, CatFits strsz 0 (defineParts flag)
  · obtain ⟨appList, vmsInfo, h₁, h₂, hinv⟩ := loopInv_init junk
    rw [systemStrings_eq hdebug, Option.bind_some]
    have hrest : ¬ (checkQuantum cfg.schedulerQuantumMs = .ok () →
        ∀ vms, cfg.virtualMachines = some vms → VmsFit 0 [] vms) := fun h => hfits ⟨hdebug, h⟩
    push Not at hrest
    obtain ⟨hquantum, vms, hset, hvms⟩ := hrest
    rw [hquantum, orStop, genConfVmsStrings, h₁, Option.bind_some, h₂, Option.bind_some, hset,
      lookup_some, orStop]
    exact genConfLoopStrings_none hinv hvms 1 vms.length
  · rw [systemStrings_none hdebug]
    rfl

theorem genconf_isSome_iff (junk : Nat → UInt8) : (genconf junk cfg).isSome = true ↔ Fits cfg := by
  constructor
  · intro hsome
    by_contra hfits
    rw [genconf_none junk hfits] at hsome
    cases hsome
  · intro hfits
    obtain ⟨r, hr, -⟩ := genconf_some junk hfits
    rw [hr]
    rfl

/-- When the arrays of the generator suffice, and when an array suffices for `strings_cat`. -/
theorem genconf_fits_iff (junk : Nat → UInt8) (cfg : CfgSetting) :
    ((∃ r, genconf junk cfg = some r ∧
      ∀ l, r = .ok l → Terminated (cfg.virtualMachines.getD []) l) ↔ Fits cfg) ∧
    ∀ (dest : Buffer) (size : Nat) (args : List (List UInt8)), 0 < size → size < 2 ^ 31 →
      dest.size = size → (∀ c ∈ args, 0 ∉ c) →
      ((∃ dest' t, stringsCat dest size args = some dest' ∧ dest'.HoldsText t) ↔
        CatFits size 0 args) ∧
      (args.flatten.length < size → ∃ dest', stringsCat dest size args = some dest' ∧
        dest'.HoldsText args.flatten) := by
  refine ⟨⟨?_, genconf_some junk⟩, ?_⟩
  · rintro ⟨r, hr, -⟩
    exact (genconf_isSome_iff junk).mp (by rw [hr]; rfl)
  · intro dest size args hpos hlt hsize hnul
    have hmax : size ≤ 2 ^ 31 := Nat.le_of_lt hlt
    refine ⟨⟨?_, fun hfits => ?_⟩, fun htotal => ?_⟩
    · rintro ⟨dest', t, hcat, -⟩
      by_contra hfits
      rw [stringsCat_none hpos hmax hsize hnul hfits] at hcat
      cases hcat
    · obtain ⟨dest', hcat, -, hheld⟩ := stringsCat_spec hpos hmax hsize hnul hfits
      exact ⟨dest', _, hcat, hheld⟩
    · have htotal : 0 + args.flatten.length < size := by rwa [Nat.zero_add]
      obtain ⟨dest', hcat, -, hheld⟩ := stringsCat_spec hpos hmax hsize hnul
        (catFits_of_lt htotal)
      rw [catText_of_lt htotal] at hheld
      exact ⟨dest', hcat, hheld⟩

end Program

/-- A cfg file with these VMs and nothing else. -/
def vmsOnly (vms : List VmSetting) : CfgSetting := ⟨[], none, none, none, some vms⟩

theorem fits_pingPong : Fits (vmsOnly pingPong) := by
  refine ⟨fun flag hflag => absurd hflag List.not_mem_nil, fun _ vms hvms => ?_⟩
  obtain rfl := Option.some.inj hvms
  refine (vmFits_iff rfl rfl).mpr ⟨by decide, by decide, fun _ => ⟨by decide +kernel, ?_⟩⟩
  refine (vmFits_iff rfl rfl).mpr ⟨by decide, by decide, fun _ => ⟨by decide +kernel, ?_⟩⟩
  exact catFits_of_lt (by decide)

theorem genconf_fits_pingPong :
    (∃ r, genconf (fun _ => 7) (vmsOnly pingPong) = some r ∧
      ∀ l, r = .ok l → Terminated pingPong l) ∧
    ∃ dest', stringsCat ⟨strsz, fun _ => 7⟩ strsz (osParts "BARE_METAL") = some dest' ∧
      dest'.HoldsText (cstr "\t\tos_type: BARE_METAL,\n") := by
  have hlaw := genconf_fits_iff (fun _ => 7) (vmsOnly pingPong)
  have hcat := hlaw.2 ⟨strsz, fun _ => 7⟩ strsz (osParts "BARE_METAL") strsz_pos (by decide) rfl
    (three_nul (cstr_nul _) (cstr_nul _) (cstr_nul _))
  exact ⟨hlaw.1.mpr fits_pingPong, hcat.2 (by decide)⟩

theorem cstr_ofList (cs : List Char) :
    cstr (String.ofList cs) = (cs.flatMap String.utf8EncodeChar).takeWhile (· != 0) := by
  rw [cstr, String.toList_ofList]

theorem not_fits_of_line {name size : String} (hline : ¬ CatFits strsz 0 (nameParts (cstr name))) :
    ¬ Fits (vmsOnly [bareVm name size]) := by
  intro hfits
  have hvm : VmsFit 0 [] [bareVm name size] := hfits.2 rfl _ rfl
  exact hline (hvm name rfl).1.2

/-- The line of a name of 113 characters fills `str`, and the NUL goes behind it. -/
theorem genconf_full_line : genconf (fun _ => 0) (vmsOnly
    [bareVm (String.ofList (List.replicate 113 'a')) "MEM_SIZE_32KB"]) = none :=
  genconf_none _ (not_fits_of_line (by rw [cstr_ofList]; decide +kernel))

end PrplHypervisor.Genconf
