import PrplHypervisor.Kernel.Partition

/-!
# The flash of the PUF driver (drivers/pic32mz-puf-flash.c)

The driver keeps one kilobyte of data at a fixed address in program flash, where
the images of the hypervisor and of the VMs are as well. Writing it erases the page
the data is said to start in and programs the kilobyte in quad words.

- `NVMErasePage`, `NVMWriteQuad`: the two operations of the flash controller, whose
  registers hold physical addresses.
- `flashWrite1Kbuffer_flash`: what the flash holds afterwards.
- `puf_flash_frame`: no image changes exactly if no VM's flash meets these two pages.
-/

namespace PrplHypervisor

open Genconf Word32 Layout

/-- A byte erase sets. -/
def erasedByte : UInt8 := 0xFF

/-- The flash, by physical address, and the registers of its controller. -/
structure Nvm where
  flash : Nat → UInt8
  nvmaddr : Nat
  nvmdata : Nat → Nat

def pageFlash : Nat := 0x9D017F80

/-- Bytes a page erase sets. -/
def nvmPageSize : Nat := 0x4000

namespace Nvm

/-- A page erase sets the whole page of `NVMADDR`. -/
def erased (s : Nvm) (a : Nat) : UInt8 :=
  if a / nvmPageSize = s.nvmaddr / nvmPageSize then erasedByte else s.flash a

/-- A quad-word program writes the four data registers at `NVMADDR`. -/
def programmed (s : Nvm) (a : Nat) : UInt8 :=
  if s.nvmaddr ≤ a ∧ a < s.nvmaddr + 16 then
    byteOfWord (s.nvmdata ((a - s.nvmaddr) / 4)) ((a - s.nvmaddr) % 4)
  else s.flash a

/-- Run the operation selected in `NVMCON`. -/
def NVMUnlock (s : Nvm) (nvmop : Nat) : Nvm :=
  match nvmop with
  | 0x4004 => { s with flash := s.erased }
  | 0x4002 => { s with flash := s.programmed }
  | _ => s

def NVMErasePage (s : Nvm) (address : Nat) : Nvm :=
  { s with nvmaddr := physical address }.NVMUnlock 0x4004

/-- `data` are the words at the source pointer. -/
def NVMWriteQuad (s : Nvm) (address : Nat) (data : Nat → Nat) : Nvm :=
  { s with nvmaddr := physical address, nvmdata := data }.NVMUnlock 0x4002

/-- The first `n` rounds of the loop of `flash_write1Kbuffer`. -/
def writeQuads (buffer : Nat → Nat) (s : Nvm) (n : Nat) : Nvm :=
  (List.range n).foldl
    (fun s k => s.NVMWriteQuad (pageFlash + 16 * k) fun j => buffer (4 * k + j)) s

/-- Write 256 words from `buffer`, four in each round. -/
def flashWrite1Kbuffer (s : Nvm) (buffer : Nat → Nat) : Nvm × Nat :=
  ((s.NVMErasePage pageFlash).writeQuads buffer 64, 1024)

/-! ## What is left in flash -/

theorem NVMWriteQuad_flash (s : Nvm) {address : Nat} (data : Nat → Nat) (a : Nat) :
    (s.NVMWriteQuad address data).flash a =
      if physical address ≤ a ∧ a < physical address + 16 then
        byteOfWord (data ((a - physical address) / 4)) ((a - physical address) % 4)
      else s.flash a := rfl

theorem NVMErasePage_flash (s : Nvm) (address a : Nat) :
    (s.NVMErasePage address).flash a =
      if a / nvmPageSize = physical address / nvmPageSize then erasedByte else s.flash a := rfl

/-- Each round programs the next 16 bytes. -/
theorem writeQuads_flash (buffer : Nat → Nat) (s : Nvm) (a : Nat) {n : Nat} (hn : n ≤ 64) :
    (s.writeQuads buffer n).flash a =
      if 0x1D017F80 ≤ a ∧ a < 0x1D017F80 + 16 * n then
        byteOfWord (buffer ((a - 0x1D017F80) / 4)) ((a - 0x1D017F80) % 4)
      else s.flash a := by
  induction n with
  | zero =>
    rw [if_neg (by omega)]
    rfl
  | succ n ih =>
    have haddr : physical (pageFlash + 16 * n) = 0x1D017F80 + 16 * n := by
      rw [physical_eq, pageFlash]
      omega
    have hstep : s.writeQuads buffer (n + 1) = (s.writeQuads buffer n).NVMWriteQuad
        (pageFlash + 16 * n) fun j => buffer (4 * n + j) := by
      rw [writeQuads, List.range_succ, List.foldl_append]
      rfl
    rw [hstep, NVMWriteQuad_flash, haddr, ih (by omega)]
    by_cases hlast : 0x1D017F80 + 16 * n ≤ a ∧ a < 0x1D017F80 + 16 * n + 16
    · -- the quad word of this round
      have hword : 4 * n + (a - (0x1D017F80 + 16 * n)) / 4 = (a - 0x1D017F80) / 4 := by omega
      have hbyte : (a - (0x1D017F80 + 16 * n)) % 4 = (a - 0x1D017F80) % 4 := by omega
      rw [if_pos hlast, if_pos (by omega), hword, hbyte]
    · rw [if_neg hlast]
      -- a byte of the rounds before, or none of the buffer
      by_cases hbefore : 0x1D017F80 ≤ a ∧ a < 0x1D017F80 + 16 * n
      · rw [if_pos hbefore, if_pos (by omega)]
      · rw [if_neg hbefore, if_neg (by omega)]

/-- The data at its place, and the rest of the page it starts in erased. -/
theorem flashWrite1Kbuffer_flash (s : Nvm) (buffer : Nat → Nat) (a : Nat) :
    (s.flashWrite1Kbuffer buffer).1.flash a =
      if 0x1D017F80 ≤ a ∧ a < 0x1D018380 then
        byteOfWord (buffer ((a - 0x1D017F80) / 4)) ((a - 0x1D017F80) % 4)
      else if 0x1D014000 ≤ a ∧ a < 0x1D018000 then erasedByte
      else s.flash a := by
  have hpage : a / nvmPageSize = physical pageFlash / nvmPageSize ↔
      0x1D014000 ≤ a ∧ a < 0x1D018000 := by
    rw [show physical pageFlash = 0x1D017F80 from rfl, nvmPageSize]
    omega
  rw [flashWrite1Kbuffer, writeQuads_flash _ _ _ le_rfl, NVMErasePage_flash]
  simp only [hpage]

end Nvm

/-- What a write touches: the page that is erased and the data, as kseg0 addresses. -/
def pufFlash : Region := ⟨0x9D014000, 0x4380⟩

/-- The write touches these bytes and no others. -/
theorem flashWrite1Kbuffer_frame (s : Nvm) (buffer : Nat → Nat) {a : Nat}
    (ha : 0x9D000000 ≤ a ∧ a < 0xA0000000) (hout : ¬ pufFlash.Contains a) :
    (s.flashWrite1Kbuffer buffer).1.flash (physical a) = s.flash (physical a) := by
  have hphys : physical a = a - 0x80000000 := by
    rw [physical_eq]
    omega
  simp only [Region.Contains, Region.stop, pufFlash] at hout
  rw [s.flashWrite1Kbuffer_flash, if_neg (by omega), if_neg (by omega)]

/-- Zeros written over a flash of ones are seen at every one of these bytes. -/
theorem flashWrite1Kbuffer_changes {a : Nat} (hin : pufFlash.Contains a) :
    ((⟨fun _ => 1, 0, fun _ => 0⟩ : Nvm).flashWrite1Kbuffer fun _ => 0).1.flash (physical a) ≠
      1 := by
  simp only [Region.Contains, Region.stop, pufFlash] at hin
  have hphys : physical a = a - 0x80000000 := by
    rw [physical_eq]
    omega
  rw [Nvm.flashWrite1Kbuffer_flash]
  split
  · simp [byteOfWord]
  · rw [if_pos (by omega)]
    decide

/-- **PUF flash writes stay out of executable images** exactly if no VM's flash has a
byte in the page that is erased or in the data. -/
theorem puf_flash_frame {vms : List VmSetting} {rows : List (VmConf × VmInfo)}
    (hacc : genConfVms (some vms) = .ok rows) :
    (∀ (s : Nvm) (buffer : Nat → Nat), ∀ r ∈ hypervisorFlash :: rows.map flashRegion,
      ∀ a, r.Contains a →
        (s.flashWrite1Kbuffer buffer).1.flash (physical a) = s.flash (physical a)) ↔
    ∀ row ∈ rows, (flashRegion row).Disjoint pufFlash := by
  constructor
  · intro hframe row hrow a ha hin
    exact flashWrite1Kbuffer_changes hin
      (hframe ⟨fun _ => 1, 0, fun _ => 0⟩ (fun _ => 0) (flashRegion row)
        (List.mem_cons_of_mem _ (List.mem_map_of_mem hrow)) a ha)
  · intro hdisjoint s buffer r hr a ha
    rcases List.mem_cons.mp hr with rfl | hr
    · -- the image of the hypervisor ends below the page
      simp only [Region.Contains, Region.stop, hypervisorFlash] at ha
      refine flashWrite1Kbuffer_frame s buffer (by omega) ?_
      simp only [Region.Contains, Region.stop, pufFlash]
      omega
    · obtain ⟨row, hrow, rfl⟩ := List.mem_map.mp hr
      obtain ⟨vm, -, g, next, hg, hvm⟩ := genConfVms_row hacc hrow
      obtain ⟨-, -, hlo, hhi⟩ := hvm.bounds hg
      have hrange : row.1.flashBaseAdd ≤ a ∧ a < row.1.flashBaseAdd + row.2.flashSize := ha
      exact flashWrite1Kbuffer_frame s buffer (by omega) (hdisjoint row hrow a ha)

/-- One VM of 16 KB: its flash ends where the page begins. -/
def smallVm : List VmSetting := [bareVm "ping" "MEM_SIZE_16KB"]

def smallVmRows : List (VmConf × VmInfo) := (genConfVms (some smallVm)).toOption.getD []

theorem puf_flash_frame_smallVm :
    smallVmRows.map flashRegion = [⟨0x9D010000, 0x4000⟩] ∧
    ∀ (s : Nvm) (buffer : Nat → Nat), ∀ r ∈ hypervisorFlash :: smallVmRows.map flashRegion,
      ∀ a, r.Contains a →
        (s.flashWrite1Kbuffer buffer).1.flash (physical a) = s.flash (physical a) := by
  have hacc : genConfVms (some smallVm) = .ok smallVmRows := rfl
  have hregion : smallVmRows.map flashRegion = [⟨0x9D010000, 0x4000⟩] := by decide
  refine ⟨hregion, (puf_flash_frame hacc).mpr ?_⟩
  intro row hrow
  have hmem : flashRegion row ∈ smallVmRows.map flashRegion := List.mem_map_of_mem hrow
  rw [hregion, List.mem_singleton] at hmem
  rw [hmem]
  exact Region.disjoint_of_stop_le (by decide)

/-- The flash of the first VM of the sample starts at `0x9D010000` and has 32 KB: a write
erases its upper half. -/
theorem puf_flash_erases_pingPong : genConfVms (some pingPong) = .ok pingPongRows ∧
    ∃ s buffer row a, row ∈ pingPongRows ∧ (flashRegion row).Contains a ∧
      (Nvm.flashWrite1Kbuffer s buffer).1.flash (physical a) ≠ s.flash (physical a) :=
  ⟨pingPong_accepted, ⟨fun _ => 1, 0, fun _ => 0⟩, fun _ => 0, _, 0x9D014000,
    List.getElem_mem (show 0 < 2 by decide), by decide, flashWrite1Kbuffer_changes (by decide)⟩

end PrplHypervisor
