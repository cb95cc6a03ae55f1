import PrplHypervisor.Drivers.PufFlash
import Mathlib.Data.BitVec

/-!
# Reading back the flash of the PUF driver (drivers/pic32mz-puf-flash.c)

The operations of the driver once more, on a NOR flash: erasing sets bits and
programming clears them, and an operation may fail. The driver drops the status of
every operation.

- `flashWrite1Kbuffer_flash`: what a write leaves of a word of the buffer.
- `flash_roundTrip_iff`: it is read back exactly if the operations worked and the words
  past the end of the page, which is not the page after it, had no bit cleared that the
  buffer needs.
- `flash_roundTrip_history`: those words collect the zeros of all writes.
-/

namespace PrplHypervisor.NorFlash

open Genconf Word32

/-- How an operation ends: `NVMCON`, and what a failed one leaves. -/
structure NvmOutcome where
  nvmcon : BitVec 32
  left : Nat → BitVec 32

/-- Neither `WRERR` nor `LVDERR` is set. -/
def NvmOutcome.Ok (o : NvmOutcome) : Prop := o.nvmcon &&& 0x3000 = 0

instance (o : NvmOutcome) : Decidable o.Ok := inferInstanceAs (Decidable (_ = _))

/-- The flash, a word for each physical address of one, and the controller's registers. -/
structure Nor where
  flash : Nat → BitVec 32
  nvmaddr : Nat
  nvmdata : Nat → BitVec 32

namespace Nor

/-- A page erase sets the page of `NVMADDR` to ones. -/
def erased (s : Nor) (o : NvmOutcome) (a : Nat) : BitVec 32 :=
  if a / nvmPageSize = s.nvmaddr / nvmPageSize then
    if o.Ok then BitVec.allOnes 32 else o.left a
  else s.flash a

/-- A quad-word program clears bits of the four words at `NVMADDR`, those of the data
registers if it works. -/
def programmed (s : Nor) (o : NvmOutcome) (a : Nat) : BitVec 32 :=
  if s.nvmaddr ≤ a ∧ a < s.nvmaddr + 16 then
    s.flash a &&& if o.Ok then s.nvmdata ((a - s.nvmaddr) / 4) else o.left a
  else s.flash a

/-- `NVMUnlock`: the operation, and the status. -/
def NVMUnlock (s : Nor) (o : NvmOutcome) (nvmop : Nat) : Nor × BitVec 32 :=
  let flash := match nvmop with
    | 0x4004 => s.erased o
    | 0x4002 => s.programmed o
    | _ => s.flash
  ({ s with flash := flash }, o.nvmcon &&& 0x3000)

def NVMErasePage (s : Nor) (o : NvmOutcome) (address : Nat) : Nor × BitVec 32 :=
  { s with nvmaddr := physical address }.NVMUnlock o 0x4004

/-- `data` are the words at the source pointer. -/
def NVMWriteQuad (s : Nor) (o : NvmOutcome) (address : Nat) (data : Nat → BitVec 32) :
    Nor × BitVec 32 :=
  { s with nvmaddr := physical address, nvmdata := data }.NVMUnlock o 0x4002

/-- How the operations of one write end. -/
structure WriteOutcome where
  erase : NvmOutcome
  quad : Nat → NvmOutcome

/-- The first `n` rounds of the loop of `flash_write1Kbuffer`. -/
def writeQuads (s : Nor) (o : WriteOutcome) (buffer : Nat → BitVec 32) (n : Nat) : Nor :=
  (List.range n).foldl
    (fun s k => (s.NVMWriteQuad (o.quad k) (pageFlash + 16 * k) fun j => buffer (4 * k + j)).1) s

/-- `flash_write1Kbuffer`. -/
def flashWrite1Kbuffer (s : Nor) (o : WriteOutcome) (buffer : Nat → BitVec 32) : Nor × Nat :=
  ((s.NVMErasePage o.erase pageFlash).1.writeQuads o buffer 64, 1024)

/-- `flash_read1Kbuffer`: the words it stores in the buffer. -/
def flashRead1Kbuffer (s : Nor) : List (BitVec 32) × Nat :=
  ((List.range 256).map fun i => s.flash (physical (pageFlash + 4 * i)), 1024)

/-! ## What a write leaves of a word -/

/-- The physical address of word `i` of the buffer. -/
def wordAddr (i : Nat) : Nat := 0x1D017F80 + 4 * i

theorem physical_pageFlash {i : Nat} (hi : i < 256) :
    physical (pageFlash + 4 * i) = wordAddr i := by
  rw [physical_eq, pageFlash, wordAddr]
  omega

variable {s : Nor} {o : WriteOutcome} {buffer : Nat → BitVec 32} {i n : Nat}

/-- What programming quad word `i / 4` keeps of a word. -/
def mask (o : WriteOutcome) (buffer : Nat → BitVec 32) (i : Nat) : BitVec 32 :=
  if (o.quad (i / 4)).Ok then buffer i else (o.quad (i / 4)).left (wordAddr i)

/-- A word when programming starts: the page that is erased ends behind word 31. -/
def startWord (s : Nor) (o : WriteOutcome) (i : Nat) : BitVec 32 :=
  if i < 32 then if o.erase.Ok then BitVec.allOnes 32 else o.erase.left (wordAddr i)
  else s.flash (wordAddr i)

theorem NVMErasePage_flash :
    (s.NVMErasePage o.erase pageFlash).1.flash (wordAddr i) = s.startWord o i := by
  have hpage : wordAddr i / nvmPageSize = physical pageFlash / nvmPageSize ↔ i < 32 := by
    rw [show physical pageFlash = 0x1D017F80 from rfl, nvmPageSize, wordAddr]
    omega
  show (if wordAddr i / nvmPageSize = physical pageFlash / nvmPageSize then _ else _) = _
  simp only [hpage, startWord]

/-- A round programs the next four words. -/
theorem NVMWriteQuad_flash {k : Nat} (hk : k < 64) :
    (s.NVMWriteQuad (o.quad k) (pageFlash + 16 * k) fun j => buffer (4 * k + j)).1.flash
        (wordAddr i) =
      if i / 4 = k then s.flash (wordAddr i) &&& mask o buffer i else s.flash (wordAddr i) := by
  have haddr : physical (pageFlash + 16 * k) = wordAddr (4 * k) := by
    rw [← physical_pageFlash (by omega), ← Nat.mul_assoc]
  have hquad : (wordAddr (4 * k) ≤ wordAddr i ∧ wordAddr i < wordAddr (4 * k) + 16) ↔
      i / 4 = k := by
    rw [wordAddr, wordAddr]
    omega
  show (if physical (pageFlash + 16 * k) ≤ wordAddr i ∧
      wordAddr i < physical (pageFlash + 16 * k) + 16 then
    s.flash (wordAddr i) &&& (if (o.quad k).Ok then
      buffer (4 * k + (wordAddr i - physical (pageFlash + 16 * k)) / 4)
      else (o.quad k).left (wordAddr i)) else s.flash (wordAddr i)) = _
  rw [haddr]
  simp only [hquad]
  by_cases h : i / 4 = k
  · have hword : 4 * k + (wordAddr i - wordAddr (4 * k)) / 4 = i := by
      rw [wordAddr, wordAddr]
      omega
    rw [if_pos h, if_pos h, hword, mask, h]
  · rw [if_neg h, if_neg h]

theorem writeQuads_flash (hn : n ≤ 64) :
    (s.writeQuads o buffer n).flash (wordAddr i) =
      if i / 4 < n then s.flash (wordAddr i) &&& mask o buffer i else s.flash (wordAddr i) := by
  induction n with
  | zero => rfl
  | succ n ih =>
    have hstep : s.writeQuads o buffer (n + 1) = ((s.writeQuads o buffer n).NVMWriteQuad (o.quad n)
        (pageFlash + 16 * n) fun j => buffer (4 * n + j)).1 := by
      rw [writeQuads, List.range_succ, List.foldl_append]
      rfl
    rw [hstep, NVMWriteQuad_flash (by omega), ih (by omega)]
    by_cases hlast : i / 4 = n
    · rw [if_pos hlast, if_neg (by omega), if_pos (by omega)]
    · rw [if_neg hlast]
      by_cases hbefore : i / 4 < n
      · rw [if_pos hbefore, if_pos (by omega)]
      · rw [if_neg hbefore, if_neg (by omega)]

theorem flashWrite1Kbuffer_flash (hi : i < 256) :
    (s.flashWrite1Kbuffer o buffer).1.flash (wordAddr i) =
      s.startWord o i &&& mask o buffer i := by
  rw [flashWrite1Kbuffer, writeQuads_flash le_rfl, if_pos (by omega), NVMErasePage_flash]

/-! ## Reading it back -/

/-- A write that reports success is read back. -/
def RoundTrip (s : Nor) (o : WriteOutcome) (buffer : Nat → BitVec 32) : Prop :=
  (s.flashWrite1Kbuffer o buffer).2 = 1024 →
    (s.flashWrite1Kbuffer o buffer).1.flashRead1Kbuffer = ((List.range 256).map buffer, 1024)

/-- The bits of the buffer that are set are set in the word when programming starts; a
program that failed has left the word all the same. -/
def Takes (s : Nor) (o : WriteOutcome) (buffer : Nat → BitVec 32) (i : Nat) : Prop :=
  if (o.quad (i / 4)).Ok then s.startWord o i &&& buffer i = buffer i
  else s.startWord o i &&& (o.quad (i / 4)).left (wordAddr i) = buffer i

instance : Decidable (s.Takes o buffer i) := inferInstanceAs (Decidable (ite _ _ _))

theorem roundTrip_iff : s.RoundTrip o buffer ↔ ∀ i < 256, s.Takes o buffer i := by
  have hword : ∀ i < 256, ((s.flashWrite1Kbuffer o buffer).1.flash (physical (pageFlash + 4 * i)) =
      buffer i ↔ s.Takes o buffer i) := by
    intro i hi
    rw [physical_pageFlash hi, flashWrite1Kbuffer_flash hi, mask, Takes]
    split <;> rfl
  have hreport : (s.flashWrite1Kbuffer o buffer).2 = 1024 := rfl
  rw [RoundTrip, imp_iff_right hreport, flashRead1Kbuffer, Prod.mk.injEq, and_iff_left rfl,
    List.map_inj_left]
  simp only [List.mem_range]
  exact forall₂_congr hword

/-- One call after the other. -/
def runWrites (s : Nor) (calls : List (WriteOutcome × (Nat → BitVec 32))) : Nor :=
  calls.foldl (fun s call => (s.flashWrite1Kbuffer call.1 call.2).1) s

/-! ## Writes whose operations all work -/

def WriteOutcome.AllOk (o : WriteOutcome) : Prop := o.erase.Ok ∧ ∀ k < 64, (o.quad k).Ok

/-- A word keeps bits through two programs if it does through each. -/
theorem and_keeps_iff (a m x : BitVec 32) :
    a &&& m &&& x = x ↔ a &&& x = x ∧ m &&& x = x := by
  constructor
  · intro h
    constructor
    · rw [← h, ← BitVec.and_assoc, ← BitVec.and_assoc, BitVec.and_self]
    · rw [← h, ← BitVec.and_assoc, ← BitVec.and_assoc, BitVec.and_comm m, BitVec.and_assoc a,
        BitVec.and_self]
  · rintro ⟨ha, hm⟩
    rw [BitVec.and_assoc, hm, ha]

/-- The erased words take everything, the others what they have kept. -/
theorem takes_iff_of_allOk (ho : o.AllOk) (hi : i < 256) :
    s.Takes o buffer i ↔ i < 32 ∨ s.flash (wordAddr i) &&& buffer i = buffer i := by
  rw [Takes, if_pos (ho.2 _ (by omega)), startWord]
  by_cases h : i < 32
  · rw [if_pos h, if_pos ho.1, BitVec.allOnes_and]
    exact iff_of_true rfl (.inl h)
  · rw [if_neg h, or_iff_right h]

/-- Such a word keeps what it kept at first and through every write. -/
theorem runWrites_keeps_iff {calls : List (WriteOutcome × (Nat → BitVec 32))}
    (hok : ∀ call ∈ calls, call.1.AllOk) (hi : i < 256) (h32 : 32 ≤ i) (x : BitVec 32) :
    (s.runWrites calls).flash (wordAddr i) &&& x = x ↔
      s.flash (wordAddr i) &&& x = x ∧ ∀ call ∈ calls, call.2 i &&& x = x := by
  induction calls generalizing s with
  | nil => simp [runWrites]
  | cons call calls ih =>
    have hcall := hok call List.mem_cons_self
    show ((s.flashWrite1Kbuffer call.1 call.2).1.runWrites calls).flash _ &&& x = x ↔ _
    rw [ih fun call h => hok call (List.mem_cons_of_mem _ h), flashWrite1Kbuffer_flash hi,
      startWord, if_neg (by omega), mask, if_pos (hcall.2 _ (by omega)), and_keeps_iff,
      List.forall_mem_cons, and_assoc]

/-- **The words past the page are never erased.** As long as every operation works, a
write is read back if and only if no write before, and not the flash at first, has a zero
where it has a one. -/
theorem flash_roundTrip_history (s₀ : Nor) (calls : List (WriteOutcome × (Nat → BitVec 32)))
    (ho : o.AllOk) (hok : ∀ call ∈ calls, call.1.AllOk) :
    (s₀.runWrites calls).RoundTrip o buffer ↔
      ∀ i, 32 ≤ i → i < 256 → s₀.flash (wordAddr i) &&& buffer i = buffer i ∧
        ∀ call ∈ calls, call.2 i &&& buffer i = buffer i := by
  rw [roundTrip_iff]
  constructor
  · intro h i h32 hi
    rw [← runWrites_keeps_iff hok hi h32]
    exact ((takes_iff_of_allOk ho hi).mp (h i hi)).resolve_left (by omega)
  · intro h i hi
    rw [takes_iff_of_allOk ho hi]
    by_cases h32 : i < 32
    · exact .inl h32
    · exact .inr ((runWrites_keeps_iff hok hi (by omega) _).mpr (h i (by omega) hi))

end Nor

/-- **PUF flash round trip.** Whatever the flash held at first and however the writes
before ended, the last one is read back if and only if every word took it: its bits that
are set were set when programming started, or the program failed and left the word. -/
theorem flash_roundTrip_iff (s₀ : Nor) (calls : List (Nor.WriteOutcome × (Nat → BitVec 32)))
    (o : Nor.WriteOutcome) (buffer : Nat → BitVec 32) :
    (s₀.runWrites calls).RoundTrip o buffer ↔
      ∀ i < 256, (s₀.runWrites calls).Takes o buffer i :=
  Nor.roundTrip_iff

/-- Every operation works. -/
def works : Nor.WriteOutcome := ⟨⟨0, fun _ => 0⟩, fun _ => ⟨0, fun _ => 0⟩⟩

/-- The last program fails and clears nothing. -/
def lastFails : Nor.WriteOutcome :=
  { works with
    quad := fun k => if k = 63 then ⟨0x2000, fun _ => BitVec.allOnes 32⟩ else works.quad k }

/-- On a flash of ones, zeros and then ones are written; or a program fails. Both writes
report success, and something else is read. -/
theorem flash_roundTrip_lost :
    (¬(Nor.runWrites ⟨fun _ => BitVec.allOnes 32, 0, fun _ => 0⟩ [(works, fun _ => 0)]).RoundTrip
        works fun _ => BitVec.allOnes 32) ∧
      ¬(Nor.runWrites ⟨fun _ => BitVec.allOnes 32, 0, fun _ => 0⟩ []).RoundTrip lastFails
        fun _ => 0 := by
  have hnvm : (⟨0, fun _ => 0⟩ : NvmOutcome).Ok := by decide
  have hok : works.AllOk := ⟨hnvm, fun _ _ => hnvm⟩
  constructor
  · rw [Nor.flash_roundTrip_history _ _ hok (by simpa using hok)]
    intro h
    exact absurd ((h 32 (by decide) (by decide)).2 _ List.mem_cons_self) (by decide)
  · rw [Nor.roundTrip_iff]
    intro h
    exact absurd (h 255 (by decide)) (by decide)

end PrplHypervisor.NorFlash
