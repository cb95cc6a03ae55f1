import Mathlib.Data.Fin.VecNotation
import PrplHypervisor.Kernel.Machine

/-!
# Context save and restore (arch/mips/common/vcpu.c)

The guest CP0 registers a VCPU may have written are copied to `cp0_registers` when
it loses the processor and back when it resumes. The two lists of statements are
two tables here.

- `contextSave`, `contextRestore`: the two routines.
- `loadCp0_saved`, `loadCp0_compare`: which registers come back. `Compare` is saved
  but has no counterpart in the restore list.
-/

namespace PrplHypervisor

open Machine

variable {n : Nat}

/-- Elements of `cp0_registers` can be numbered. -/
instance neZero_savedCp0 : NeZero 16 := ⟨by decide⟩

/-- The guest CP0 register copied to each element of `cp0_registers`, in the order
`contextSave` lists them. -/
def savedCp0 : Fin 16 → Cp0 :=
  ![(4, 0), (6, 0), (8, 0), (11, 0), (12, 0), (12, 1), (12, 2), (12, 3),
    (13, 0), (14, 0), (14, 2), (15, 1), (16, 0), (17, 0), (16, 3), (30, 0)]

/-- The guest CP0 registers `contextRestore` writes and the element of
`cp0_registers` each is loaded from, in the order it lists them. -/
def restoredCp0 : List (Cp0 × Fin 16) :=
  [((4, 0), 0), ((6, 0), 1), ((8, 0), 2), ((12, 0), 4), ((12, 1), 5), ((12, 2), 6),
    ((12, 3), 7), ((13, 0), 8), ((14, 0), 9), ((14, 2), 10), ((15, 1), 11), ((16, 0), 12),
    ((17, 0), 13), ((16, 3), 14), ((30, 0), 15)]

/-- `mtgc0` of each listed register from its element, in order. -/
def mtgc0All (regs : Fin 16 → Word) : List (Cp0 × Fin 16) → (Cp0 → Word) → Cp0 → Word
  | [], guestCp0 => guestCp0
  | p :: ps, guestCp0 => mtgc0All regs ps (Function.update guestCp0 p.1 (regs p.2))

/-- The guest CP0 registers after `contextRestore` has written its list. -/
def loadCp0 (regs : Fin 16 → Word) (guestCp0 : Cp0 → Word) : Cp0 → Word :=
  mtgc0All regs restoredCp0 guestCp0

/-- The VCPU in execution with its context saved; one that has never been restored
is left alone. -/
def saveVcpu (cpu : Cpu) (v : Vcpu) : Vcpu :=
  if v.init then v
  else { v with
    cp0Registers := fun k => cpu.guestCp0 (savedCp0 k)
    guestclt2 := v.guestclt2 ||| cpu.guestCtl2
    pc := cpu.epc }

/-- Save the context of the VCPU in execution, if there is one. -/
def contextSave (m : Machine n) : Machine n :=
  match m.executing with
  | none => m
  | some i => m.setVcpu i (saveVcpu m.cpu (m.vcpu i))

/-- Restore the context of the VCPU in execution. Without one the routine reads
through a null pointer: it does not return. -/
def contextRestore (m : Machine n) : Option (Machine n) :=
  match m.executing with
  | none => none
  | some i =>
    let v := m.vcpu i
    some { m.setVcpu i { v with init := false, guestclt2 := 0 } with
      cpu := { m.cpu with
        previousShadowSet := v.gprshadowset
        lowestGShadow := v.gprshadowset
        guestId := v.id
        guestMode := true
        guestCp0 := loadCp0 v.cp0Registers m.cpu.guestCp0
        guestCtl2 := v.guestclt2
        epc := v.pc } }

/-! ## The two tables -/

theorem mtgc0All_of_notMem (regs : Fin 16 → Word) {ps : List (Cp0 × Fin 16)} {r : Cp0}
    (hr : r ∉ ps.map Prod.fst) (g : Cp0 → Word) : mtgc0All regs ps g r = g r := by
  induction ps generalizing g with
  | nil => rfl
  | cons p ps ih =>
    rw [List.map_cons, List.mem_cons, not_or] at hr
    rw [mtgc0All, ih hr.2, Function.update_of_ne hr.1]

theorem mtgc0All_of_mem (regs : Fin 16 → Word) {ps : List (Cp0 × Fin 16)}
    (hnd : (ps.map Prod.fst).Nodup) {r : Cp0} {k : Fin 16} (hmem : (r, k) ∈ ps)
    (g : Cp0 → Word) : mtgc0All regs ps g r = regs k := by
  induction ps generalizing g with
  | nil => cases hmem
  | cons p ps ih =>
    rw [List.map_cons, List.nodup_cons] at hnd
    rcases List.mem_cons.mp hmem with rfl | hmem
    · rw [mtgc0All, mtgc0All_of_notMem regs hnd.1, Function.update_self]
    · exact ih hnd.2 hmem _

/-- `Compare`, element 3 of the save list. -/
def compareReg : Cp0 := (11, 0)

/-- Every saved register but element 3 is loaded back from its own element. -/
theorem loadCp0_saved (regs : Fin 16 → Word) (g : Cp0 → Word) {k : Fin 16} (hk : k ≠ 3) :
    loadCp0 regs g (savedCp0 k) = regs k := by
  have hmem : (savedCp0 k, k) ∈ restoredCp0 := by
    revert k
    decide
  exact mtgc0All_of_mem regs (by decide) hmem g

/-- `Compare` keeps whatever the previous guest left in it. -/
theorem loadCp0_compare (regs : Fin 16 → Word) (g : Cp0 → Word) :
    loadCp0 regs g compareReg = g compareReg :=
  mtgc0All_of_notMem regs (by decide) g

/-! ## What a save does -/

/-- VCPU `j` after the save. -/
def savedVcpu (m : Machine n) (j : Fin n) : Vcpu :=
  if m.executing = some j then saveVcpu m.cpu (m.vcpu j) else m.vcpu j

/-- Saving touches the VCPU in execution and nothing else. -/
theorem contextSave_eq (m : Machine n) : contextSave m = { m with vcpu := savedVcpu m } := by
  unfold contextSave
  split
  case h_1 h =>
    have hsaved : savedVcpu m = m.vcpu := by
      funext j
      rw [savedVcpu, h, if_neg (by simp)]
    rw [hsaved]
  case h_2 i h =>
    have hsaved : savedVcpu m = Function.update m.vcpu i (saveVcpu m.cpu (m.vcpu i)) := by
      funext j
      by_cases hj : j = i
      · rw [hj, Function.update_self, savedVcpu, if_pos h]
      · have hne : ¬ m.executing = some j := by
          rw [h]
          exact fun he => hj (Option.some.inj he).symm
        rw [Function.update_of_ne hj, savedVcpu, if_neg hne]
    rw [hsaved]
    rfl

/-- Whoever executes has been restored before, so its context is saved. -/
def RunsInitialized (m : Machine n) : Prop :=
  ∀ i, m.executing = some i → (m.vcpu i).init = false

section Saved

variable (m : Machine n) (j : Fin n)

theorem savedVcpu_messages : (savedVcpu m j).messages = (m.vcpu j).messages := by
  unfold savedVcpu saveVcpu
  split
  · split <;> rfl
  · rfl

theorem savedVcpu_init : (savedVcpu m j).init = (m.vcpu j).init := by
  unfold savedVcpu saveVcpu
  split
  · split <;> rfl
  · rfl

variable {m}

theorem savedVcpu_cp0Registers (hm : RunsInitialized m) :
    (savedVcpu m j).cp0Registers = if m.executing = some j
      then fun k => m.cpu.guestCp0 (savedCp0 k) else (m.vcpu j).cp0Registers := by
  unfold savedVcpu
  split
  case isTrue h => rw [saveVcpu, hm j h, if_neg (by decide)]
  case isFalse => rfl

theorem savedVcpu_guestclt2 (hm : RunsInitialized m) :
    (savedVcpu m j).guestclt2 = if m.executing = some j
      then (m.vcpu j).guestclt2 ||| m.cpu.guestCtl2 else (m.vcpu j).guestclt2 := by
  unfold savedVcpu
  split
  case isTrue h => rw [saveVcpu, hm j h, if_neg (by decide)]
  case isFalse => rfl

end Saved

end PrplHypervisor
