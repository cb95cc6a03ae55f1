import Mathlib.Algebra.GroupWithZero.Nat
import Mathlib.Data.List.Basic
import Mathlib.Logic.Function.Basic

/-!
# Interrupt vectors (arch/mips/pic32mz/interrupts.c, boot.S, pic32mz.ld)

A driver registers its handler and writes the offset it gets back to an `OFF` register. The
processor then jumps to the code at that offset, a stub that loads one entry of the handler
table and calls it. Three files describe this table: the C code computes offsets, the stubs
name entries, and the linker script places the stubs.

- `registerInterrupt`: the first free entry of the table, and its offset.
- `vectorSections`: where the linker script puts the sections of boot.S.
- `dispatch`: the pointer the code at an offset loads and calls.
- `vectors_dispatch`: for which sequences of calls every offset leads to its handler.
-/

namespace PrplHypervisor

variable {H : Type}

def maxNumInterrupts : Nat := 10

def vector1Offset : Nat := 0x220

/-- `interrupt_handlers`, with null pointers as `none`. -/
abbrev HandlerTable (H : Type) := Fin maxNumInterrupts → Option H

/-- The offset returned is 0 if the table is full. -/
def registerInterrupt (t : HandlerTable H) (handler : Option H) : HandlerTable H × Nat :=
  match (List.finRange maxNumInterrupts).find? fun i => (t i).isNone with
  | some i => (Function.update t i handler, vector1Offset + i.val * 32)
  | none => (t, 0)

/-! ## The stubs and their places -/

/-- What the stubs of boot.S consist of. All work on register `$k1`. -/
inductive VectorInstr where
  | la (symbol : String)
  | lw (disp : Nat)
  | jalr
  | nop
  | eret
  deriving Repr, DecidableEq

/-- Bytes of an instruction; `la` takes two. -/
def VectorInstr.bytes : VectorInstr → Nat
  | .la _ => 8
  | _ => 4

/-- `_vector_1` to `_vector_6`, which differ in the displacement. -/
def vectorStub (disp : Nat) : List VectorInstr :=
  [.la "interrupt_handlers", .lw disp, .jalr, .nop, .eret, .nop]

/-- The code in a section of boot.S. -/
def bootCode : String → List VectorInstr
  | ".vector0" => [.la "general_exception_handler", .jalr, .nop, .eret, .nop]
  | ".vector_1" => vectorStub 0
  | ".vector_2" => vectorStub 4
  | ".vector_3" => vectorStub 8
  | ".vector_4" => vectorStub 12
  | ".vector_5" => vectorStub 16
  | ".vector_6" => vectorStub 20
  | _ => []

/-- Size of a section of boot.S; `.exception` has two words at 0xf8. -/
def bootSize : String → Nat
  | ".exception" => 0xf8 + 2 * 4
  | name => ((bootCode name).map VectorInstr.bytes).sum

/-- Statements in the description of an output section. -/
inductive LinkStatement where
  /-- `. = offset` -/
  | locate (offset : Nat)
  /-- `*(name)` -/
  | input (name : String)
  deriving Repr, DecidableEq

/-- The output section `.text` up to the code of the hypervisor, which starts at 0x1000. -/
def textSection : List LinkStatement :=
  [.input ".exception", .locate 0x200, .input ".vector0", .locate 0x220, .input ".vector_1",
    .locate 0x240, .input ".vector_2", .locate 0x260, .input ".vector_3", .locate 0x280,
    .input ".vector_4", .locate 0x300, .input ".vector_5", .locate 0x320, .input ".vector_6",
    .locate 0x1000]

/-- Offsets of the sections. The location counter may not move backwards. -/
def placeSections (dot : Nat) : List LinkStatement → Option (List (Nat × String))
  | [] => some []
  | .locate offset :: rest => if offset < dot then none else placeSections offset rest
  | .input name :: rest => (placeSections (dot + bootSize name) rest).map ((dot, name) :: ·)

/-- The sections of boot.S in the image. It is linked to address 0x9d000000, and `EBase` has
the same value, so these are the offsets the `OFF` registers count in. -/
def vectorSections : List (Nat × String) := (placeSections 0 textSection).getD []

/-- The code of the section that starts at an offset. What lies between the sections is up
to the linker. -/
def codeAt (offset : Nat) : Option (List VectorInstr) :=
  (vectorSections.find? fun p => p.1 = offset).map fun p => bootCode p.2

/-- What `$k1` holds while a stub runs. -/
inductive StubRegister (H : Type) where
  | unknown
  | table
  | entry (handler : Option H)

/-- The pointer a stub calls, if it is one from the handler table. -/
def calledBy (t : HandlerTable H) : StubRegister H → List VectorInstr → Option (Option H)
  | _, [] => none
  | _, .la symbol :: rest =>
    calledBy t (if symbol = "interrupt_handlers" then .table else .unknown) rest
  | .table, .lw disp :: rest =>
    if h : disp / 4 < maxNumInterrupts then calledBy t (.entry (t ⟨disp / 4, h⟩)) rest
    else calledBy t .unknown rest
  | _, .lw _ :: rest => calledBy t .unknown rest
  | .entry handler, .jalr :: _ => some handler
  | _, .jalr :: _ => none
  | r, .nop :: rest => calledBy t r rest
  | _, .eret :: _ => none

/-- The pointer that is loaded and called by the stub at an offset. -/
def dispatch (t : HandlerTable H) (offset : Nat) : Option (Option H) :=
  (codeAt offset).bind (calledBy t .unknown)

/-- The pointer called where the processor gets over a gap, as it does if the linker leaves
nops there: that of the next stub. -/
def dispatchBehind (t : HandlerTable H) (offset : Nat) : Option (Option H) :=
  ((vectorSections.find? fun p => offset ≤ p.1).map fun p => bootCode p.2).bind
    (calledBy t .unknown)

/-- The sections do not overlap, and each stub is where the script says. -/
theorem vectorSections_eq : vectorSections =
    [(0, ".exception"), (0x200, ".vector0"), (0x220, ".vector_1"), (0x240, ".vector_2"),
      (0x260, ".vector_3"), (0x280, ".vector_4"), (0x300, ".vector_5"), (0x320, ".vector_6")] := by
  decide

/-- The first four registrations get the offset of their stub. -/
theorem dispatch_registered (t : HandlerTable H) {i : Nat} (hi : i < 4) :
    dispatch t (vector1Offset + i * 32) = some (t ⟨i, Nat.lt_trans hi (by decide)⟩) := by
  have hcode : ∀ i < 4, codeAt (vector1Offset + i * 32) = some (vectorStub (4 * i)) := by
    unfold codeAt
    rw [vectorSections_eq]
    decide
  rw [dispatch, hcode i hi, Option.bind_some]
  have hlt : 4 * i / 4 < maxNumInterrupts := by
    simp only [maxNumInterrupts]
    omega
  simp only [vectorStub, calledBy, if_pos, dif_pos hlt,
    Nat.mul_div_cancel_left i (by decide : 0 < 4)]

/-- The fifth one gets an offset with no section. -/
theorem dispatch_fifth (t : HandlerTable H) : dispatch t (vector1Offset + 4 * 32) = none := by
  rw [dispatch, codeAt, vectorSections_eq]
  rfl

/-- The sixth one is in the same gap. Behind the gap the fifth handler is called. -/
theorem dispatchBehind_sixth (t : HandlerTable H) :
    dispatchBehind t (vector1Offset + 5 * 32) = some (t ⟨4, by decide⟩) := by
  rw [dispatchBehind, vectorSections_eq]
  rfl

/-! ## Sequences of registrations -/

/-- The table that holds the handlers `hs` in the order of their registration. -/
def HandlerTable.Holds (t : HandlerTable H) (hs : List H) : Prop := ∀ i, t i = hs[i.val]?

section Holds

variable {t : HandlerTable H} {hs : List H}

/-- A table with a free entry gives away the one behind the last handler. -/
theorem HandlerTable.Holds.register (h : t.Holds hs) (hfree : hs.length < maxNumInterrupts)
    (handler : Option H) :
    (registerInterrupt t handler).2 = vector1Offset + hs.length * 32 ∧
      (registerInterrupt t handler).1.Holds (hs ++ handler.toList) := by
  have hfind : (List.finRange maxNumInterrupts).find? (fun i => (t i).isNone) =
      some ⟨hs.length, hfree⟩ := by
    refine List.find?_eq_some_iff_getElem.mpr ⟨?_, hs.length, ?_, ?_, fun j hj => ?_⟩
    · rw [h, List.getElem?_eq_none (Nat.le_refl _)]
      rfl
    · rwa [List.length_finRange]
    · rw [List.getElem_finRange]
      rfl
    · rw [List.getElem_finRange, h]
      show (!hs[j]?.isNone) = true
      rw [List.getElem?_eq_getElem hj]
      rfl
  rw [registerInterrupt, hfind]
  refine ⟨rfl, fun i => ?_⟩
  show Function.update t ⟨hs.length, hfree⟩ handler i = _
  by_cases hi : i = ⟨hs.length, hfree⟩
  · subst hi
    rw [Function.update_self]
    cases handler <;> simp
  · have hne : i.val ≠ hs.length := fun heq => hi (Fin.ext heq)
    rw [Function.update_of_ne hi, h i, List.getElem?_append]
    split
    case isTrue => rfl
    case isFalse hge =>
      rw [List.getElem?_eq_none (by omega), List.getElem?_eq_none]
      have hle : handler.toList.length ≤ 1 := by cases handler <;> simp
      omega

/-- A full table stays as it is. -/
theorem HandlerTable.Holds.register_full (h : t.Holds hs) (hfull : maxNumInterrupts ≤ hs.length)
    (handler : Option H) : registerInterrupt t handler = (t, 0) := by
  have hfind : (List.finRange maxNumInterrupts).find? (fun i => (t i).isNone) = none := by
    refine List.find?_eq_none.mpr fun i _ => ?_
    rw [h i, List.getElem?_eq_getElem (Nat.lt_of_lt_of_le i.isLt hfull)]
    simp
  rw [registerInterrupt, hfind]

/-- Either way the table holds the handlers registered so far. -/
theorem HandlerTable.Holds.step (h : t.Holds hs) (handler : Option H) :
    (registerInterrupt t handler).1.Holds (hs ++ handler.toList) := by
  rcases Nat.lt_or_ge hs.length maxNumInterrupts with hfree | hfull
  · exact (h.register hfree handler).2
  · rw [h.register_full hfull]
    intro i
    show t i = _
    rw [h i, List.getElem?_append_left (Nat.lt_of_lt_of_le i.isLt hfull)]

end Holds

section Calls

variable (calls : List (Option H))

/-- The table after the first `k` calls. -/
def tableAfter (k : Nat) : HandlerTable H :=
  (calls.take k).foldl (fun t handler => (registerInterrupt t handler).1) fun _ => none

/-- The handlers among the arguments of the first `k` calls. -/
def registered (k : Nat) : List H := (calls.take k).filterMap id

/-- Call `k` returns 0 and changes nothing, or it returns an offset whose stub calls what was
registered, and does so after every later call. -/
def Reached (k : Nat) (handler : Option H) : Prop :=
  registerInterrupt (tableAfter calls k) handler = (tableAfter calls k, 0) ∨
    ((registerInterrupt (tableAfter calls k) handler).2 ≠ 0 ∧
      ∀ j, k < j → dispatch (tableAfter calls j)
        (registerInterrupt (tableAfter calls k) handler).2 = some handler)

/-- A call comes when less than four handlers are registered. After a null pointer there are
only null pointers. -/
def FirstFour (k : Nat) (handler : Option H) : Prop :=
  (registered calls k).length < 4 ∧
    (handler = none → ∀ j, k < j → ∀ later, calls[j]? = some later → later = none)

variable {calls} {k : Nat} {handler : Option H}

theorem take_call (hcall : calls[k]? = some handler) :
    calls.take (k + 1) = calls.take k ++ [handler] := by
  rw [List.take_add_one, hcall]
  rfl

theorem registered_succ (hcall : calls[k]? = some handler) :
    registered calls (k + 1) = registered calls k ++ handler.toList := by
  rw [registered, take_call hcall, List.filterMap_append, registered]
  cases handler <;> rfl

/-- After `k` calls the table holds their handlers. -/
theorem tableAfter_holds : (tableAfter calls k).Holds (registered calls k) := by
  induction k with
  | zero => exact fun i => rfl
  | succ k ih =>
    cases hcall : calls[k]? with
    | none =>
      have htake : calls.take (k + 1) = calls.take k := by
        rw [List.take_add_one, hcall, Option.toList_none, List.append_nil]
      rw [tableAfter, registered, htake]
      exact ih
    | some handler =>
      rw [registered_succ hcall, tableAfter, take_call hcall, List.foldl_append]
      exact ih.step handler

/-- Handlers stay in their places. -/
theorem registered_mono (calls : List (Option H)) {j : Nat} (hkj : k ≤ j) :
    registered calls k <+: registered calls j := by
  have htake : calls.take k <+: calls.take j := List.take_prefix_take_left hkj
  exact htake.filterMap id

theorem registered_length_succ (calls : List (Option H)) (k : Nat) :
    (registered calls (k + 1)).length ≤ (registered calls k).length + 1 := by
  cases hcall : calls[k]? with
  | none =>
    rw [registered, List.take_add_one, hcall, Option.toList_none, List.append_nil, ← registered]
    omega
  | some handler =>
    rw [registered_succ hcall, List.length_append]
    cases handler <;> simp

/-- Null pointers register nothing. -/
theorem registered_nulls {j : Nat} (hkj : k ≤ j)
    (hnull : ∀ i, k ≤ i → i < j → ∀ later, calls[i]? = some later → later = none) :
    registered calls j = registered calls k := by
  induction hkj with
  | refl => rfl
  | @step j hkj ih =>
    rw [← ih fun i hki hij => hnull i hki (Nat.lt_succ_of_lt hij)]
    cases hcall : calls[j]? with
    | none => rw [registered, List.take_add_one, hcall, Option.toList_none, List.append_nil,
        ← registered]
    | some later =>
      rw [registered_succ hcall, hnull j hkj (Nat.lt_succ_self j) later hcall, Option.toList_none,
        List.append_nil]

/-- A call that finds a free entry returns its offset. -/
theorem register_offset (calls : List (Option H)) (k : Nat) (handler : Option H)
    (hfree : (registered calls k).length < maxNumInterrupts) :
    (registerInterrupt (tableAfter calls k) handler).2 =
      vector1Offset + (registered calls k).length * 32 :=
  (tableAfter_holds.register hfree handler).1

/-- A call that meets the condition is reached, then and later. -/
theorem reached_of_firstFour (hcall : calls[k]? = some handler) (h : FirstFour calls k handler) :
    Reached calls k handler := by
  obtain ⟨hlt, hnull⟩ := h
  have hoffset := register_offset calls k handler
    (Nat.lt_trans hlt (by decide))
  refine Or.inr ⟨by rw [hoffset]; simp [vector1Offset], fun j hkj => ?_⟩
  rw [hoffset, dispatch_registered _ hlt, tableAfter_holds]
  cases handler with
  | some x =>
    obtain ⟨rest, hrest⟩ := registered_mono calls (show k + 1 ≤ j from hkj)
    rw [registered_succ hcall, List.append_assoc] at hrest
    rw [← hrest, List.getElem?_append_right (Nat.le_refl _), Nat.sub_self]
    rfl
  | none =>
    -- nothing has been registered since
    have hsame : registered calls j = registered calls k := by
      refine registered_nulls (Nat.le_of_lt hkj) ?_
      intro i hki _ later hlater
      rcases Nat.lt_or_eq_of_le hki with hlt | rfl
      · exact hnull rfl i hlt later hlater
      · exact (Option.some.inj (hcall.symm.trans hlater)).symm
    rw [hsame, List.getElem?_eq_none (Nat.le_refl _)]

/-- The call that finds four handlers registered gets an offset with no stub. -/
theorem not_reached_fifth (hlen : (registered calls k).length = 4) :
    ¬ Reached calls k handler := by
  have hoffset := register_offset calls k handler
    (by rw [hlen]; decide)
  rw [hlen] at hoffset
  rintro (hfail | ⟨-, hcalls⟩)
  · rw [hfail] at hoffset
    cases hoffset
  · have hfifth := hcalls (k + 1) (Nat.lt_succ_self k)
    rw [hoffset, dispatch_fifth] at hfifth
    cases hfifth

/-- Where a null pointer is reached no handler follows it. -/
theorem null_of_reached (hlt : (registered calls k).length < 4) (h : Reached calls k none) {j : Nat}
    (hkj : k < j) {later : Option H} (hlater : calls[j]? = some later) : later = none := by
  have hoffset := register_offset calls k none
    (Nat.lt_trans hlt (by decide))
  rcases h with hfail | ⟨-, hcalls⟩
  · rw [hfail] at hoffset
    simp only [vector1Offset] at hoffset
    omega
  · have hnone := hcalls (j + 1) (by omega)
    rw [hoffset, dispatch_registered _ hlt, tableAfter_holds, registered_succ hlater] at hnone
    have hlen : _ ≤ (registered calls k).length :=
      List.getElem?_eq_none_iff.mp (Option.some.inj hnone)
    have hle := (registered_mono calls (Nat.le_of_lt hkj)).length_le
    rw [List.length_append] at hlen
    cases later with
    | none => rfl
    | some x =>
      rw [Option.toList_some, List.length_singleton] at hlen
      omega

/-- **Registered vectors reach their handlers** in every sequence of calls that come while
less than four handlers are registered, and in no other. The fifth stub is not where the
offsets have it. -/
theorem vectors_dispatch (calls : List (Option H)) :
    (∀ k handler, calls[k]? = some handler → Reached calls k handler) ↔
      ∀ k handler, calls[k]? = some handler → FirstFour calls k handler := by
  constructor
  · intro hall
    -- the number of handlers grows one at a time, and the step to four would show
    have hlt : ∀ k handler, calls[k]? = some handler → (registered calls k).length < 4 := by
      intro k
      induction k with
      | zero => exact fun _ _ => Nat.zero_lt_succ 3
      | succ k ih =>
        intro handler hcall
        obtain ⟨hk, -⟩ := List.getElem?_eq_some_iff.mp hcall
        have hbefore := ih calls[k] (List.getElem?_eq_getElem (by omega))
        have hsucc := registered_length_succ calls k
        have hne : (registered calls (k + 1)).length ≠ 4 := fun hlen =>
          not_reached_fifth hlen (hall (k + 1) handler hcall)
        omega
    intro k handler hcall
    refine ⟨hlt k handler hcall, fun hnull j hkj later hlater => ?_⟩
    subst hnull
    exact null_of_reached (hlt k none hcall) (hall k none hcall) hkj hlater
  · exact fun hall k handler hcall => reached_of_firstFour hcall (hall k handler hcall)

def sixHandlers : List (Option Nat) := [some 1, some 2, some 3, some 4, some 5, some 6]

/-- Six handlers: the fifth offset has no stub, and whatever is in the gap, the sixth does
not lead to the sixth handler. -/
theorem fifth_vector_missing :
    ¬ Reached sixHandlers 4 (some 5) ∧ ¬ Reached sixHandlers 5 (some 6) ∧
      registerInterrupt (tableAfter sixHandlers 5) (some 6) = (tableAfter sixHandlers 6, 0x2c0) ∧
      dispatchBehind (tableAfter sixHandlers 6) 0x2c0 = some (some 5) := by
  have hsixth : (registerInterrupt (tableAfter sixHandlers 5) (some 6)).2 = 0x2c0 := by decide
  refine ⟨not_reached_fifth (by decide), ?_, ?_, ?_⟩
  · rintro (hfail | ⟨-, hcalls⟩)
    · rw [hfail] at hsixth
      cases hsixth
    · have hnone := hcalls 6 (by decide)
      rw [hsixth] at hnone
      revert hnone
      decide
  · exact Prod.ext rfl hsixth
  · exact (dispatchBehind_sixth _).trans (congrArg some (by decide))

end Calls

end PrplHypervisor
