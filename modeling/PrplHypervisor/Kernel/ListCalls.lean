import PrplHypervisor.Kernel.Lists

/-!
# Calls of the list routines (sys/lib/linkedlist.c)

`list_append` allocates a node and links it behind the last one; without memory it returns
`-1`. `list_count` walks the list with its test on the next node.

- `appendAll`: a sequence of `list_append` calls, `malloc` answering each of them with a
  new block or `NULL`.
- `appendAll_path`: the list then has the items of the successful calls in order.
- `countLoop_path`: `list_count` misses a node. It reads through `NULL` for a list without
  nodes.
-/

namespace PrplHypervisor.ListCalls

open LinkedList

variable {α ν : Type}

/-! ## `list_append` -/

/-- A call of `list_append`: what `malloc` answers it, and its item. -/
structure Call (α ν : Type) where
  block : Option α
  item : ν

/-- The nodes in memory and the pointer that `lst` points to. -/
structure ListVar (α ν : Type) where
  cells : Cells α ν
  lst : Option α

def ListVar.empty : ListVar α ν := ⟨fun _ => none, none⟩

/-- The node that a call adds. -/
def Call.node (c : Call α ν) : Option (α × ν) := c.block.map fun t => (t, c.item)

/-- What a call should return. -/
def Call.status (c : Call α ν) : Int := if c.block.isSome then 0 else -1

section Append

variable [DecidableEq α]

/-- `list_append`, for a list of at most `fuel` nodes. -/
def listAppend (fuel : Nat) (s : ListVar α ν) (c : Call α ν) : Option (ListVar α ν × Int) :=
  match c.block with
  | none => some (s, -1)
  | some t => (append s.cells fuel s.lst t c.item).map fun r => (⟨r.1, r.2⟩, 0)

/-- Calls one after the other, and what they return. -/
def appendAll (fuel : Nat) (s : ListVar α ν) : List (Call α ν) → Option (ListVar α ν × List Int)
  | [] => some (s, [])
  | c :: calls => do
    let (s', r) ← listAppend fuel s c
    let (t, rs) ← appendAll fuel s' calls
    return (t, r :: rs)

end Append

/-! ## `list_count` -/

/-- Why `list_count` may not return. -/
inductive Fault where
  | nullPointer
  | wildPointer
  | endless
  deriving Repr, DecidableEq

/-- `while ((t1 = t1->next)) i++`. -/
def countLoop (h : Cells α ν) : Nat → Option α → BitVec 32 → Except Fault (BitVec 32)
  | 0, _, _ => .error .endless
  | _ + 1, none, _ => .error .nullPointer
  | fuel + 1, some t, i =>
    match h t with
    | none => .error .wildPointer
    | some c =>
      match c.next with
      | none => .ok i
      | some next => countLoop h fuel (some next) (i + 1)

/-- `list_count`. -/
def listCount (h : Cells α ν) (fuel : Nat) (lst : Option α) : Except Fault (BitVec 32) :=
  countLoop h fuel lst 0

/-- The last of the nodes is not counted. -/
theorem countLoop_path {h : Cells α ν} {xs : List (α × ν)} {x : α × ν} {p : Option α} {fuel : Nat}
    (hp : Path h p (x :: xs)) (hfuel : xs.length < fuel) (i : BitVec 32) :
    countLoop h fuel p i = .ok (i + BitVec.ofNat 32 xs.length) := by
  induction xs generalizing x p fuel i with
  | nil =>
    obtain ⟨rfl, next, hx, hnext⟩ := hp
    obtain rfl : next = none := hnext
    cases fuel with
    | zero => cases hfuel
    | succ fuel =>
      rw [countLoop, hx]
      exact congrArg Except.ok (BitVec.add_zero i).symm
  | cons y xs ih =>
    obtain ⟨rfl, next, hx, hrest⟩ := hp
    obtain ⟨rfl, -⟩ := id hrest
    cases fuel with
    | zero => cases hfuel
    | succ fuel =>
      rw [countLoop, hx]
      dsimp only
      rw [ih hrest (Nat.lt_of_succ_lt_succ hfuel), List.length_cons, BitVec.add_assoc,
        Nat.add_comm xs.length, BitVec.ofNat_add]
      rfl

/-- What `list_count` returns. -/
theorem listCount_path {h : Cells α ν} {xs : List (α × ν)} {p : Option α} {fuel : Nat}
    (hp : Path h p xs) (hfuel : xs.length < fuel) : listCount h fuel p =
      if xs = [] then .error .nullPointer else .ok (BitVec.ofNat 32 (xs.length - 1)) := by
  cases xs with
  | nil =>
    obtain rfl : p = none := hp
    cases fuel with
    | zero => cases hfuel
    | succ fuel => rfl
  | cons x xs =>
    rw [List.length_cons] at hfuel
    rw [listCount, countLoop_path hp (by omega)]
    exact congrArg Except.ok (BitVec.zero_add _)

/-! ## Runs -/

section Run

variable [DecidableEq α] {s : ListVar α ν} {xs : List (α × ν)} {c : Call α ν} {fuel : Nat}

/-- What a call does to a list: it adds the call's node, if there is one, and touches the nodes
of the list and this node only. -/
theorem listAppend_path (hp : Path s.cells s.lst xs)
    (hfresh : ∀ t, c.block = some t → s.cells t = none) (hfuel : xs.length ≤ fuel) :
    ∃ s', listAppend fuel s c = some (s', c.status) ∧
      Path s'.cells s'.lst (xs ++ c.node.toList) ∧
      ∀ b, s.cells b = none → c.block ≠ some b → s'.cells b = none := by
  obtain ⟨block, item⟩ := c
  cases block with
  | none =>
    refine ⟨s, rfl, ?_, fun b hb _ => hb⟩
    rwa [Call.node, Option.map_none, Option.toList_none, List.append_nil]
  | some t =>
    obtain ⟨cells, head, happend, hpath, hsame⟩ := append_path hp (hfresh t rfl) hfuel item
    refine ⟨⟨cells, head⟩, ?_, hpath, fun b hb hne => ?_⟩
    · simp only [listAppend, happend, Option.map_some]
      rfl
    · -- a free block is no node of the list
      have hout : b ∉ xs.map Prod.fst := by
        intro hmem
        obtain ⟨x, hx, rfl⟩ := List.mem_map.mp hmem
        have halloc := hp.allocated hx
        rw [hb] at halloc
        cases halloc
      exact (hsame b (fun heq => hne (congrArg some heq.symm)) hout).trans hb

/-- After calls with new blocks the list has grown by the nodes of the successful ones. -/
theorem appendAll_path {calls : List (Call α ν)} (hp : Path s.cells s.lst xs)
    (hnew : (calls.filterMap Call.block).Nodup)
    (hfresh : ∀ t ∈ calls.filterMap Call.block, s.cells t = none)
    (hfuel : xs.length + calls.length ≤ fuel) :
    ∃ s', appendAll fuel s calls = some (s', calls.map Call.status) ∧
      Path s'.cells s'.lst (xs ++ calls.filterMap Call.node) := by
  induction calls generalizing s xs with
  | nil => exact ⟨s, rfl, by rwa [List.filterMap_nil, List.append_nil]⟩
  | cons c calls ih =>
    rw [List.length_cons] at hfuel
    obtain ⟨s₁, hcall, hpath, hfree⟩ := listAppend_path (c := c) hp
      (fun t ht => hfresh t (List.mem_filterMap.mpr ⟨c, List.mem_cons_self, ht⟩))
      (Nat.le_trans (Nat.le_add_right _ _) hfuel)
    have hlen : (xs ++ c.node.toList).length ≤ xs.length + 1 := by
      rw [List.length_append]
      cases c.node <;> simp
    have hrest : (calls.filterMap Call.block).Nodup ∧
        ∀ t ∈ calls.filterMap Call.block, s₁.cells t = none := by
      rw [List.filterMap_cons] at hnew hfresh
      cases hb : c.block with
      | none =>
        rw [hb] at hnew hfresh
        exact ⟨hnew, fun t ht => hfree t (hfresh t ht) (by rw [hb]; exact nofun)⟩
      | some b =>
        rw [hb] at hnew hfresh
        obtain ⟨hnot, hnodup⟩ := List.nodup_cons.mp hnew
        refine ⟨hnodup, fun t ht => hfree t (hfresh t (List.mem_cons_of_mem _ ht)) ?_⟩
        rintro heq
        obtain rfl : b = t := Option.some.inj (hb.symm.trans heq)
        exact hnot ht
    obtain ⟨s', hcalls, hpath'⟩ := ih hpath hrest.1 hrest.2 (by omega)
    refine ⟨s', ?_, ?_⟩
    · rw [appendAll, hcall, Option.bind_eq_bind, Option.bind_some]
      dsimp only
      rw [hcalls]
      rfl
    · rw [List.append_assoc] at hpath'
      rw [List.filterMap_cons]
      cases hn : c.node with
      | none => rwa [hn] at hpath'
      | some n => rwa [hn] at hpath'

/-! ## The elements of a list -/

/-- The calls on an empty list return what they should, the list has the items of the
successful ones in order, and one more call without memory returns `-1` and changes nothing. -/
def AppendsKeep (fuel : Nat) (calls : List (Call α ν)) : Prop :=
  ∃ s, appendAll fuel .empty calls = some (s, calls.map Call.status) ∧
    elements s.cells fuel s.lst = some ((calls.filterMap Call.node).map Prod.snd) ∧
    ∀ item, appendAll fuel .empty (calls ++ [⟨none, item⟩]) =
      some (s, calls.map Call.status ++ [-1])

/-- `list_count` of the list after the calls is the number of successful ones. -/
def CountsAll (fuel : Nat) (calls : List (Call α ν)) : Prop :=
  ∃ s rs i, appendAll fuel .empty calls = some (s, rs) ∧ listCount s.cells fuel s.lst = .ok i ∧
    i.toInt = (calls.filterMap Call.node).length

def KeepsEveryElement (fuel : Nat) (calls : List (Call α ν)) : Prop :=
  AppendsKeep fuel calls ∧ CountsAll fuel calls

variable {calls : List (Call α ν)}

/-- A last call without memory returns `-1` and changes nothing. -/
theorem appendAll_failed (item : ν) : appendAll fuel s (calls ++ [⟨none, item⟩]) =
    (appendAll fuel s calls).map fun r => (r.1, r.2 ++ [-1]) := by
  induction calls generalizing s with
  | nil => rfl
  | cons c calls ih =>
    rw [List.cons_append, appendAll, appendAll]
    cases listAppend fuel s c with
    | none => rfl
    | some r =>
      simp only [Option.bind_eq_bind, Option.bind_some, ih]
      cases appendAll fuel r.1 calls with
      | none => rfl
      | some t => rfl

theorem appendAll_empty (hnew : (calls.filterMap Call.block).Nodup) (hfuel : calls.length ≤ fuel) :
    ∃ s, appendAll fuel .empty calls = some (s, calls.map Call.status) ∧
      Path s.cells s.lst (calls.filterMap Call.node) := by
  have hempty : Path (ListVar.empty : ListVar α ν).cells (ListVar.empty : ListVar α ν).lst [] := rfl
  have hlen : ([] : List (α × ν)).length + calls.length ≤ fuel := by
    rwa [List.length_nil, Nat.zero_add]
  obtain ⟨s, hcalls, hpath⟩ := appendAll_path hempty hnew (fun _ _ => rfl) hlen
  exact ⟨s, hcalls, hpath⟩

theorem appendsKeep (hnew : (calls.filterMap Call.block).Nodup) (hfuel : calls.length ≤ fuel) :
    AppendsKeep fuel calls := by
  obtain ⟨s, hcalls, hpath⟩ := appendAll_empty hnew hfuel
  have hlen := List.length_filterMap_le Call.node calls
  refine ⟨s, hcalls, elements_path hpath (Nat.le_trans hlen hfuel), fun item => ?_⟩
  rw [appendAll_failed, hcalls]
  rfl

/-- The list routines keep every element and never count all of them, whatever the calls. -/
theorem keepsEveryElement_never {α ν : Type} [DecidableEq α] {fuel : Nat} {calls : List (Call α ν)}
    (hnew : (calls.filterMap Call.block).Nodup) (hfuel : calls.length < fuel) :
    AppendsKeep fuel calls ∧ ¬ KeepsEveryElement fuel calls := by
  refine ⟨appendsKeep hnew (Nat.le_of_lt hfuel), ?_⟩
  rintro ⟨-, s, rs, i, hcalls, hcount, hi⟩
  obtain ⟨s', hcalls', hpath⟩ := appendAll_empty hnew (Nat.le_of_lt hfuel)
  obtain ⟨rfl, -⟩ := Prod.mk.inj (Option.some.inj (hcalls.symm.trans hcalls'))
  have hlen := List.length_filterMap_le Call.node calls
  rw [listCount_path hpath (by omega)] at hcount
  split at hcount
  case isTrue => cases hcount
  case isFalse hne =>
    obtain rfl := Except.ok.inj hcount
    have hpos := List.length_pos_iff.mpr hne
    rw [BitVec.toInt_eq_toNat_cond, BitVec.toNat_ofNat] at hi
    have hmod := Nat.mod_le ((calls.filterMap Call.node).length - 1) (2 ^ 32)
    split at hi <;> omega

theorem keepsEveryElement_never_two :
    ([⟨some 1, 'a'⟩, ⟨none, 'b'⟩, ⟨some 2, 'c'⟩] : List (Call Nat Char)).length < 4 ∧
      ¬ KeepsEveryElement 4 ([⟨some 1, 'a'⟩, ⟨none, 'b'⟩, ⟨some 2, 'c'⟩] : List (Call Nat Char)) :=
  ⟨by decide, (keepsEveryElement_never (by decide) (by decide)).2⟩

/-- `list_count` of a list of two items is one. -/
theorem listCount_two :
    ¬ KeepsEveryElement 3 ([⟨some 1, 'a'⟩, ⟨some 2, 'b'⟩] : List (Call Nat Char)) := by
  rintro ⟨-, s, rs, i, hcalls, hcount, hi⟩
  obtain ⟨rfl, -⟩ := Prod.mk.inj (Option.some.inj hcalls)
  have hone : (1 : BitVec 32) = i := Except.ok.inj hcount
  subst hone
  exact absurd hi (by decide)

end Run

end PrplHypervisor.ListCalls
