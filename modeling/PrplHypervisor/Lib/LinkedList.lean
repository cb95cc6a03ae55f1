import Mathlib.Data.List.Induction
import Mathlib.Logic.Function.Basic

/-!
# Singly linked lists

A list in memory is a pointer to its first node, each node holding an element and a
pointer to the next one.

- `Path h p xs`: following the links from `p` meets the nodes of `xs` with their elements
  and then a null pointer.
- `path_iff`: the same node by node. A path visits no node twice (`Path.nodup`).
- `append`: walking to the last node and linking a new one there. `append_path` is its
  specification; other lists keep their paths by `Path.congr`.
- `elements`: walking to the end (`elements_path`).
- `findNode`: walking until an element answers (`findNode_path`).
-/

namespace PrplHypervisor.LinkedList

variable {α β ν : Type}

/-- A node. -/
structure Cell (α ν : Type) where
  elem : ν
  next : Option α

/-- The nodes allocated so far, by their addresses. -/
abbrev Cells (α ν : Type) := α → Option (Cell α ν)

/-- The list from `p` has the nodes and elements of `xs`. -/
def Path (h : Cells α ν) : Option α → List (α × ν) → Prop
  | p, [] => p = none
  | p, x :: xs => p = some x.1 ∧ ∃ next, h x.1 = some ⟨x.2, next⟩ ∧ Path h next xs

section Path

variable {h h' : Cells α ν} {p : Option α} {x : α × ν} {xs ys : List (α × ν)}

theorem Path.head (hp : Path h p xs) : p = xs.head?.map Prod.fst := by
  cases xs with
  | nil => exact hp
  | cons x xs => exact hp.1

/-- Node `i` points to node `i + 1`. -/
theorem path_iff : Path h p xs ↔ p = xs.head?.map Prod.fst ∧
    ∀ i x, xs[i]? = some x → h x.1 = some ⟨x.2, xs[i + 1]?.map Prod.fst⟩ := by
  induction xs generalizing p with
  | nil => simp [Path]
  | cons y ys ih =>
    constructor
    · rintro ⟨rfl, next, hy, hrest⟩
      obtain ⟨hnext, hnodes⟩ := ih.mp hrest
      refine ⟨rfl, fun i x hx => ?_⟩
      cases i with
      | zero =>
        obtain rfl := Option.some.inj hx
        rw [hy, hnext, List.getElem?_cons_succ, List.head?_eq_getElem?]
      | succ i => exact hnodes i x hx
    · rintro ⟨rfl, hnodes⟩
      refine ⟨rfl, ys.head?.map Prod.fst, ?_, ih.mpr ⟨rfl, fun i x hx => hnodes (i + 1) x hx⟩⟩
      rw [hnodes 0 y rfl, List.getElem?_cons_succ, List.head?_eq_getElem?]

/-- A path reads its own nodes only. -/
theorem Path.congr (hp : Path h p xs) (hsame : ∀ x ∈ xs, h' x.1 = h x.1) : Path h' p xs := by
  obtain ⟨hhead, hnodes⟩ := path_iff.mp hp
  refine path_iff.mpr ⟨hhead, fun i x hx => ?_⟩
  rw [hsame x (List.mem_of_getElem? hx)]
  exact hnodes i x hx

theorem Path.allocated (hp : Path h p xs) (hx : x ∈ xs) : (h x.1).isSome = true := by
  obtain ⟨i, hi⟩ := List.mem_iff_getElem?.mp hx
  rw [(path_iff.mp hp).2 i x hi]
  rfl

/-- The links decide the path. -/
theorem Path.unique (hp : Path h p xs) (hp' : Path h p ys) : xs = ys := by
  induction xs generalizing p ys with
  | nil =>
    cases ys with
    | nil => rfl
    | cons y ys =>
      obtain rfl : p = none := hp
      cases hp'.1
  | cons x xs ih =>
    obtain ⟨rfl, next, hx, hrest⟩ := hp
    cases ys with
    | nil => cases hp'
    | cons y ys =>
      obtain ⟨heq, next', hy, hrest'⟩ := hp'
      obtain ⟨a, v⟩ := x
      obtain ⟨b, w⟩ := y
      obtain rfl : a = b := Option.some.inj heq
      obtain ⟨rfl, rfl⟩ := Cell.mk.inj (Option.some.inj (hx.symm.trans hy))
      rw [ih hrest hrest']

/-- The rest of a path is the path of its first node. -/
theorem Path.suffix (hp : Path h p (xs ++ x :: ys)) : Path h (some x.1) (x :: ys) := by
  induction xs generalizing p with
  | nil =>
    obtain ⟨-, next, hx, hrest⟩ := hp
    exact ⟨rfl, next, hx, hrest⟩
  | cons y xs ih =>
    obtain ⟨-, next, -, hrest⟩ := hp
    exact ih hrest

/-- A path that ends visits no node twice. -/
theorem Path.nodup (hp : Path h p xs) : (xs.map Prod.fst).Nodup := by
  induction xs generalizing p with
  | nil => exact List.nodup_nil
  | cons x xs ih =>
    obtain ⟨rfl, next, hx, hrest⟩ := hp
    rw [List.map_cons, List.nodup_cons]
    refine ⟨fun hmem => ?_, ih hrest⟩
    -- from the second visit on the path would be shorter
    obtain ⟨y, hy, heq⟩ := List.mem_map.mp hmem
    obtain ⟨s, t, rfl⟩ := List.append_of_mem hy
    have hshort := hrest.suffix
    rw [heq] at hshort
    have hlong : Path h (some x.1) (x :: (s ++ y :: t)) := ⟨rfl, next, hx, hrest⟩
    have hsame := congrArg List.length (hshort.unique hlong)
    rw [List.length_cons, List.length_cons, List.length_append, List.length_cons] at hsame
    omega

end Path

/-! ## Appending -/

/-- The node without a successor, after at most `fuel` nodes. -/
def lastNode (h : Cells α ν) : Nat → α → Option α
  | 0, _ => none
  | fuel + 1, t =>
    match h t with
    | none => none
    | some c =>
      match c.next with
      | none => some t
      | some next => lastNode h fuel next

/-- Link the node `t` with `item` at the end of the list from `lst`. -/
def append [DecidableEq α] (h : Cells α ν) (fuel : Nat) (lst : Option α) (t : α) (item : ν) :
    Option (Cells α ν × Option α) :=
  let h := Function.update h t (some ⟨item, none⟩)
  match lst with
  | none => some (h, some t)
  | some first =>
    match lastNode h fuel first with
    | none => none
    | some last =>
      (h last).map fun c => (Function.update h last (some { c with next := some t }), lst)

section Append

variable {h h' : Cells α ν} {p : Option α} {x : α × ν} {xs : List (α × ν)} {a t : α} {v item : ν}

theorem lastNode_path {fuel : Nat} (hp : Path h (some t) (xs ++ [(a, v)]))
    (hfuel : xs.length < fuel) : lastNode h fuel t = some a := by
  induction xs generalizing t fuel with
  | nil =>
    obtain ⟨heq, next, hx, hnext⟩ := hp
    obtain rfl : t = a := Option.some.inj heq
    obtain rfl : next = none := hnext
    cases fuel with
    | zero => cases hfuel
    | succ fuel => rw [lastNode, hx]
  | cons x xs ih =>
    obtain ⟨heq, next, hx, hrest⟩ := hp
    obtain rfl : t = x.1 := Option.some.inj heq
    cases fuel with
    | zero => cases hfuel
    | succ fuel =>
      have hnext := hrest.head
      have hsome : ∃ b, next = some b := by
        rw [hnext]
        cases xs with
        | nil => exact ⟨a, rfl⟩
        | cons y ys => exact ⟨y.1, rfl⟩
      obtain ⟨b, rfl⟩ := hsome
      rw [lastNode, hx]
      exact ih hrest (Nat.lt_of_succ_lt_succ hfuel)

/-- A list grows by a node when its last node gets a successor without one. -/
theorem Path.extend (hp : Path h p (xs ++ [(a, v)])) (hsame : ∀ x ∈ xs, h' x.1 = h x.1)
    (ha : h' a = some ⟨v, some t⟩) (ht : h' t = some ⟨item, none⟩) :
    Path h' p (xs ++ [(a, v)] ++ [(t, item)]) := by
  induction xs generalizing p with
  | nil => exact ⟨hp.1, some t, ha, rfl, none, ht, rfl⟩
  | cons x xs ih =>
    obtain ⟨heq, next, hx, hrest⟩ := hp
    refine ⟨heq, next, ?_, ih hrest fun y hy => hsame y (List.mem_cons_of_mem _ hy)⟩
    rw [hsame x List.mem_cons_self, hx]

variable [DecidableEq α]

/-- Appending a fresh node. Nodes outside the list stay as they are. -/
theorem append_path {fuel : Nat} (hp : Path h p xs) (hfresh : h t = none)
    (hfuel : xs.length ≤ fuel) (item : ν) : ∃ h' head, append h fuel p t item = some (h', head) ∧
      Path h' head (xs ++ [(t, item)]) ∧ ∀ b, b ≠ t → b ∉ xs.map Prod.fst → h' b = h b := by
  rcases List.eq_nil_or_concat xs with rfl | ⟨init, ⟨a, v⟩, rfl⟩
  · obtain rfl : p = none := hp
    refine ⟨_, some t, rfl, ⟨rfl, none, Function.update_self .., rfl⟩, fun b hb _ => ?_⟩
    exact Function.update_of_ne hb ..
  · rw [List.concat_eq_append] at hp hfuel ⊢
    have hne : ∀ y ∈ init ++ [(a, v)], y.1 ≠ t := by
      intro y hy heq
      have halloc := hp.allocated hy
      rw [heq, hfresh] at halloc
      cases halloc
    have hadded : Path (Function.update h t (some ⟨item, none⟩)) p (init ++ [(a, v)]) :=
      hp.congr fun y hy => Function.update_of_ne (hne y hy) ..
    have hat : a ≠ t := hne (a, v) (List.mem_append_right _ List.mem_cons_self)
    obtain ⟨first, hfirst⟩ : ∃ first, p = some first := by
      rw [hp.head]
      cases init with
      | nil => exact ⟨a, rfl⟩
      | cons y ys => exact ⟨y.1, rfl⟩
    subst hfirst
    rw [List.length_append, List.length_singleton] at hfuel
    have hlast := lastNode_path hadded hfuel
    have hcell : Function.update h t (some ⟨item, none⟩) a = some ⟨v, none⟩ := by
      obtain ⟨-, next, hx, rfl⟩ := hadded.suffix
      exact hx
    refine ⟨Function.update (Function.update h t (some ⟨item, none⟩)) a (some ⟨v, some t⟩),
      some first, ?_, hadded.extend (fun y hy => ?_) (Function.update_self ..) ?_,
      fun b hb hnot => ?_⟩
    · simp only [append, hlast, hcell, Option.map_some]
    · -- the last node comes once
      have hnodup := hp.nodup
      rw [List.map_append, List.nodup_append] at hnodup
      refine Function.update_of_ne ?_ ..
      exact hnodup.2.2 y.1 (List.mem_map_of_mem hy) a List.mem_cons_self
    · rw [Function.update_of_ne (Ne.symm hat), Function.update_self]
    · have hba : b ≠ a := fun heq => hnot (by simp [heq])
      rw [Function.update_of_ne hba, Function.update_of_ne hb]

end Append

/-! ## Traversal -/

/-- The elements of the list from `p`, of at most `fuel` nodes. -/
def elements (h : Cells α ν) : Nat → Option α → Option (List ν)
  | _, none => some []
  | 0, some _ => none
  | fuel + 1, some t => do
    let c ← h t
    let rest ← elements h fuel c.next
    return c.elem :: rest

theorem elements_path {h : Cells α ν} {p : Option α} {xs : List (α × ν)} {fuel : Nat}
    (hp : Path h p xs) (hfuel : xs.length ≤ fuel) :
    elements h fuel p = some (xs.map Prod.snd) := by
  induction xs generalizing p fuel with
  | nil =>
    obtain rfl : p = none := hp
    cases fuel <;> rfl
  | cons x xs ih =>
    obtain ⟨rfl, next, hx, hrest⟩ := hp
    cases fuel with
    | zero => cases hfuel
    | succ fuel =>
      rw [elements, hx, Option.bind_eq_bind, Option.bind_some,
        ih hrest (Nat.le_of_succ_le_succ hfuel)]
      rfl

/-! ## Searching -/

/-- What the first element with an answer answers, among at most `fuel` nodes. -/
def findNode (h : Cells α ν) (f : ν → Option β) : Nat → Option α → Option β
  | 0, _ => none
  | _ + 1, none => none
  | fuel + 1, some t =>
    match h t with
    | none => none
    | some c =>
      match f c.elem with
      | some y => some y
      | none => findNode h f fuel c.next

theorem findNode_path {h : Cells α ν} {p : Option α} {xs : List (α × ν)} (f : ν → Option β)
    {fuel : Nat} (hp : Path h p xs) (hfuel : xs.length < fuel) :
    findNode h f fuel p = (xs.map Prod.snd).findSome? f := by
  induction xs generalizing p fuel with
  | nil =>
    obtain rfl : p = none := hp
    cases fuel with
    | zero => cases hfuel
    | succ fuel => rfl
  | cons x xs ih =>
    obtain ⟨rfl, next, hx, hrest⟩ := hp
    cases fuel with
    | zero => cases hfuel
    | succ fuel =>
      rw [findNode, hx, List.map_cons, List.findSome?_cons]
      dsimp only
      cases f x.2 with
      | some y => rfl
      | none => exact ih hrest (Nat.lt_of_succ_lt_succ hfuel)

end PrplHypervisor.LinkedList
