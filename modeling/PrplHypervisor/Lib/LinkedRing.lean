import Mathlib.Data.Finset.Max
import Mathlib.Data.List.Cycle

/-!
# Rings of links in address order

A circular linked list is a successor function `next` together with a `Cycle` of
nodes, each the successor of the one before. Nodes are ordered by address; the
ring climbs and falls back once.

- `Linked next c`: the nodes of `c` are linked in this cyclic order.
- `Linked.insert`, `Linked.remove`: linking a node in behind `p` and unlinking
  the node behind `p`, as conditions on the new successor function.
- `Ascending c`: some node of `c` is its lowest and from there addresses increase.
- `Gap p q b`: the place for address `b` is between `p` and its successor `q`,
  either in the middle of the ring or where it falls back. `Ascending.insert`
  keeps the order, `Ascending.exists_gap` finds a gap for every new address.
-/

namespace PrplHypervisor.LinkedRing

variable {α : Type}

/-- Each node of `c` is linked to the one after it. -/
def Linked (next : α → α) (c : Cycle α) : Prop := c.Chain fun a b => next a = b

section Linked

variable {next next' : α → α} {p q b : α} {zs : List α}

theorem linked_cons :
    Linked next (p :: zs : List α) ↔ (p :: (zs ++ [p])).IsChain fun a b => next a = b :=
  Iff.rfl

theorem linked_singleton : Linked next ([p] : List α) ↔ next p = p := Cycle.chain_singleton _ p

/-- A chain up to `p` reads the links of the nodes before `p` only. -/
theorem isChain_congr (h : (zs ++ [p]).IsChain fun a b => next a = b)
    (hz : ∀ z ∈ zs, next' z = next z) : (zs ++ [p]).IsChain fun a b => next' a = b := by
  induction zs with
  | nil => exact List.isChain_singleton p
  | cons z zs ih =>
    rw [List.cons_append, List.isChain_cons] at h ⊢
    refine ⟨fun y hy => ?_, ih h.2 fun x hx => hz x (List.mem_cons_of_mem _ hx)⟩
    rw [hz z List.mem_cons_self]
    exact h.1 y hy

/-- The successor of the head is the node behind it. -/
theorem Linked.next_eq (h : Linked next (p :: q :: zs : List α)) : next p = q := by
  rw [linked_cons, List.cons_append, List.isChain_cons_cons] at h
  exact h.1

/-- A ring reads the links of its own nodes only. -/
theorem Linked.congr {fs : List α} (h : Linked next (fs : List α))
    (hfs : ∀ a ∈ fs, next' a = next a) : Linked next' (fs : List α) := by
  cases fs with
  | nil => exact h
  | cons a l => exact isChain_congr h hfs

/-- Linking `b` in behind `p`. -/
theorem Linked.insert (h : Linked next (p :: zs : List α)) (hp : next' p = b)
    (hb : next' b = next p) (hz : ∀ z ∈ zs, next' z = next z) :
    Linked next' (p :: b :: zs : List α) := by
  rw [linked_cons, List.isChain_cons] at h
  rw [linked_cons, List.cons_append, List.isChain_cons_cons, List.isChain_cons]
  refine ⟨hp, fun y hy => ?_, isChain_congr h.2 hz⟩
  rw [hb]
  exact h.1 y hy

/-- Unlinking the node behind `p`. -/
theorem Linked.remove (h : Linked next (p :: q :: zs : List α)) (hp : next' p = next q)
    (hz : ∀ z ∈ zs, next' z = next z) : Linked next' (p :: zs : List α) := by
  rw [linked_cons, List.cons_append, List.isChain_cons_cons, List.isChain_cons] at h
  rw [linked_cons, List.isChain_cons]
  refine ⟨fun y hy => ?_, isChain_congr h.2.2 hz⟩
  rw [hp]
  exact h.2.1 y hy

theorem Linked.rotate {fs gs : List α} (h : Linked next fs) (hr : fs ~r gs) : Linked next gs := by
  rwa [← Cycle.coe_eq_coe.mpr hr]

/-- A ring can be read from any of its nodes. -/
theorem exists_rotated_cons {fs : List α} (hp : p ∈ fs) : ∃ zs, fs ~r (p :: zs) := by
  obtain ⟨s, t, rfl⟩ := List.append_of_mem hp
  exact ⟨t ++ s, List.isRotated_append⟩

/-- A node is alone on its ring and linked to itself, or its successor is the next node. -/
theorem Linked.cases_mem {fs : List α} (h : Linked next fs) (hp : p ∈ fs) :
    (fs = [p] ∧ next p = p) ∨ ∃ zs, fs ~r (p :: next p :: zs) := by
  obtain ⟨zs, hr⟩ := exists_rotated_cons hp
  have hl := h.rotate hr
  cases zs with
  | nil => exact Or.inl ⟨List.isRotated_singleton_iff.mp hr, linked_singleton.mp hl⟩
  | cons q zs =>
    refine Or.inr ⟨zs, ?_⟩
    rwa [hl.next_eq]

theorem Linked.mem_next {fs : List α} (h : Linked next fs) (hp : p ∈ fs) : next p ∈ fs := by
  rcases h.cases_mem hp with ⟨-, hself⟩ | ⟨zs, hr⟩
  · rwa [hself]
  · exact hr.mem_iff.mpr (List.mem_cons_of_mem _ List.mem_cons_self)

end Linked

section Ascending

variable [LinearOrder α] {next : α → α} {p q b : α} {zs fs : List α}

/-- Read from its lowest node, the ring climbs. -/
def Ascending (fs : List α) : Prop := ∃ gs, gs ~r fs ∧ gs.Pairwise (· < ·)

/-- `b` belongs between `p` and its successor `q`: inside a climb, or where the
ring falls back and `b` is beyond its highest or below its lowest node. -/
def Gap (p q b : α) : Prop := (p < b ∧ b < q) ∨ (q ≤ p ∧ (p < b ∨ b < q))

instance (p q b : α) : Decidable (Gap p q b) := by
  unfold Gap
  infer_instance

theorem Ascending.rotate {gs : List α} (h : Ascending fs) (hr : fs ~r gs) : Ascending gs := by
  obtain ⟨ls, hls, hlt⟩ := h
  exact ⟨ls, hls.trans hr, hlt⟩

/-- The sorted reading of a ring, seen from one of its nodes. -/
theorem Ascending.split (h : Ascending (p :: zs)) :
    ∃ s t, zs = t ++ s ∧ (s ++ p :: t).Pairwise (· < ·) := by
  obtain ⟨gs, ⟨n, hn⟩, hlt⟩ := h
  have hrot : gs.drop (n % gs.length) ++ gs.take (n % gs.length) = p :: zs := by
    rw [← List.rotate_eq_drop_append_take_mod, hn]
  have hgs : gs.take (n % gs.length) ++ gs.drop (n % gs.length) = gs := List.take_append_drop _ _
  generalize gs.drop (n % gs.length) = u, gs.take (n % gs.length) = v at hrot hgs
  subst hgs
  cases u with
  | nil =>
    refine ⟨[], zs, (List.append_nil zs).symm, ?_⟩
    rwa [List.append_nil, show v = p :: zs from hrot] at hlt
  | cons x t =>
    obtain ⟨rfl, rfl⟩ := List.cons.inj hrot
    exact ⟨v, t, rfl, hlt⟩

/-- The two readings of a split ring. -/
theorem ascending_of_split {s t : List α} (h : (s ++ p :: t).Pairwise (· < ·)) :
    Ascending (p :: (t ++ s)) := ⟨s ++ p :: t, List.isRotated_append, h⟩

/-- In a list that climbs, a relation of earlier to later nodes relates lower to higher ones. -/
theorem pairwise_of_lt {R : α → α → Prop} (h : fs.Pairwise R) (hlt : ∀ a b, R a b → a < b)
    {a b : α} (ha : a ∈ fs) (hb : b ∈ fs) (hab : a < b) : R a b := by
  induction h with
  | nil => exact absurd ha List.not_mem_nil
  | cons hhead _ ih =>
    rcases List.mem_cons.mp ha with rfl | hat
    · rcases List.mem_cons.mp hb with rfl | hbt
      · exact absurd hab (lt_irrefl _)
      · exact hhead b hbt
    · rcases List.mem_cons.mp hb with rfl | hbt
      · exact absurd hab (hlt _ _ (hhead a hat)).not_gt
      · exact ih hat hbt

theorem Ascending.nodup (h : Ascending fs) : fs.Nodup := by
  obtain ⟨gs, hr, hlt⟩ := h
  exact hr.nodup_iff.mp (hlt.imp ne_of_lt)

/-- Unlinking a node keeps the order. -/
theorem Ascending.remove (h : Ascending (p :: q :: zs)) : Ascending (p :: zs) := by
  obtain ⟨s, t, hz, hlt⟩ := h.split
  cases t with
  | nil =>
    rw [List.nil_append] at hz
    subst hz
    have := ascending_of_split (hlt.sublist (List.sublist_cons_self _ _))
    exact this
  | cons x t =>
    obtain ⟨rfl, rfl⟩ := List.cons.inj hz
    refine ascending_of_split (hlt.sublist ?_)
    exact (List.sublist_cons_self q t).cons_cons p |>.append_left s

/-- Behind the highest node comes the lowest. -/
theorem Linked.next_le {s : List α} (hl : Linked next (p :: s : List α))
    (hlt : (s ++ [p]).Pairwise (· < ·)) : ∀ x ∈ s ++ [p], next p ≤ x := by
  rw [linked_cons, List.isChain_cons] at hl
  cases s with
  | nil =>
    intro x hx
    rw [List.mem_singleton.mp hx]
    exact (hl.1 p rfl).le
  | cons y s =>
    intro x hx
    rw [hl.1 y rfl]
    rcases List.mem_cons.mp hx with rfl | hx
    · exact le_refl _
    · exact ((List.pairwise_cons.mp hlt).1 x hx).le

/-- Linking in at a gap keeps the order. -/
theorem Ascending.insert (h : Ascending (p :: zs)) (hl : Linked next (p :: zs : List α))
    (hb : Gap p (next p) b) : Ascending (p :: b :: zs) := by
  obtain ⟨s, t, rfl, hlt⟩ := h.split
  cases t with
  | nil =>
    -- `p` is the highest node, so the gap is where the ring falls back
    have hle := hl.next_le hlt
    have hp : next p ≤ p := hle p (List.mem_append_right _ (List.mem_singleton_self p))
    have hout : p < b ∨ b < next p := by
      rcases hb with ⟨h1, -⟩ | ⟨-, h2⟩
      · exact Or.inl h1
      · exact h2
    rcases hout with hpb | hbn
    · refine ascending_of_split (t := [b]) ?_
      rw [← List.singleton_append, ← List.append_assoc]
      refine List.pairwise_append.mpr ⟨hlt, List.pairwise_singleton _ _, ?_⟩
      intro x hx y hy
      rw [List.mem_singleton.mp hy]
      rcases List.mem_append.mp hx with hxs | hxp
      · exact ((List.pairwise_append.mp hlt).2.2 x hxs p (List.mem_singleton_self p)).trans hpb
      · rwa [List.mem_singleton.mp hxp]
    · refine ascending_of_split (s := b :: s) (t := []) ?_
      exact List.Pairwise.cons (fun x hx => hbn.trans_le (hle x hx)) hlt
  | cons q t =>
    -- the successor is higher, so the gap is inside a climb
    have hq : next p = q := hl.next_eq
    obtain ⟨hs, hpt, hcross⟩ := List.pairwise_append.mp hlt
    obtain ⟨hp, hqt⟩ := List.pairwise_cons.mp hpt
    have hpq : p < q := hp q List.mem_cons_self
    rw [hq] at hb
    obtain ⟨hpb, hbq⟩ : p < b ∧ b < q := by
      rcases hb with h1 | ⟨h2, -⟩
      · exact h1
      · exact absurd hpq h2.not_gt
    have hbt : ∀ x ∈ q :: t, b < x := by
      intro x hx
      rcases List.mem_cons.mp hx with rfl | hx
      · exact hbq
      · exact hbq.trans ((List.pairwise_cons.mp hqt).1 x hx)
    refine ascending_of_split (t := b :: q :: t) (List.pairwise_append.mpr ⟨hs, ?_, ?_⟩)
    · refine List.Pairwise.cons (fun x hx => ?_) (List.Pairwise.cons hbt hqt)
      rcases List.mem_cons.mp hx with rfl | hx
      · exact hpb
      · exact hp x hx
    · intro x hx y hy
      have hxp := hcross x hx p List.mem_cons_self
      rcases List.mem_cons.mp hy with rfl | hy
      · exact hxp
      · rcases List.mem_cons.mp hy with rfl | hy
        · exact hxp.trans hpb
        · exact hcross x hx y (List.mem_cons_of_mem _ hy)

/-- The successor of the highest node, and of every other one. -/
theorem Ascending.next_cases (h : Ascending fs) (hl : Linked next (fs : List α)) (hp : p ∈ fs) :
    (next p ≤ p ∧ ∀ x ∈ fs, x ≤ p) ∨ p < next p := by
  obtain ⟨zs, hr⟩ := exists_rotated_cons hp
  have hl' := hl.rotate hr
  obtain ⟨s, t, rfl, hlt⟩ := (h.rotate hr).split
  cases t with
  | nil =>
    refine Or.inl ⟨hl'.next_le hlt p (List.mem_append_right _ (List.mem_singleton_self p)), ?_⟩
    intro x hx
    rcases List.mem_cons.mp (hr.mem_iff.mp hx) with rfl | hx
    · exact le_refl _
    · exact ((List.pairwise_append.mp hlt).2.2 x hx p (List.mem_singleton_self p)).le
  | cons q t =>
    refine Or.inr ?_
    rw [hl'.next_eq]
    exact (List.pairwise_cons.mp (List.pairwise_append.mp hlt).2.1).1 q List.mem_cons_self

/-- There is a gap for every address that is not on the ring: behind the highest
node below it, or behind the highest node of all. -/
theorem Ascending.exists_gap (h : Ascending fs) (hl : Linked next (fs : List α)) (hne : fs ≠ [])
    (hb : b ∉ fs) : ∃ p ∈ fs, Gap p (next p) b := by
  by_cases hlow : (fs.toFinset.filter (· < b)).Nonempty
  · obtain ⟨p, hp, hmax⟩ := Finset.exists_max_image _ id hlow
    obtain ⟨hpf, hpb⟩ : p ∈ fs ∧ p < b := by simpa using hp
    refine ⟨p, hpf, ?_⟩
    rcases h.next_cases hl hpf with ⟨hback, -⟩ | hclimb
    · exact Or.inr ⟨hback, Or.inl hpb⟩
    · have hn := hl.mem_next hpf
      have hbn : b ≠ next p := fun e => hb (e ▸ hn)
      refine Or.inl ⟨hpb, (lt_or_gt_of_ne hbn).resolve_right fun hnb => ?_⟩
      exact absurd hclimb (hmax (next p) (by simp [hn, hnb])).not_gt
  · obtain ⟨p, hp, hmax⟩ := Finset.exists_max_image fs.toFinset id (by simpa using hne)
    have hpf : p ∈ fs := List.mem_toFinset.mp hp
    have hn := hl.mem_next hpf
    have hback : next p ≤ p := hmax (next p) (List.mem_toFinset.mpr hn)
    have hbn : b ≠ next p := fun e => hb (e ▸ hn)
    refine ⟨p, hpf, Or.inr ⟨hback, Or.inr ((lt_or_gt_of_ne hbn).resolve_right fun hnb => ?_)⟩⟩
    exact hlow ⟨next p, by simp [hn, hnb]⟩

end Ascending

end PrplHypervisor.LinkedRing
