import PrplHypervisor.Heap.GuestSweep

/-!
# The heaps a guest program reaches

A program calls `malloc` and `free` and writes into the blocks it holds. As long as
no request strays from the block list, there is a list of the blocks after each of
these steps, and the blocks the program holds are used ones of it.

- `sweep_left`: the list a search leaves when its block has been split.
- `GuestHeap.Holds`: the block list with the blocks the program holds.
- `Reached.holds`: every heap that is reached has both.
-/

namespace PrplHypervisor

open Word32 Layout LinkedRing

namespace GuestHeap

variable {g h h' : GuestHeap} {ps us fs rest : List Nat} {m p q e : Nat}

/-! ## The list afterwards -/

/-- A split writes its two headers. -/
theorem splitBlock_apply_of_ne {x : Nat} (hx : x ≠ q) (hx4 : x ≠ add32 q 4)
    (hr : x ≠ add32 (add32 q m) 8) (hr4 : x ≠ add32 (add32 (add32 q m) 8) 4) :
    (h.splitBlock m q).mem x = h.mem x := by
  simp only [splitBlock, GuestHeap.setNext, GuestHeap.setSize, Function.update_of_ne hx,
    Function.update_of_ne hx4, Function.update_of_ne hr, Function.update_of_ne hr4]

section Split

variable (hroom : q + m + 16 < 2 ^ 32)
include hroom

theorem splitBlock_apply {x : Nat} (hx : x < q ∨ q + 8 ≤ x ∧ x < q + m + 8 ∨ q + m + 16 ≤ x) :
    (h.splitBlock m q).mem x = h.mem x := by
  have hfield : add32 q 4 = q + 4 := u32_of_lt (by omega)
  have hrest : add32 (add32 q m) 8 = q + m + 8 := by
    rw [add32, add32, u32_of_lt (show q + m < 2 ^ 32 by omega), u32_of_lt (by omega)]
  have hrest4 : add32 (add32 (add32 q m) 8) 4 = q + m + 12 := by
    rw [hrest, add32, u32_of_lt (by omega)]
  exact splitBlock_apply_of_ne (by omega) (by omega) (by omega) (by omega)

/-- The two headers a split writes. -/
theorem splitBlock_headers : (h.splitBlock m q).next q = q + m + 8 ∧
    (h.splitBlock m q).size q = m ||| 1 ∧
    (h.splitBlock m q).next (q + m + 8) = h.next q ∧
    (h.splitBlock m q).size (q + m + 8) = sub32 (sub32 (h.size q / 2 * 2) m) 8 := by
  have hfield : add32 q 4 = q + 4 := u32_of_lt (by omega)
  have hrest : add32 (add32 q m) 8 = q + m + 8 := by
    rw [add32, add32, u32_of_lt (show q + m < 2 ^ 32 by omega), u32_of_lt (by omega)]
  have hrest4 : add32 (q + m + 8) 4 = q + m + 12 := u32_of_lt (by omega)
  refine ⟨?_, ?_, ?_, ?_⟩ <;>
    simp only [splitBlock, GuestHeap.next, GuestHeap.size, GuestHeap.setNext, GuestHeap.setSize,
      hfield, hrest, hrest4, Function.update_self,
      Function.update_of_ne (show q ≠ q + 4 by omega),
      Function.update_of_ne (show q ≠ q + m + 8 by omega),
      Function.update_of_ne (show q ≠ q + m + 12 by omega),
      Function.update_of_ne (show q + 4 ≠ q + m + 8 by omega),
      Function.update_of_ne (show q + 4 ≠ q + m + 12 by omega),
      Function.update_of_ne (show q + m + 8 ≠ q + m + 12 by omega)]

/-- The rest of the block that is split is free, and the list goes on behind it. -/
theorem splitBlock_trail (hq : InRam q) (hm : m % 4 = 0) {xs : List Nat}
    (hxs : xs = [] ∨ ∃ e rest, xs = e :: rest ∧ h.next q = e ∧ q + m + 16 ≤ e ∧ h.Trail xs) :
    (h.splitBlock m q).Trail (q :: (q + m + 8) :: xs) := by
  obtain ⟨hnext, hsize, hnext', hsize'⟩ := splitBlock_headers (h := h) hroom
  have hq' : InRam (q + m + 8) := by
    unfold InRam at hq ⊢
    omega
  have hfree : ¬ (h.splitBlock m q).used (q + m + 8) := by
    unfold used
    rw [hsize']
    unfold sub32 u32
    omega
  refine .cons hq hnext (by omega) (fun _ => ?_) ?_
  · rw [hsize, or_one_half]
    omega
  · rcases hxs with rfl | ⟨e, rest, rfl, hlink, hle, ht⟩
    · exact .last hq' hfree
    · refine .cons hq' (hnext'.trans hlink) (by omega) (fun hu => absurd hu hfree) (ht.congr ?_)
      intro x hx
      have := ht.head_le x hx
      have hram := ht.inRam x hx
      rw [hram.size_eq, hram.size_eq]
      exact ⟨splitBlock_apply hroom (by omega), splitBlock_apply hroom (by omega)⟩

end Split

/-- A used block keeps its header. -/
theorem KeepsUsed.header (hk : g.KeepsUsed ps h) (ht : g.Trail ps) {u : Nat} (hu : u ∈ ps)
    (hused : g.used u) : h.next u = g.next u ∧ h.size u = g.size u := by
  have hram := ht.inRam u hu
  rw [hram.size_eq, hram.size_eq]
  exact ⟨hk.apply ht hu hused (le_refl u) (by omega),
    hk.apply ht hu hused (by omega) (by omega)⟩

/-- What lies in `m` bytes behind the header of `q`, or in the header behind them, is
no part of a used block, even where the addresses wrap. -/
theorem Fits.outside (hf : g.Fits ps m q) (ht : g.Trail ps) (hm : m ≤ 2 ^ 31) {u : Nat}
    (hu : u ∈ ps) (hused : g.used u) {k : Nat} (hk : k ≤ m + 4) :
    add32 (q + 8) k < u ∨ u + 8 + g.size u / 2 * 2 ≤ add32 (q + 8) k := by
  obtain ⟨hlo, hhi, -⟩ := ht.inRam u hu
  obtain ⟨hloq, hhiq, -⟩ := ht.inRam q hf.mem
  have hne : q ≠ u := fun e => hf.free (e ▸ hused)
  unfold add32 u32
  rcases Nat.lt_or_gt_of_ne hne with hlt | hlt
  · have := hf.room u hu hused hlt
    omega
  · have := (ht.stop_le hu hf.mem hlt).2 hused
    omega

/-- Splitting a free block leaves the used ones alone. -/
theorem Fits.splitBlock_apply (hf : g.Fits ps m q) (ht : g.Trail ps) (hk : g.KeepsUsed ps h)
    (hm : m ≤ 2 ^ 31) {u x : Nat} (hu : u ∈ ps) (hused : g.used u) (hx : u ≤ x)
    (hx' : x < u + 8 + g.size u / 2 * 2) : (h.splitBlock m q).mem x = g.mem x := by
  have hhiq := (ht.inRam q hf.mem).2.1
  have hfield : add32 q 4 = q + 4 := u32_of_lt (by omega)
  have hrest : add32 (add32 q m) 8 = add32 (q + 8) m := by
    unfold add32 u32
    omega
  have hrest4 : add32 (add32 (add32 q m) 8) 4 = add32 (q + 8) (m + 4) := by
    unfold add32 u32
    omega
  have hout := hf.outside ht hm hu hused (show m ≤ m + 4 by omega)
  have hout4 := hf.outside ht hm hu hused (le_refl (m + 4))
  have hne : x ≠ q ∧ x ≠ q + 4 := by
    have hqu : q ≠ u := fun e => hf.free (e ▸ hused)
    rcases Nat.lt_or_gt_of_ne hqu with hlt | hlt
    · have := (ht.stop_le hf.mem hu hlt).1
      omega
    · have := (ht.stop_le hu hf.mem hlt).2 hused
      omega
  rw [splitBlock_apply_of_ne hne.1 (by omega) (by omega) (by omega)]
  exact hk.apply ht hu hused hx hx'

/-- The heap `malloc` leaves when its search has ended in `h`. -/
def after (m : Nat) (h : GuestHeap) : Option Nat → GuestHeap
  | none => h
  | some q => h.splitBlock m q

/-- `ys` is a list of the blocks `malloc` leaves of `xs`: the used ones and the new one
are among them. -/
structure Left (g h : GuestHeap) (xs : List Nat) (found : Option Nat) (ys : List Nat) : Prop where
  head : ys.head? = xs.head?
  trail : h.Trail ys
  used : ∀ u ∈ xs, g.used u → u ∈ ys
  new : ∀ q, found = some q → q ∈ ys

theorem after_apply {found : Option Nat} {x : Nat}
    (hroom : ∀ q, found = some q → q + m + 16 < 2 ^ 32)
    (hx : ∀ q, found = some q → x < q) : (after m h found).mem x = h.mem x := by
  cases found with
  | none => rfl
  | some q => exact splitBlock_apply (hroom q rfl) (Or.inl (hx q rfl))

theorem head?_append_cons (us xs ys : List Nat) (q : Nat) :
    (us ++ q :: xs).head? = (us ++ q :: ys).head? := by
  cases us <;> rfl

/-- The list behind the split of `q`: the blocks before it, itself, the rest and `zs`. -/
theorem Trail.left_split {xs zs : List Nat} (ht : h.Trail (us ++ q :: xs))
    (hus : ∀ u ∈ us, h.used u) (hfree : ¬ h.used q) (hxs : ∀ x ∈ xs, h.used x → x ∈ zs)
    {h₁ : GuestHeap} (hk : h.KeepsUsed (us ++ q :: xs) h₁) (hm4 : m % 4 = 0)
    (hroom : q + m + 16 < 2 ^ 32) (hzs : zs = [] ∨
      ∃ e rest, zs = e :: rest ∧ h₁.next q = e ∧ q + m + 16 ≤ e ∧ h₁.Trail zs) :
    Left h (h₁.splitBlock m q) (us ++ q :: xs) (some q) (us ++ q :: (q + m + 8) :: zs) where
  head := head?_append_cons us _ _ q
  trail := by
    refine ht.splice (fun a ha => ?_) (splitBlock_trail hroom (ht.inRam q (by simp)) hm4 hzs)
    have hlow := ht.cut.1 a ha
    have hram := ht.inRam a (by simp [ha])
    rw [← (hk.header ht (by simp [ha]) (hus a ha)).1, ← (hk.header ht (by simp [ha]) (hus a ha)).2,
      hram.size_eq, hram.size_eq]
    exact ⟨splitBlock_apply hroom (by omega), splitBlock_apply hroom (by omega)⟩
  used u hu hused := by
    rcases List.mem_append.mp hu with hu | hu
    · simp [hu]
    · rcases List.mem_cons.mp hu with rfl | hu
      · exact absurd hused hfree
      · simp [hxs u hu hused]
  new q' hq' := by
    obtain rfl := Option.some.inj hq'
    simp

/-- The used blocks of a list are in front of the run or behind it. -/
theorem mem_of_used (hfree : ¬ h.used q) (hfs : ∀ f ∈ fs, ¬ h.used f) {u : Nat}
    (hu : u ∈ us ++ q :: (fs ++ e :: rest)) (hused : h.used u) : u ∈ us ∨ u ∈ e :: rest := by
  rcases List.mem_append.mp hu with hu | hu
  · exact Or.inl hu
  · rcases List.mem_cons.mp hu with rfl | hu
    · exact absurd hused hfree
    · exact Or.inr ((List.mem_append.mp hu).resolve_left fun hu => hfs u hu hused)

/-- The list behind a search that goes on behind a run. -/
theorem Trail.left_trans (ht : h.Trail (us ++ q :: (fs ++ e :: rest))) (hfree : ¬ h.used q)
    (hfs : ∀ f ∈ fs, ¬ h.used f) {h' : GuestHeap} {found : Option Nat} {ys : List Nat}
    (hsame : ∀ x < e, h'.mem x = (h.joined q e).mem x)
    (hys : Left (h.joined q e) h' (e :: rest) found ys) :
    Left h h' (us ++ q :: (fs ++ e :: rest)) found (us ++ q :: ys) where
  head := head?_append_cons us _ _ q
  trail := by
    obtain ⟨zs, rfl⟩ := List.head?_eq_some_iff.mp hys.head
    have hjoined : (h.joined q e).Trail ((us ++ [q]) ++ e :: rest) := by
      simpa using ht.joined
    have hsplice : h'.Trail ((us ++ [q]) ++ e :: zs) := hjoined.splice (fun a ha => by
      have hlow := hjoined.cut.1 a ha
      have hram := hjoined.inRam a (List.mem_append_left _ ha)
      rw [hram.size_eq, hram.size_eq]
      exact ⟨hsame a (by omega), hsame (a + 4) (by omega)⟩) hys.trail
    simpa using hsplice
  used u hu hused := by
    rcases mem_of_used hfree hfs hu hused with hu | hu
    · simp [hu]
    · simp [hys.used u hu ((ht.joined_used hu).mpr hused)]
  new q' hq' := by
    simp [hys.new q' hq']

/-- The block list behind a search that does not stray, as long as the header of the
rest lies in the address space. -/
theorem sweep_left (hm : m ≤ 2 ^ 31) (hm4 : m % 4 = 0) {fuel : Nat} {h₁ : GuestHeap}
    {found : Option Nat} (ht : h.Trail (p :: rest))
    (hps : ∀ x ∈ ps, InRam x ∧ (x ∈ p :: rest ∨ x < p)) (hns : ¬ Strays ps m h p)
    (heq : sweep m fuel h p = some (h₁, found))
    (hroom : ∀ q, found = some q → q + m + 16 < 2 ^ 32) :
    ∃ ys, Left h (after m h₁ found) (p :: rest) found ys := by
  induction fuel generalizing h p rest with
  | zero => cases heq
  | succ fuel ih =>
    have hround := sweep_round hm ht hps hns heq
    have hle := ht.head_le
    generalize p :: rest = xs at ht hps hround hle ⊢
    cases hround with
    | @fresh p hnull =>
      cases ht with
      | last hp hfree =>
        have ht : h₁.Trail ([] ++ [p]) := .last hp hfree
        exact ⟨_, ht.left_split (by simp) hfree (by simp) (.refl _ _) hm4 (hroom p rfl)
          (Or.inl rfl)⟩
    | @last us fs q e hus hfree hfs hends =>
      have hk : h.KeepsUsed (us ++ q :: fs) (h.joined q e) :=
        .joined (ht.inRam q (by simp)) (by simp) hfree
      exact ⟨_, ht.left_split hus hfree (fun x hx hu => absurd hu (hfs x hx)) hk hm4 (hroom q rfl)
        (Or.inl rfl)⟩
    | @none us fs q e hus hfree hfs hlast hshort =>
      refine ⟨us ++ [q, e], head?_append_cons us _ _ q, ht.joined, fun u hu hused => ?_, by simp⟩
      rcases mem_of_used hfree hfs hu hused with hu | hu
      · simp [hu]
      · simp [List.mem_singleton.mp hu]
    | @fits us fs rest q e hus hfree hfs hle' =>
      have hk : h.KeepsUsed (us ++ q :: (fs ++ e :: rest)) (h.joined q e) :=
        .joined (ht.inRam q (by simp)) (by simp) hfree
      refine ⟨_, ht.left_split hus hfree (fun x hx hu => ?_) hk hm4 (hroom q rfl)
        (Or.inr ⟨e, rest, rfl, next_joined q e, hle', ht.tail.congr ht.joined_behind⟩)⟩
      exact (List.mem_append.mp hx).resolve_left fun hx => hfs x hx hu
    | @short us fs rest q e _ _ hus hfree hfs hused hrest hshort hns' hsweep =>
      have ht' := ht.tail.congr ht.joined_behind
      have hps' := ht.bounds_tail (hle q (by simp)) hps
      obtain ⟨ys, hys⟩ := ih ht' hps' hns' hsweep
      obtain ⟨hk, hfound⟩ := sweep_spec hm ht' hps' hns' hsweep
      refine ⟨us ++ q :: ys, ht.left_trans hfree hfs (fun x hx => ?_) hys⟩
      rw [after_apply hroom fun q' hq' => ?_, hk.mem x fun f hf _ => ?_]
      · have := ht.tail.head_le f hf
        omega
      · subst hq'
        have := ht.tail.head_le q' hfound.1.mem
        omega

/-! ## Heaps that are reached -/

/-- The blocks of a heap, and among the used ones those the program holds. -/
structure Holds (g : GuestHeap) (ps live : List Nat) : Prop where
  blocks : g.Blocks ps
  owned : ∀ ptr ∈ live, ∃ u ∈ ps, g.used u ∧ ptr = u + 8
  nodup : live.Nodup

/-- What a program can make of the heap: it frees blocks it holds and writes into them.
Its requests do not stray, and the blocks they get lie in the address space. -/
inductive Reached (sym : GuestHeapSymbols) (mem : Nat → Nat) : GuestHeap → List Nat → Prop
  | boot : Reached sym mem (GuestState.boot sym mem).heap []
  | malloc {g g₁ : GuestHeap} {live ps : List Nat} {size r : Nat} : Reached sym mem g live →
      g.Holds ps live → ¬ Strays ps (align4 size) g g.krnlHeap → align4 size ≤ 2 ^ 31 →
      g.malloc size = some (g₁, r) → r + align4 size + 8 < 2 ^ 32 →
      Reached sym mem g₁ (if r = 0 then live else r :: live)
  | free {g : GuestHeap} {live : List Nat} {ptr : Nat} : Reached sym mem g live → ptr ∈ live →
      Reached sym mem (g.free ptr) (live.erase ptr)
  | write {g g' : GuestHeap} {live : List Nat} {ptr : Nat} : Reached sym mem g live →
      ptr ∈ live → (∀ x, ¬ (g.payload ptr).Contains x → g'.mem x = g.mem x) →
      g'.krnlHeap = g.krnlHeap → Reached sym mem g' live

theorem Trail.usable_eq (ht : g.Trail ps) {u : Nat} (hu : u ∈ ps) :
    g.usable (u + 8) = g.size u / 2 * 2 := by
  rw [usable, (ht.inRam u hu).header_eq]

theorem free_apply {ptr x : Nat} (hx : x ≠ add32 (sub32 ptr 8) 4) :
    (h.free ptr).mem x = h.mem x := by
  simp only [free, GuestHeap.setSize, Function.update_of_ne hx]

theorem Holds.boot (sym : GuestHeapSymbols) (mem : Nat → Nat) (hstart : 0x80000000 ≤ sym.start) :
    (GuestState.boot sym mem).heap.Holds [heapBase sym] [] where
  blocks := ⟨rfl, .last (by
    have hin := sym.inRam
    have hsize := sym.headers
    have hbase := heapBase_eq sym
    unfold InRam
    omega) (by
    have hlen := heapLen_eq sym
    rw [used, size_boot]
    omega)⟩
  owned := by simp
  nodup := List.nodup_nil

theorem Holds.write {g' : GuestHeap} {live : List Nat} {ptr : Nat} (hh : g.Holds ps live)
    (hptr : ptr ∈ live) (hmem : ∀ x, ¬ (g.payload ptr).Contains x → g'.mem x = g.mem x)
    (hheap : g'.krnlHeap = g.krnlHeap) : g'.Holds ps live := by
  obtain ⟨u, hu, hused, rfl⟩ := hh.owned ptr hptr
  have ht := hh.blocks.trail
  have hheader : ∀ p ∈ ps, g'.next p = g.next p ∧ g'.size p = g.size p := by
    intro p hp
    have hram := ht.inRam p hp
    have hout : ∀ x, p ≤ x → x < p + 8 → ¬ (g.payload (u + 8)).Contains x := by
      intro x hx hx'
      unfold payload Region.Contains Region.stop
      rw [ht.usable_eq hu]
      dsimp only
      rcases Nat.lt_trichotomy p u with hlt | rfl | hlt
      · have := (ht.stop_le hp hu hlt).1
        omega
      · omega
      · have := (ht.stop_le hu hp hlt).2 hused
        omega
    rw [hram.size_eq, hram.size_eq]
    exact ⟨hmem p (hout p (le_refl p) (by omega)), hmem (p + 4) (hout _ (by omega) (by omega))⟩
  refine ⟨⟨hheap ▸ hh.blocks.first, ht.congr hheader⟩, fun ptr' hptr' => ?_, hh.nodup⟩
  obtain ⟨v, hv, hvused, rfl⟩ := hh.owned ptr' hptr'
  refine ⟨v, hv, ?_, rfl⟩
  rw [used, (hheader v hv).2]
  exact hvused

/-- `free` changes the size of its block. -/
theorem size_free {u : Nat} (hu : InRam u) : (g.free (u + 8)).size u = g.size u / 2 * 2 := by
  rw [GuestHeap.size, free, hu.header_eq]
  exact Function.update_self _ _ _

theorem free_header {u : Nat} (hu : InRam u) (hp : InRam p) (hapart : p + 8 ≤ u ∨ u + 8 ≤ p) :
    (g.free (u + 8)).next p = g.next p ∧ (g.free (u + 8)).size p = g.size p := by
  have hfield := hu.field_eq
  rw [hp.size_eq, hp.size_eq]
  exact ⟨free_apply (by omega), free_apply (by omega)⟩

theorem Holds.free {live : List Nat} {ptr : Nat} (hh : g.Holds ps live) (hptr : ptr ∈ live) :
    (g.free ptr).Holds ps (live.erase ptr) := by
  obtain ⟨u, hu, hused, rfl⟩ := hh.owned ptr hptr
  have ht := hh.blocks.trail
  have hramu := ht.inRam u hu
  have hother : ∀ p ∈ ps, p ≠ u →
      (g.free (u + 8)).next p = g.next p ∧ (g.free (u + 8)).size p = g.size p := by
    intro p hp hne
    refine free_header hramu (ht.inRam p hp) ?_
    rcases Nat.lt_or_gt_of_ne hne with hlt | hlt
    · exact Or.inl (ht.stop_le hp hu hlt).1
    · exact Or.inr (ht.stop_le hu hp hlt).1
  refine ⟨⟨hh.blocks.first, ht.mono fun p hp => ?_⟩, fun ptr' hptr' => ?_, hh.nodup.erase _⟩
  · by_cases hpu : p = u
    · subst hpu
      refine ⟨free_apply ?_, fun hnow => ?_⟩
      · rw [hramu.field_eq]
        omega
      · rw [GuestHeap.used, size_free hramu] at hnow
        omega
    · obtain ⟨hnext, hsize⟩ := hother p hp hpu
      refine ⟨hnext, fun hnow => ⟨?_, hsize⟩⟩
      rwa [GuestHeap.used, hsize] at hnow
  · obtain ⟨hne, hptr'⟩ := (List.Nodup.mem_erase_iff hh.nodup).mp hptr'
    obtain ⟨v, hv, hvused, rfl⟩ := hh.owned ptr' hptr'
    refine ⟨v, hv, ?_, rfl⟩
    rw [GuestHeap.used, (hother v hv (by omega)).2]
    exact hvused

theorem Holds.malloc {live : List Nat} {size r : Nat} {g₁ : GuestHeap} (hh : g.Holds ps live)
    (hns : ¬ Strays ps (align4 size) g g.krnlHeap) (hm : align4 size ≤ 2 ^ 31)
    (heq : g.malloc size = some (g₁, r)) (hroom : r + align4 size + 8 < 2 ^ 32) :
    ∃ ys, g₁.Holds ys (if r = 0 then live else r :: live) := by
  obtain ⟨rest, rfl, hps⟩ := hh.blocks.bounds
  have ht := hh.blocks.trail
  have hm4 : align4 size % 4 = 0 := by
    unfold align4 u32
    rw [Nat.shiftLeft_eq]
    omega
  rw [GuestHeap.malloc, Option.map_eq_some_iff] at heq
  obtain ⟨⟨h, found⟩, hsweep, hres⟩ := heq
  obtain ⟨hk, hfound⟩ := sweep_spec hm ht hps hns hsweep
  cases found with
  | none =>
    cases hres
    obtain ⟨ys, hys⟩ := sweep_left hm hm4 ht hps hns hsweep (by simp)
    rw [if_pos rfl]
    refine ⟨ys, ⟨hk.krnlHeap ▸ hys.head, hys.trail⟩, fun ptr hptr => ?_, hh.nodup⟩
    obtain ⟨u, hu, hused, rfl⟩ := hh.owned ptr hptr
    refine ⟨u, hys.used u hu hused, ?_, rfl⟩
    rw [GuestHeap.used, (hk.header ht hu hused).2]
    exact hused
  | some q =>
    cases hres
    have hq := ht.inRam q hfound.1.mem
    have hadd : add32 q 8 = q + 8 := u32_of_lt hq.2.1
    rw [hadd] at hroom ⊢
    have hroom' : q + align4 size + 16 < 2 ^ 32 := by omega
    obtain ⟨ys, hys⟩ := sweep_left hm hm4 ht hps hns hsweep fun q' hq' =>
      Option.some.inj hq' ▸ hroom'
    rw [if_neg (Nat.succ_ne_zero _)]
    refine ⟨ys, ⟨hk.krnlHeap ▸ hys.head, hys.trail⟩, fun ptr hptr => ?_, ?_⟩
    · rcases List.mem_cons.mp hptr with rfl | hptr
      · refine ⟨q, hys.new q rfl, ?_, rfl⟩
        rw [GuestHeap.used, (splitBlock_headers hroom').2.1, Nat.or_mod_two_eq_one]
        exact Or.inr rfl
      · obtain ⟨u, hu, hused, rfl⟩ := hh.owned ptr hptr
        refine ⟨u, hys.used u hu hused, ?_, rfl⟩
        have hram := ht.inRam u hu
        rw [GuestHeap.used, hram.size_eq,
          hfound.1.splitBlock_apply ht hk hm hu hused (by omega) (by omega), ← hram.size_eq]
        exact hused
    · refine List.nodup_cons.mpr ⟨fun hmem => ?_, hh.nodup⟩
      obtain ⟨u, hu, hused, heq⟩ := hh.owned _ hmem
      obtain rfl : q = u := by omega
      exact hfound.1.free hused

/-- Every heap that is reached has its blocks. -/
theorem Reached.holds {sym : GuestHeapSymbols} {mem : Nat → Nat} {live : List Nat}
    (hstart : 0x80000000 ≤ sym.start) (hr : Reached sym mem g live) : ∃ ps, g.Holds ps live := by
  induction hr with
  | boot => exact ⟨_, Holds.boot sym mem hstart⟩
  | malloc _ hh hns hm heq hroom _ => exact hh.malloc hns hm heq hroom
  | free _ hptr ih =>
    obtain ⟨ps, hh⟩ := ih
    exact ⟨ps, hh.free hptr⟩
  | write _ hptr hmem hheap ih =>
    obtain ⟨ps, hh⟩ := ih
    exact ⟨ps, hh.write hptr hmem hheap⟩

end GuestHeap

end PrplHypervisor
