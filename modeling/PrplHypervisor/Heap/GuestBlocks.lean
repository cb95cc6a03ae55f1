import PrplHypervisor.Heap.Realloc

/-!
# The block list of the guest

The guest's `malloc` walks over the used and free blocks from `krnl_heap` on, joins
the free ones it meets and splits the first run that is long enough. The last block
is free. Its link is `NULL` until it is reached for the first time; from then on it
leads back to a block in front of it, and the length of the last run, computed from
that link, comes out near `2^32`. Nothing keeps that link up to date: the block it
leads to may be joined away and its header become somebody's data.

- `GuestHeap.Blocks`: the blocks of such a heap, whatever the link of the last one is.
- `GuestHeap.RunEnd`: where the walk over a run of free blocks stops.
- `Trail.joined`, `Trail.settled_iff`, `Trail.full_iff`: what joining a run does to the
  list, when it does nothing, and that too short a run does not decide a search.
-/

namespace PrplHypervisor

open Word32 Layout LinkedRing

namespace GuestHeap

/-- Where a header may lie. RAM begins at `0x80000000`, and `krnl_heap` eight bytes
behind the first free address at least. -/
def InRam (p : Nat) : Prop := 0x80000008 ≤ p ∧ p + 8 < 2 ^ 32 ∧ p % 4 = 0

instance (p : Nat) : Decidable (InRam p) :=
  inferInstanceAs (Decidable (0x80000008 ≤ p ∧ p + 8 < 2 ^ 32 ∧ p % 4 = 0))

/-- Blocks linked in address order, with all their bytes, up to a free one. -/
inductive Trail (h : GuestHeap) : List Nat → Prop
  | last {p : Nat} : InRam p → ¬ h.used p → Trail h [p]
  | cons {p q : Nat} {ps : List Nat} : InRam p → h.next p = q → p + 8 ≤ q →
      (h.used p → p + 8 + h.size p / 2 * 2 ≤ q) → Trail h (q :: ps) → Trail h (p :: q :: ps)

/-- The blocks from `krnl_heap` on. -/
structure Blocks (h : GuestHeap) (ps : List Nat) : Prop where
  first : ps.head? = some h.krnlHeap
  trail : h.Trail ps

/-- `h'` differs from `h` in the headers of free blocks only. -/
structure KeepsUsed (h : GuestHeap) (ps : List Nat) (h' : GuestHeap) : Prop where
  mem : ∀ a, (∀ f ∈ ps, ¬ h.used f → a ≠ f ∧ a ≠ f + 4) → h'.mem a = h.mem a
  krnlFree : h'.krnlFree = h.krnlFree
  krnlHeap : h'.krnlHeap = h.krnlHeap

/-- Block `q` is free, and `m` bytes with two headers fit in front of the next used block. -/
structure Fits (h : GuestHeap) (ps : List Nat) (m q : Nat) : Prop where
  mem : q ∈ ps
  free : ¬ h.used q
  room : ∀ u ∈ ps, h.used u → q < u → q + 16 + m ≤ u

/-- No run has room for `m` bytes, and the last one is longer than the last block,
which still has its `NULL`. -/
structure Full (h : GuestHeap) (ps : List Nat) (m : Nat) : Prop where
  ends : ∃ f l, [f, l] <:+ ps ∧ ¬ h.used f ∧ h.next l = 0
  short : ∀ f ∈ ps, ¬ h.used f → h.next f ≠ 0 →
    ∃ e ∈ ps, (h.used e ∨ h.next e = 0) ∧ f < e ∧ e < f + m + 16

/-- There is nothing to join: behind each free block comes a used one or the end, and
its size says how far that is. -/
def Settled (h : GuestHeap) (ps : List Nat) : Prop :=
  ∀ f ∈ ps, ¬ h.used f → h.next f ≠ 0 →
    (h.used (h.next f) ∨ h.next (h.next f) = 0) ∧ h.size f = sub32 (sub32 (h.next f) f) 8

variable {g h h' : GuestHeap} {ps as bs us fs rest : List Nat} {m p q e : Nat}

/-! ## The blocks in order -/

theorem InRam.size_eq (hp : InRam p) (h : GuestHeap) : h.size p = h.mem (p + 4) := by
  have hlt := hp.2.1
  rw [GuestHeap.size, add32, u32_of_lt (by omega)]

/-- The header of the block at a payload pointer. -/
theorem InRam.header_eq (hp : InRam p) : sub32 (p + 8) 8 = p := by
  have hlt := hp.2.1
  rw [sub32_of_le (by omega) (by omega), Nat.add_sub_cancel]

/-- The size field of the block at a payload pointer. -/
theorem InRam.field_eq (hp : InRam p) : add32 (sub32 (p + 8) 8) 4 = p + 4 := by
  have hlt := hp.2.1
  rw [hp.header_eq, add32, u32_of_lt (by omega)]

theorem InRam.ne_zero (hp : InRam p) : p ≠ 0 := by
  have hle := hp.1
  omega

namespace Trail

theorem inRam (ht : h.Trail ps) : ∀ p ∈ ps, InRam p := by
  induction ht with
  | last hp _ => exact fun x hx => List.mem_singleton.mp hx ▸ hp
  | cons hp _ _ _ _ ih =>
    intro x hx
    rcases List.mem_cons.mp hx with rfl | hx
    · exact hp
    · exact ih x hx

theorem ordered (ht : h.Trail ps) :
    ps.Pairwise fun p q => p + 8 ≤ q ∧ (h.used p → p + 8 + h.size p / 2 * 2 ≤ q) := by
  induction ht with
  | last _ _ => exact List.pairwise_singleton _ _
  | cons _ _ hle hstop _ ih =>
    refine List.pairwise_cons.mpr ⟨fun x hx => ?_, ih⟩
    rcases List.mem_cons.mp hx with rfl | hx
    · exact ⟨hle, hstop⟩
    · have hlt := ((List.pairwise_cons.mp ih).1 x hx).1
      exact ⟨by omega, fun hu => by have := hstop hu; omega⟩

/-- A lower block ends before a higher one begins. -/
theorem stop_le (ht : h.Trail ps) (hp : p ∈ ps) (hq : q ∈ ps) (hlt : p < q) :
    p + 8 ≤ q ∧ (h.used p → p + 8 + h.size p / 2 * 2 ≤ q) :=
  pairwise_of_lt ht.ordered (fun _ _ hr => by omega) hp hq hlt

/-- In a list cut at `p`, the blocks before it lie lower and those after it higher. -/
theorem cut (ht : h.Trail (as ++ p :: bs)) : (∀ a ∈ as, a + 8 ≤ p) ∧ ∀ b ∈ bs, p + 8 ≤ b := by
  obtain ⟨-, htail, hcross⟩ := List.pairwise_append.mp ht.ordered
  exact ⟨fun a ha => (hcross a ha p List.mem_cons_self).1,
    fun b hb => ((List.pairwise_cons.mp htail).1 b hb).1⟩

theorem suffix (ht : h.Trail (as ++ p :: bs)) : h.Trail (p :: bs) := by
  induction as with
  | nil => exact ht
  | cons a as ih =>
    refine ih ?_
    rw [List.cons_append] at ht
    generalize hxs : as ++ p :: bs = xs at ht ⊢
    cases ht with
    | last _ _ => exact absurd hxs (by simp)
    | cons _ _ _ _ ht' => exact ht'

theorem head_le (ht : h.Trail (p :: bs)) : ∀ x ∈ p :: bs, p ≤ x := by
  refine List.forall_mem_cons.mpr ⟨le_refl p, fun x hx => ?_⟩
  have := ((List.pairwise_cons.mp ht.ordered).1 x hx).1
  omega

theorem next_eq (ht : h.Trail (as ++ p :: q :: bs)) : h.next p = q := by
  cases ht.suffix with
  | cons _ hnext _ _ _ => exact hnext

/-- Only the last block can be without a successor. -/
theorem next_ne_zero (ht : h.Trail (as ++ p :: q :: bs)) : h.next p ≠ 0 := by
  rw [ht.next_eq]
  exact (ht.inRam q (by simp)).ne_zero

/-- What happens to the headers of used blocks decides whether blocks are kept. -/
theorem mono (ht : h.Trail ps) (hsame : ∀ p ∈ ps, h'.next p = h.next p ∧
    (h'.used p → h.used p ∧ h'.size p = h.size p)) : h'.Trail ps := by
  induction ht with
  | last hp hfree =>
    exact last hp fun hu => hfree ((hsame _ (List.mem_singleton_self _)).2 hu).1
  | cons hp hnext hle hstop _ ih =>
    obtain ⟨hnext', hused⟩ := hsame _ List.mem_cons_self
    refine cons hp (hnext'.trans hnext) hle (fun hu => ?_)
      (ih fun x hx => hsame x (List.mem_cons_of_mem _ hx))
    rw [(hused hu).2]
    exact hstop (hused hu).1

theorem congr (ht : h.Trail ps) (hsame : ∀ p ∈ ps, h'.next p = h.next p ∧ h'.size p = h.size p) :
    h'.Trail ps :=
  ht.mono fun p hp => ⟨(hsame p hp).1, fun hu => ⟨by
    unfold used at hu ⊢
    rwa [(hsame p hp).2] at hu, (hsame p hp).2⟩⟩

/-- Other blocks behind the same ones. -/
theorem splice (ht : h.Trail (as ++ p :: bs))
    (hsame : ∀ a ∈ as, h'.next a = h.next a ∧ h'.size a = h.size a) {cs : List Nat}
    (ht' : h'.Trail (p :: cs)) : h'.Trail (as ++ p :: cs) := by
  induction as with
  | nil => exact ht'
  | cons a as ih =>
    have hih := fun ht => ih ht fun x hx => hsame x (List.mem_cons_of_mem _ hx)
    obtain ⟨hnext, hsize⟩ := hsame a List.mem_cons_self
    rw [List.cons_append] at ht ⊢
    -- the block behind `a` is the same in both lists
    cases as with
    | nil =>
      cases ht with
      | cons ha hlink hle hstop ht₁ =>
        refine cons ha (hnext.trans hlink) hle (fun hu => ?_) ht'
        unfold used at hu hstop
        rw [hsize] at hu ⊢
        exact hstop hu
    | cons b as =>
      rw [List.cons_append] at ht hih ⊢
      cases ht with
      | cons ha hlink hle hstop ht₁ =>
        refine cons ha (hnext.trans hlink) hle (fun hu => ?_) (hih ht₁)
        unfold used at hu hstop
        rw [hsize] at hu ⊢
        exact hstop hu

end Trail

/-- Nothing of a used block is the header of a free one. -/
theorem KeepsUsed.apply (hk : g.KeepsUsed ps h) (ht : g.Trail ps) {u x : Nat} (hu : u ∈ ps)
    (hused : g.used u) (hx : u ≤ x) (hx' : x < u + 8 + g.size u / 2 * 2) : h.mem x = g.mem x := by
  refine hk.mem x ?_
  intro f hf hfree
  have hne : f ≠ u := fun e => hfree (e ▸ hused)
  rcases Nat.lt_or_gt_of_ne hne with hlt | hlt
  · have := (ht.stop_le hf hu hlt).1
    omega
  · have := (ht.stop_le hu hf hlt).2 hused
    omega

/-! ## One round -/

theorem skipUsed_spec {fuel : Nat} (ht : h.Trail (p :: rest)) (heq : skipUsed h fuel p = some q) :
    ∃ us ps, p :: rest = us ++ q :: ps ∧ (∀ u ∈ us, h.used u) ∧ ¬ h.used q := by
  induction fuel generalizing p rest with
  | zero => cases heq
  | succ fuel ih =>
    rw [skipUsed] at heq
    split_ifs at heq with hused
    · cases ht with
      | last _ hfree => exact absurd hused hfree
      | cons _ hnext _ _ ht' =>
        rw [hnext] at heq
        obtain ⟨us, ps, hsplit, hus, hq⟩ := ih ht' heq
        refine ⟨p :: us, ps, by rw [hsplit, List.cons_append], ?_, hq⟩
        exact List.forall_mem_cons.mpr ⟨hused, hus⟩
    · obtain rfl := Option.some.inj heq
      exact ⟨[], rest, rfl, by simp, hused⟩

/-- Where the walk over a run of free blocks from `q` on stops: at `q`, the last block,
at the used block or the end behind the run, or somewhere behind the link of the last
block. -/
inductive RunEnd (h : GuestHeap) (q : Nat) : List Nat → Nat → Prop
  | alone : h.next q = 0 → RunEnd h q [] q
  | before {fs rest : List Nat} {e : Nat} : (∀ f ∈ fs, ¬ h.used f) →
      (h.used e ∨ rest = [] ∧ h.next e = 0) → RunEnd h q (fs ++ e :: rest) e
  | passed {fs : List Nat} {e : Nat} : (∀ f ∈ fs, ¬ h.used f) →
      (∀ l ∈ (q :: fs).getLast?, h.next l ≠ 0) → RunEnd h q fs e

theorem skipFree_spec {fuel : Nat} (ht : h.Trail (q :: rest)) (hfree : ¬ h.used q)
    (heq : skipFree h fuel q = some e) : h.RunEnd q rest e := by
  induction fuel generalizing q rest with
  | zero => cases heq
  | succ fuel ih =>
    rw [skipFree] at heq
    cases ht with
    | last _ _ =>
      split_ifs at heq with hgo
      · exact .passed (by simp) fun l hl => Option.some.inj hl ▸ hgo.2
      · obtain rfl := Option.some.inj heq
        exact .alone (by_contra fun hnext => hgo ⟨hfree, hnext⟩)
    | @cons _ q' ps _ hnext _ _ ht' =>
      have hgo : ¬ h.used q ∧ h.next q ≠ 0 :=
        ⟨hfree, hnext ▸ (ht'.inRam q' List.mem_cons_self).ne_zero⟩
      rw [if_pos hgo, hnext] at heq
      by_cases hused : h.used q'
      · obtain ⟨k, rfl⟩ : ∃ k, fuel = k + 1 := by
          cases fuel with
          | zero => cases heq
          | succ k => exact ⟨k, rfl⟩
        rw [skipFree, if_neg fun hand => hand.1 hused] at heq
        obtain rfl := Option.some.inj heq
        exact show h.RunEnd q ([] ++ q' :: ps) q' from .before (by simp) (Or.inl hused)
      · have hstep : ∀ {fs : List Nat}, (∀ f ∈ fs, ¬ h.used f) → ∀ f ∈ q' :: fs, ¬ h.used f :=
          fun hfs => List.forall_mem_cons.mpr ⟨hused, hfs⟩
        cases ih ht' hused heq with
        | alone hnull =>
          exact show h.RunEnd q ([] ++ [e]) e from .before (by simp) (Or.inr ⟨rfl, hnull⟩)
        | @before fs rest _ hfs hend =>
          exact show h.RunEnd q ((q' :: fs) ++ e :: rest) e from .before (hstep hfs) hend
        | passed hfs hlink =>
          refine .passed (hstep hfs) fun l hl => hlink l ?_
          rwa [List.getLast?_cons_cons] at hl

/-- The walk stops at a used block or at a `NULL`, and never at address zero. -/
theorem skipFree_end {fuel : Nat} (heq : skipFree h fuel p = some e) :
    (h.used e ∨ h.next e = 0) ∧ (p ≠ 0 → e ≠ 0) := by
  induction fuel generalizing p with
  | zero => cases heq
  | succ fuel ih =>
    rw [skipFree] at heq
    split_ifs at heq with hgo
    · exact ⟨(ih heq).1, fun _ => (ih heq).2 hgo.2⟩
    · obtain rfl := Option.some.inj heq
      exact ⟨by_contra fun hnot => hgo (not_or.mp hnot), id⟩

/-- A run of free blocks has become the block `q`, which ends at `e`. -/
def joined (h : GuestHeap) (q e : Nat) : GuestHeap :=
  (h.setSize q (sub32 (sub32 e q) 8)).setNext q e

theorem coalesce_spec (ht : h.Trail (p :: rest)) (heq : h.coalesce p = some (h', e, q)) :
    h' = h.joined q e ∧ (h.used e ∨ h.next e = 0) ∧ ∃ us ps, p :: rest = us ++ q :: ps ∧
      (∀ u ∈ us, h.used u) ∧ ¬ h.used q ∧ h.RunEnd q ps e := by
  obtain ⟨hskip, hrun, rfl⟩ := coalesce_some heq
  obtain ⟨us, ps, hsplit, hus, hfree⟩ := skipUsed_spec ht hskip
  rw [hsplit] at ht
  have hne := (skipFree_end hrun).2 (ht.inRam q (by simp)).ne_zero
  refine ⟨?_, (skipFree_end hrun).1, us, ps, hsplit, hus, hfree,
    skipFree_spec ht.suffix hfree hrun⟩
  rw [if_neg hne, joined]

theorem joined_apply {x : Nat} (hq : InRam q) (hx : x ≠ q) (hx' : x ≠ q + 4) :
    (h.joined q e).mem x = h.mem x := by
  have hlt := hq.2.1
  have hfield : add32 q 4 = q + 4 := u32_of_lt (by omega)
  simp only [joined, GuestHeap.setNext, GuestHeap.setSize, hfield, Function.update_of_ne hx,
    Function.update_of_ne hx']

@[simp] theorem next_joined (q e : Nat) : (h.joined q e).next q = e := by
  simp [joined, GuestHeap.setNext, GuestHeap.next]

theorem size_joined (hq : InRam q) : (h.joined q e).size q = sub32 (sub32 e q) 8 := by
  have hlt := hq.2.1
  have hfield : add32 q 4 = q + 4 := u32_of_lt (by omega)
  have hne : q + 4 ≠ q := by omega
  simp only [joined, GuestHeap.size, GuestHeap.setNext, GuestHeap.setSize, hfield,
    Function.update_of_ne hne, Function.update_self]

/-- Blocks apart from the run's keep their headers. -/
theorem joined_header (hq : InRam q) (hp : InRam p) (hapart : p + 8 ≤ q ∨ q + 8 ≤ p) :
    (h.joined q e).next p = h.next p ∧ (h.joined q e).size p = h.size p := by
  rw [hp.size_eq, hp.size_eq]
  exact ⟨joined_apply hq (by omega) (by omega), joined_apply hq (by omega) (by omega)⟩

/-- Joining changes nothing exactly if the header already says so. -/
theorem joined_eq_self_iff (hq : InRam q) :
    h.joined q e = h ↔ h.next q = e ∧ h.size q = sub32 (sub32 e q) 8 := by
  constructor
  · intro heq
    have hsize := size_joined (h := h) (e := e) hq
    rw [heq] at hsize
    exact ⟨by rw [← next_joined (h := h) q e, heq], hsize⟩
  · rintro ⟨rfl, hsize⟩
    rw [joined, ← hsize, GuestHeap.setSize, GuestHeap.size, Function.update_eq_self,
      GuestHeap.setNext, GuestHeap.next, Function.update_eq_self]

section Run

/-! A run of free blocks `q :: fs` behind the used blocks `us` becomes one block, up to
the used block or the end `e`. -/

/-- The free blocks of the list are those of the run or behind it. -/
theorem mem_of_free (hus : ∀ u ∈ us, h.used u) {f : Nat}
    (hf : f ∈ us ++ q :: (fs ++ e :: rest)) (hff : ¬ h.used f) : f ∈ q :: fs ∨ f ∈ e :: rest := by
  rcases List.mem_append.mp hf with hf | hf
  · exact absurd (hus f hf) hff
  · rw [← List.cons_append] at hf
    exact List.mem_append.mp hf

variable (ht : h.Trail (us ++ q :: (fs ++ e :: rest)))
include ht

theorem Trail.run_lt : q + 8 ≤ e := ht.cut.2 e (by simp)

theorem Trail.run_inRam : InRam q ∧ InRam e := ⟨ht.inRam q (by simp), ht.inRam e (by simp)⟩

/-- The list cut at the end of the run. -/
theorem Trail.cut_end : h.Trail ((us ++ q :: fs) ++ e :: rest) := by
  simpa using ht

theorem Trail.tail : h.Trail (e :: rest) := ht.cut_end.suffix

/-- The blocks behind the run lie behind it. -/
theorem Trail.behind : ∀ x ∈ e :: rest, q + 8 ≤ x := fun x hx => ht.cut.2 x (by simp_all)

theorem Trail.mem_tail {x : Nat} (hx : x ∈ us ++ q :: (fs ++ e :: rest)) (hle : e ≤ x) :
    x ∈ e :: rest := by
  rw [show us ++ q :: (fs ++ e :: rest) = (us ++ q :: fs) ++ e :: rest by simp] at hx
  rcases List.mem_append.mp hx with hx | hx
  · have := ht.cut_end.cut.1 x hx
    omega
  · exact hx

/-- The blocks from `q` to the end are those of the run. -/
theorem Trail.mem_run {x : Nat} (hx : x ∈ us ++ q :: (fs ++ e :: rest)) (hle : q ≤ x)
    (hlt : x < e) : x ∈ q :: fs := by
  rw [show us ++ q :: (fs ++ e :: rest) = us ++ ((q :: fs) ++ e :: rest) by simp] at hx
  rcases List.mem_append.mp hx with hx | hx
  · have := ht.cut.1 x hx
    omega
  · rcases List.mem_append.mp hx with hx | hx
    · exact hx
    · exact absurd (ht.tail.head_le x hx) (by omega)

/-- The blocks of the run have a link, and its end lies behind them. -/
theorem Trail.run_next {f : Nat} (hf : f ∈ q :: fs) : h.next f ≠ 0 ∧ q ≤ f ∧ f < e := by
  have hlt := ht.cut_end.cut.1 f (List.mem_append_right _ hf)
  refine ⟨?_, ht.suffix.head_le f (List.mem_append_left _ hf), by omega⟩
  obtain ⟨s, t, hst⟩ := List.append_of_mem hf
  have hcut := ht.cut_end
  rw [hst] at hcut
  cases t with
  | nil => exact (show h.Trail ((us ++ s) ++ f :: e :: rest) by simpa using hcut).next_ne_zero
  | cons x t =>
    exact (show h.Trail ((us ++ s) ++ f :: x :: (t ++ e :: rest)) by simpa using hcut).next_ne_zero

/-- The blocks behind the run keep their headers. -/
theorem Trail.joined_behind : ∀ x ∈ e :: rest,
    (h.joined q e).next x = h.next x ∧ (h.joined q e).size x = h.size x := by
  intro x hx
  exact joined_header ht.run_inRam.1 (ht.tail.inRam x hx) (Or.inr (ht.behind x hx))

theorem Trail.joined_used {x : Nat} (hx : x ∈ e :: rest) :
    (h.joined q e).used x ↔ h.used x := by
  unfold used
  rw [(ht.joined_behind x hx).2]

theorem Trail.joined_size : (h.joined q e).size q = e - q - 8 := by
  have hlt := ht.run_lt
  have hrame := ht.run_inRam.2.2.1
  rw [size_joined ht.run_inRam.1, sub32_of_le (show q ≤ e by omega) (by omega),
    sub32_of_le (by omega) (by omega)]

/-- The joined list. -/
theorem Trail.joined : (h.joined q e).Trail (us ++ q :: e :: rest) := by
  obtain ⟨hq, he⟩ := ht.run_inRam
  refine ht.splice (fun a ha => ?_)
    (Trail.cons hq (next_joined q e) ht.run_lt (fun hu => ?_) (ht.tail.congr ht.joined_behind))
  · exact joined_header hq (ht.inRam a (by simp [ha])) (Or.inl (ht.cut.1 a ha))
  · have hq4 := hq.2.2
    have he4 := he.2.2
    unfold used at hu
    rw [ht.joined_size] at hu
    omega

theorem Trail.keepsUsed_trans {h₁ : GuestHeap} (hfree : ¬ h.used q)
    (hk : (h.joined q e).KeepsUsed (e :: rest) h₁) :
    h.KeepsUsed (us ++ q :: (fs ++ e :: rest)) h₁ where
  mem a ha := by
    obtain ⟨hne, hne'⟩ := ha q (by simp) hfree
    rw [hk.mem a fun f hf hff => ha f (by simp_all) ((ht.joined_used hf).not.mp hff),
      joined_apply ht.run_inRam.1 hne hne']
  krnlFree := hk.krnlFree
  krnlHeap := hk.krnlHeap

/-- The rounds behind this one leave its header alone. -/
theorem Trail.keepsUsed_header {h₁ : GuestHeap} (hk : (h.joined q e).KeepsUsed (e :: rest) h₁) :
    h₁.next q = e ∧ h₁.size q = sub32 (sub32 e q) 8 := by
  have hq := ht.run_inRam.1
  have hbelow : ∀ x < q + 8, h₁.mem x = (h.joined q e).mem x := by
    refine fun x hx => hk.mem x fun f hf _ => ?_
    have := ht.behind f hf
    omega
  rw [← size_joined hq, hq.size_eq, hq.size_eq, hbelow (q + 4) (by omega)]
  exact ⟨(hbelow q (by omega)).trans (next_joined q e), rfl⟩

theorem Trail.fits_trans {q' : Nat} (hf : (h.joined q e).Fits (e :: rest) m q') :
    h.Fits (us ++ q :: (fs ++ e :: rest)) m q' where
  mem := by
    have hmem := hf.mem
    simp_all
  free := (ht.joined_used hf.mem).not.mp hf.free
  room u hu hused hlt := by
    have hle := ht.tail.head_le q' hf.mem
    have hmem := ht.mem_tail hu (by omega)
    exact hf.room u hmem ((ht.joined_used hmem).mpr hused) hlt

/-- A run that has nothing to be joined is a single block. -/
theorem Trail.settled_iff (hus : ∀ u ∈ us, h.used u) (hfree : ¬ h.used q)
    (hfs : ∀ f ∈ fs, ¬ h.used f) (hend : h.used e ∨ h.next e = 0) :
    h.Settled (us ++ q :: (fs ++ e :: rest)) ↔ h.joined q e = h ∧ h.Settled (e :: rest) := by
  rw [joined_eq_self_iff ht.run_inRam.1]
  constructor
  · intro hset
    refine ⟨?_, fun f hf => hset f (by simp_all)⟩
    obtain ⟨hnext, hsize⟩ := hset q (by simp) hfree (ht.run_next List.mem_cons_self).1
    cases fs with
    | nil =>
      have hlink : h.next q = e := ht.next_eq
      exact ⟨hlink, by rw [hsize, hlink]⟩
    | cons f fs =>
      -- a second block of the run is neither used nor at the end
      rw [show h.next q = f from ht.next_eq] at hnext
      rcases hnext with hused | hnull
      · exact absurd hused (hfs f List.mem_cons_self)
      · exact absurd hnull (ht.run_next (List.mem_cons_of_mem _ List.mem_cons_self)).1
  · rintro ⟨⟨hlink, hsize⟩, hset⟩ f hf hff hne
    rcases mem_of_free hus hf hff with hf | hf
    · cases fs with
      | nil =>
        obtain rfl := List.mem_singleton.mp hf
        rw [hlink]
        exact ⟨hend, hsize⟩
      | cons x fs =>
        have hlt := (ht.run_next (List.mem_cons_of_mem _ List.mem_cons_self)).2.2
        rw [show h.next q = x from ht.next_eq] at hlink
        exact absurd hlink hlt.ne
    · exact hset f hf hff hne

/-- What may follow the last two blocks of the joined list follows those of the list. -/
theorem Trail.ends_iff (hrest : rest ≠ []) :
    (∃ f l, [f, l] <:+ us ++ q :: (fs ++ e :: rest) ∧ ¬ h.used f ∧ h.next l = 0) ↔
      ∃ f l, [f, l] <:+ e :: rest ∧ ¬ (h.joined q e).used f ∧ (h.joined q e).next l = 0 := by
  have hsuffix : ∀ f l, [f, l] <:+ us ++ q :: (fs ++ e :: rest) ↔ [f, l] <:+ e :: rest := by
    intro f l
    have hbehind : e :: rest <:+ us ++ q :: (fs ++ e :: rest) := ⟨us ++ q :: fs, by simp⟩
    refine ⟨fun hs => List.suffix_of_suffix_length_le hs hbehind ?_, fun hs => hs.trans hbehind⟩
    have := List.length_pos_iff.mpr hrest
    simp only [List.length_cons, List.length_nil]
    omega
  refine exists_congr fun f => exists_congr fun l => ?_
  rw [hsuffix]
  refine and_congr_right fun hs => ?_
  rw [ht.joined_used (hs.subset (by simp)), (ht.joined_behind l (hs.subset (by simp))).1]

/-- A run that is too short does not decide whether there is room. -/
theorem Trail.full_iff (hus : ∀ u ∈ us, h.used u) (hused : h.used e) (hrest : rest ≠ [])
    (hshort : e < q + m + 16) : h.Full (us ++ q :: (fs ++ e :: rest)) m ↔
      (h.joined q e).Full (e :: rest) m := by
  have hkind : ∀ x ∈ e :: rest, ((h.joined q e).used x ∨ (h.joined q e).next x = 0) ↔
      (h.used x ∨ h.next x = 0) := fun x hx => by
    rw [ht.joined_used hx, (ht.joined_behind x hx).1]
  constructor
  · rintro ⟨hends, hall⟩
    refine ⟨(ht.ends_iff hrest).mp hends, fun x hx hxf hxn => ?_⟩
    rw [(ht.joined_behind x hx).1] at hxn
    obtain ⟨y, hy, hyend, hlt, hroom⟩ := hall x (by simp_all) ((ht.joined_used hx).not.mp hxf) hxn
    have hle := ht.tail.head_le x hx
    have hymem := ht.mem_tail hy (by omega)
    exact ⟨y, hymem, (hkind y hymem).mpr hyend, hlt, hroom⟩
  · rintro ⟨hends, hall⟩
    refine ⟨(ht.ends_iff hrest).mpr hends, fun x hx hxf hxn => ?_⟩
    rcases mem_of_free hus hx hxf with hx | hx
    · have hrun := ht.run_next hx
      exact ⟨e, by simp, Or.inl hused, hrun.2.2, by omega⟩
    · rw [← (ht.joined_behind x hx).1] at hxn
      obtain ⟨y, hy, hyend, hlt, hroom⟩ := hall x hx ((ht.joined_used hx).not.mpr hxf) hxn
      exact ⟨y, by simp_all, (hkind y hy).mp hyend, hlt, hroom⟩

/-- A run in which the request fits decides it. -/
theorem Trail.not_full (hfree : ¬ h.used q) (hfs : ∀ f ∈ fs, ¬ h.used f)
    (hroom : q + m + 16 ≤ e) : ¬ h.Full (us ++ q :: (fs ++ e :: rest)) m := by
  rintro ⟨-, hall⟩
  obtain ⟨y, hy, hyend, hlt, hle⟩ := hall q (by simp) hfree (ht.run_next List.mem_cons_self).1
  have hmem := ht.mem_run hy hlt.le (by omega)
  have hnext := (ht.run_next hmem).1
  rcases List.mem_cons.mp hmem with rfl | hmem
  · omega
  · exact hyend.elim (hfs y hmem) hnext

/-- The last run, up to a block without a link. -/
theorem Trail.full_of_short (hrest : rest = []) (hus : ∀ u ∈ us, h.used u)
    (hfree : ¬ h.used q) (hfs : ∀ f ∈ fs, ¬ h.used f) (hlast : h.next e = 0)
    (hshort : e < q + m + 16) : h.Full (us ++ q :: (fs ++ e :: rest)) m where
  ends := by
    subst hrest
    obtain ⟨s, f, hsf⟩ := (List.eq_nil_or_concat (q :: fs)).resolve_left (List.cons_ne_nil q fs)
    have hmem : f ∈ q :: fs := by
      rw [hsf]
      simp
    refine ⟨f, e, ⟨us ++ s, ?_⟩, ?_, hlast⟩
    · rw [show us ++ q :: (fs ++ [e]) = us ++ ((q :: fs) ++ [e]) by simp, hsf]
      simp
    · rcases List.mem_cons.mp hmem with rfl | hmem
      · exact hfree
      · exact hfs f hmem
  short f hf hff hne := by
    subst hrest
    rcases mem_of_free hus hf hff with hf | hf
    · have hrun := ht.run_next hf
      exact ⟨e, by simp, Or.inr hlast, hrun.2.2, by omega⟩
    · exact absurd (List.mem_singleton.mp hf ▸ hlast) hne

/-- A run with room for the request. -/
theorem Trail.fits_run (hfree : ¬ h.used q)
    (hfs : ∀ f ∈ fs, ¬ h.used f) (hroom : q + m + 16 ≤ e) :
    h.Fits (us ++ q :: (fs ++ e :: rest)) m q where
  mem := by simp
  free := hfree
  room u hu hused hlt := by
    have hle : e ≤ u := by
      by_contra hnot
      rcases List.mem_cons.mp (ht.mem_run hu hlt.le (by omega)) with rfl | hmem
      · exact hfree hused
      · exact hfs u hmem hused
    omega

end Run

end GuestHeap

end PrplHypervisor
