import PrplHypervisor.Heap.GuestBlocks

/-!
# What the guest's `malloc` finds

The sweep joins one run of free blocks after the other until it has a block to split
or has come to the end. Only behind the link of the last block it can leave the list;
what it then takes for headers is leftover data.

- `GuestHeap.Strays`: a search that goes on behind an address that is no block.
- `sweep_round`: what one round of any other search can do.
- `malloc_blocks`: what such a search finds, when it finds nothing, and what it has
  changed by then.
- `Closed.not_strays`, `Fits.not_strays`: searches that stay on the list.
-/

namespace PrplHypervisor

open Word32 Layout LinkedRing

namespace GuestHeap

variable {g h h' : GuestHeap} {ps us fs rest : List Nat} {m p q e : Nat}

/-- The sweep for `m` bytes comes to the end of a run that is no block of `ps` and
leaves too little room: from there on it takes data for headers. -/
inductive Strays (ps : List Nat) (m : Nat) : GuestHeap → Nat → Prop
  | here {h h' : GuestHeap} {p e q : Nat} : h.next p ≠ 0 → h.coalesce p = some (h', e, q) →
      h'.size q < m + 8 → e ∉ ps → Strays ps m h p
  | later {h h' : GuestHeap} {p e q : Nat} : h.next p ≠ 0 → h.coalesce p = some (h', e, q) →
      h'.size q < m + 8 → Strays ps m h' e → Strays ps m h p

/-! ## One round of the sweep -/

/-- The ways in which a search that does not stray goes through a list: its only block
is new, the last run is taken, the list ends with too short a run, a run in front of
another block is taken, or the search goes on behind one. -/
inductive Round (m : Nat) (ps : List Nat) (fuel : Nat) (h : GuestHeap) :
    List Nat → GuestHeap → Option Nat → Prop
  | fresh {p : Nat} : h.next p = 0 → Round m ps fuel h [p] h (some p)
  | last {us fs : List Nat} {q e : Nat} : (∀ u ∈ us, h.used u) → ¬ h.used q →
      (∀ f ∈ fs, ¬ h.used f) →
      (∀ f l, [f, l] <:+ us ++ q :: fs → ¬ h.used f → h.next l ≠ 0) →
      Round m ps fuel h (us ++ q :: fs) (h.joined q e) (some q)
  | none {us fs : List Nat} {q e : Nat} : (∀ u ∈ us, h.used u) → ¬ h.used q →
      (∀ f ∈ fs, ¬ h.used f) → h.next e = 0 → e < q + m + 16 →
      Round m ps fuel h (us ++ q :: (fs ++ [e])) (h.joined q e) none
  | fits {us fs rest : List Nat} {q e : Nat} : (∀ u ∈ us, h.used u) → ¬ h.used q →
      (∀ f ∈ fs, ¬ h.used f) → q + m + 16 ≤ e →
      Round m ps fuel h (us ++ q :: (fs ++ e :: rest)) (h.joined q e) (some q)
  | short {us fs rest : List Nat} {q e : Nat} {h₁ : GuestHeap} {found : Option Nat} :
      (∀ u ∈ us, h.used u) → ¬ h.used q → (∀ f ∈ fs, ¬ h.used f) → h.used e → rest ≠ [] →
      e < q + m + 16 → ¬ Strays ps m (h.joined q e) e →
      sweep m fuel (h.joined q e) e = some (h₁, found) →
      Round m ps fuel h (us ++ q :: (fs ++ e :: rest)) h₁ found

/-- Behind a used block comes another one. -/
theorem Trail.ne_nil_of_used (ht : h.Trail (p :: rest)) (hused : h.used p) :
    rest ≠ [] ∧ h.next p ≠ 0 := by
  cases ht with
  | last _ hfree => exact absurd hused hfree
  | cons _ hnext _ _ ht' =>
    exact ⟨List.cons_ne_nil _ _, hnext ▸ (ht'.inRam _ List.mem_cons_self).ne_zero⟩

/-- The walk has come back from the end of the list to a block, which is not behind `q`:
the length of the run has wrapped. -/
theorem Trail.passed_size (ht : h.Trail (us ++ q :: fs)) (hfs : ∀ f ∈ fs, ¬ h.used f)
    (hlink : ∀ l ∈ (q :: fs).getLast?, h.next l ≠ 0) (hstop : h.used e ∨ h.next e = 0)
    (hm : m ≤ 2 ^ 31) (hram : InRam e) (he : e ∈ us ++ q :: fs ∨ e < q) :
    m + 8 ≤ (h.joined q e).size q := by
  have hq := ht.inRam q (by simp)
  have hle : e ≤ q := by
    rcases he with he | he
    · rcases List.mem_append.mp he with he | he
      · have := ht.cut.1 e he
        omega
      · rcases List.mem_cons.mp he with rfl | hef
        · exact le_refl _
        · -- a free block of the run has a link, the last one included
          have hnull := hstop.resolve_left (hfs e hef)
          obtain ⟨s, t, hst⟩ := List.append_of_mem he
          cases t with
          | nil => exact absurd hnull (hlink e (by rw [hst]; simp))
          | cons x t =>
            rw [hst] at ht
            exact absurd hnull
              (show h.Trail ((us ++ s) ++ e :: x :: t) by simpa using ht).next_ne_zero
    · exact he.le
  have hlo := hram.1
  have hhi := hq.2.1
  rw [size_joined hq]
  unfold sub32 u32
  omega

theorem sweep_round (hm : m ≤ 2 ^ 31) {fuel : Nat} {h₁ : GuestHeap} {found : Option Nat}
    (ht : h.Trail (p :: rest)) (hps : ∀ x ∈ ps, InRam x ∧ (x ∈ p :: rest ∨ x < p))
    (hns : ¬ Strays ps m h p) (heq : sweep m (fuel + 1) h p = some (h₁, found)) :
    Round m ps fuel h (p :: rest) h₁ found := by
  rcases sweep_cases heq with ⟨hnull, rfl, rfl⟩ | ⟨hgo, h', e, q, hc, hround⟩
  · cases ht with
    | last _ _ => exact .fresh hnull
    | cons _ hnext _ _ ht' =>
      exact absurd (hnext.symm.trans hnull) (ht'.inRam _ List.mem_cons_self).ne_zero
  · rw [show add32 m 8 = m + 8 from u32_of_lt (by omega)] at hround
    have htaken : ¬ h'.size q < m + 8 → h₁ = h' ∧ found = some q := by
      intro hlarge
      rcases hround with ⟨-, hshort, -, -⟩ | ⟨-, rfl, rfl⟩ | ⟨-, hshort, -⟩
      · exact absurd hshort hlarge
      · exact ⟨rfl, rfl⟩
      · exact absurd hshort hlarge
    obtain ⟨rfl, hstop, us, xs, hsplit, hus, hfree, hend⟩ := coalesce_spec ht hc
    have hle : p ≤ q := ht.head_le q (by rw [hsplit]; simp)
    rw [hsplit] at ht hps ⊢
    have hq := ht.inRam q (by simp)
    cases hend with
    | alone hnext =>
      have hlarge : ¬ (h.joined e e).size e < m + 8 := by
        have hhi := hq.2.1
        rw [size_joined hq]
        unfold sub32 u32
        omega
      obtain ⟨rfl, rfl⟩ := htaken hlarge
      refine .last hus hfree (by simp) fun f l hsuf hff => ?_
      obtain ⟨s, hs⟩ := hsuf
      have hf : s ++ [f] = us :=
        (List.append_inj' (show (s ++ [f]) ++ [l] = us ++ [e] by simpa using hs) rfl).1
      exact absurd (hus f (hf ▸ by simp)) hff
    | @before fs rest e hfs hend =>
      have hsize := ht.joined_size
      have hlt := ht.run_lt
      rw [(ht.joined_behind e List.mem_cons_self).1] at hround
      rcases hround with ⟨hnull, hshort, rfl, rfl⟩ | ⟨hfit, rfl, rfl⟩ | ⟨hgo', hshort, hrest⟩
      · obtain ⟨rfl, -⟩ := hend.resolve_left fun hused => (ht.tail.ne_nil_of_used hused).2 hnull
        exact .none hus hfree hfs hnull (by omega)
      · exact .fits hus hfree hfs (by omega)
      · have hused : h.used e := hend.resolve_right fun hlast => hgo' hlast.2
        exact .short hus hfree hfs hused (ht.tail.ne_nil_of_used hused).1 (by omega)
          (fun hstray => hns (.later hgo hc hshort hstray)) hrest
    | passed hfs hlink =>
      have hlarge : ¬ (h.joined q e).size q < m + 8 := fun hshort => by
        have hmem : e ∈ ps := by_contra fun hnot => hns (.here hgo hc hshort hnot)
        have := ht.passed_size hfs hlink hstop hm (hps e hmem).1
          ((hps e hmem).2.imp_right fun hlt => by omega)
        omega
      obtain ⟨rfl, rfl⟩ := htaken hlarge
      refine .last hus hfree hfs fun f l hsuf _ => hlink l ?_
      obtain ⟨s, hs⟩ := hsuf
      rw [Option.mem_def, ← List.getLast?_append_of_ne_nil us (List.cons_ne_nil q xs), ← hs]
      simp

/-- The blocks that are left behind a run lie behind it, the others in front of its end. -/
theorem Trail.bounds_tail (ht : h.Trail (us ++ q :: (fs ++ e :: rest))) (hle : p ≤ q)
    (hps : ∀ x ∈ ps, InRam x ∧ (x ∈ us ++ q :: (fs ++ e :: rest) ∨ x < p)) :
    ∀ x ∈ ps, InRam x ∧ (x ∈ e :: rest ∨ x < e) := by
  have hlt := ht.run_lt
  refine fun x hx => ⟨(hps x hx).1, ?_⟩
  rcases Nat.lt_or_ge x e with hlow | hhigh
  · exact Or.inr hlow
  · exact Or.inl (ht.mem_tail ((hps x hx).2.resolve_right (by omega)) hhigh)

/-! ## The whole sweep -/

theorem KeepsUsed.refl (h : GuestHeap) (ps : List Nat) : h.KeepsUsed ps h where
  mem _ _ := rfl
  krnlFree := rfl
  krnlHeap := rfl

theorem KeepsUsed.joined (hq : InRam q) (hmem : q ∈ ps) (hfree : ¬ h.used q) :
    h.KeepsUsed ps (h.joined q e) where
  mem a ha := by
    obtain ⟨hne, hne'⟩ := ha q hmem hfree
    exact joined_apply hq hne hne'
  krnlFree := rfl
  krnlHeap := rfl

/-- A run from `q` to the end of the list has no used block behind it. -/
theorem Trail.fits_last (ht : h.Trail (us ++ q :: fs)) (hfree : ¬ h.used q)
    (hfs : ∀ f ∈ fs, ¬ h.used f) : h.Fits (us ++ q :: fs) m q where
  mem := by simp
  free := hfree
  room u hu hused hlt := by
    rcases List.mem_append.mp hu with hu | hu
    · have := ht.cut.1 u hu
      omega
    · rcases List.mem_cons.mp hu with rfl | hu
      · exact absurd hlt (lt_irrefl _)
      · exact absurd hused (hfs u hu)

/-- There is room if the last block has a link, or the one before it is used. -/
theorem not_full_of_ends (hlast : ∀ f l, [f, l] <:+ ps → ¬ h.used f → h.next l ≠ 0) :
    ¬ h.Full ps m := by
  rintro ⟨⟨f, l, hsuf, hff, hl⟩, -⟩
  exact hlast f l hsuf hff hl

/-- What a search has found, and when it finds nothing. -/
def Found (h : GuestHeap) (ps : List Nat) (m : Nat) (h₁ : GuestHeap) : Option Nat → Prop
  | none => h.Full ps m ∧ (h₁ = h ↔ h.Settled ps)
  | some q => h.Fits ps m q ∧ ¬ h.Full ps m

/-- A run that is too short is joined, and the search decides behind it. -/
theorem Trail.found_trans (ht : h.Trail (us ++ q :: (fs ++ e :: rest))) (hus : ∀ u ∈ us, h.used u)
    (hfree : ¬ h.used q) (hfs : ∀ f ∈ fs, ¬ h.used f) (hused : h.used e) (hrest : rest ≠ [])
    (hshort : e < q + m + 16) {h₁ : GuestHeap} (hk : (h.joined q e).KeepsUsed (e :: rest) h₁)
    {found : Option Nat} (hfound : (h.joined q e).Found (e :: rest) m h₁ found) :
    h.Found (us ++ q :: (fs ++ e :: rest)) m h₁ found := by
  have hfull := ht.full_iff hus hused hrest hshort
  cases found with
  | some q' => exact ⟨ht.fits_trans hfound.1, hfull.not.mpr hfound.2⟩
  | none =>
    refine ⟨hfull.mpr hfound.1, ?_⟩
    rw [ht.settled_iff hus hfree hfs (Or.inl hused)]
    constructor
    · intro heq
      have hself : h.joined q e = h := by
        rw [joined_eq_self_iff ht.run_inRam.1, ← heq]
        exact ht.keepsUsed_header hk
      have hset := hfound.2.mp (heq.trans hself.symm)
      rw [hself] at hset
      exact ⟨hself, hset⟩
    · rintro ⟨hself, hset⟩
      rw [hself] at hfound
      exact hfound.2.mpr hset

/-- A search that does not stray changes headers of free blocks only. -/
theorem sweep_spec (hm : m ≤ 2 ^ 31) {fuel : Nat} {h₁ : GuestHeap} {found : Option Nat}
    (ht : h.Trail (p :: rest)) (hps : ∀ x ∈ ps, InRam x ∧ (x ∈ p :: rest ∨ x < p))
    (hns : ¬ Strays ps m h p) (heq : sweep m fuel h p = some (h₁, found)) :
    h.KeepsUsed (p :: rest) h₁ ∧ h.Found (p :: rest) m h₁ found := by
  induction fuel generalizing h p rest with
  | zero => cases heq
  | succ fuel ih =>
    have hround := sweep_round hm ht hps hns heq
    have hle := ht.head_le
    generalize p :: rest = xs at ht hps hround hle ⊢
    cases hround with
    | fresh hnull =>
      cases ht with
      | last hp hfree =>
        exact ⟨KeepsUsed.refl _ _,
          show h₁.Fits ([] ++ [_]) m _ from Trail.fits_last (.last hp hfree) hfree (by simp),
          not_full_of_ends fun f l hsuf => absurd hsuf.length_le (by simp)⟩
    | @last us fs q e hus hfree hfs hends =>
      exact ⟨.joined (ht.inRam q (by simp)) (by simp) hfree, ht.fits_last hfree hfs,
        not_full_of_ends hends⟩
    | @none us fs q e hus hfree hfs hlast hshort =>
      refine ⟨.joined (ht.inRam q (by simp)) (by simp) hfree,
        ht.full_of_short rfl hus hfree hfs hlast hshort, ?_⟩
      rw [ht.settled_iff hus hfree hfs (Or.inr hlast)]
      refine (and_iff_left fun f hf _ hne => ?_).symm
      exact absurd (List.mem_singleton.mp hf ▸ hlast) hne
    | @fits us fs rest q e hus hfree hfs hroom =>
      exact ⟨.joined (ht.inRam q (by simp)) (by simp) hfree, ht.fits_run hfree hfs hroom,
        ht.not_full hfree hfs hroom⟩
    | @short us fs rest q e _ _ hus hfree hfs hused hrest hshort hns' hsweep =>
      obtain ⟨hk, hfound⟩ := ih (ht.tail.congr ht.joined_behind)
        (ht.bounds_tail (hle q (by simp)) hps) hns' hsweep
      exact ⟨ht.keepsUsed_trans hfree hk,
        ht.found_trans hus hfree hfs hused hrest hshort hk hfound⟩

theorem Blocks.bounds (hb : g.Blocks ps) :
    ∃ rest, ps = g.krnlHeap :: rest ∧
      ∀ x ∈ ps, InRam x ∧ (x ∈ g.krnlHeap :: rest ∨ x < g.krnlHeap) := by
  obtain ⟨rest, rfl⟩ := List.head?_eq_some_iff.mp hb.first
  exact ⟨rest, rfl, fun x hx => ⟨hb.trail.inRam x hx, Or.inl hx⟩⟩

/-- `malloc` returns `NULL` exactly if no run has room, and else splits a block in
which the request fits. With `NULL` nothing has changed exactly if no run was there
to be joined. -/
theorem malloc_blocks (hb : g.Blocks ps) {size r : Nat} {g₁ : GuestHeap}
    (hm : align4 size ≤ 2 ^ 31) (hns : ¬ Strays ps (align4 size) g g.krnlHeap)
    (heq : g.malloc size = some (g₁, r)) :
    (r = 0 ∧ g.Full ps (align4 size) ∧ (g₁ = g ↔ g.Settled ps)) ∨
      ∃ h q, g.KeepsUsed ps h ∧ g.Fits ps (align4 size) q ∧ ¬ g.Full ps (align4 size) ∧
        g₁ = h.splitBlock (align4 size) q ∧ r = q + 8 := by
  obtain ⟨rest, rfl, hps⟩ := hb.bounds
  rw [malloc, Option.map_eq_some_iff] at heq
  obtain ⟨⟨h, found⟩, hsweep, hres⟩ := heq
  obtain ⟨hk, hfound⟩ := sweep_spec hm hb.trail hps hns hsweep
  cases found with
  | none =>
    cases hres
    exact Or.inl ⟨rfl, hfound⟩
  | some q =>
    cases hres
    have hram := hb.trail.inRam q hfound.1.mem
    exact Or.inr ⟨h, q, hk, hfound.1, hfound.2, rfl, u32_of_lt hram.2.1⟩

/-! ## Searches that do not stray -/

/-- Every link leads to a block, or is the `NULL` of a free one. -/
def Closed (h : GuestHeap) (ps : List Nat) : Prop :=
  ∀ f ∈ ps, h.next f ∈ ps ∨ h.next f = 0 ∧ ¬ h.used f

theorem Closed.skipUsed (hc : h.Closed ps) {fuel : Nat} (hp : p ∈ ps)
    (heq : skipUsed h fuel p = some q) : q ∈ ps := by
  induction fuel generalizing p with
  | zero => cases heq
  | succ fuel ih =>
    rw [GuestHeap.skipUsed] at heq
    split_ifs at heq with hused
    · exact ih ((hc p hp).resolve_right fun hnull => hnull.2 hused) heq
    · exact Option.some.inj heq ▸ hp

theorem Closed.skipFree (hc : h.Closed ps) {fuel : Nat} (hp : p ∈ ps)
    (heq : skipFree h fuel p = some e) : e ∈ ps := by
  induction fuel generalizing p with
  | zero => cases heq
  | succ fuel ih =>
    rw [GuestHeap.skipFree] at heq
    split_ifs at heq with hgo
    · exact ih ((hc p hp).resolve_right fun hnull => hgo.2 hnull.1) heq
    · exact Option.some.inj heq ▸ hp

/-- A run that is too short ends in front of a block in which the request fits, if a used
block comes behind that. -/
theorem Fits.round {f : Nat} (ht : h.Trail (p :: rest)) (hf : h.Fits (p :: rest) m f)
    (hbehind : ∃ u ∈ p :: rest, h.used u ∧ f < u) (heq : h.coalesce p = some (h', e, q))
    (hshort : h'.size q < m + 8) : ∃ xs, h'.Trail (e :: xs) ∧ (∀ x ∈ e :: xs, x ∈ p :: rest) ∧
      h'.Fits (e :: xs) m f ∧ ∃ u ∈ e :: xs, h'.used u ∧ f < u := by
  obtain ⟨rfl, -, us, xs, hsplit, hus, hfree, hend⟩ := coalesce_spec ht heq
  rw [hsplit] at ht hf hbehind ⊢
  obtain ⟨u, hu, hused, hlt⟩ := hbehind
  have hfmem : f ∈ q :: xs :=
    (List.mem_append.mp hf.mem).resolve_left fun hmem => hf.free (hus f hmem)
  have hqf := ht.suffix.head_le f hfmem
  have hux : u ∈ xs := by
    rcases List.mem_append.mp hu with hu | hu
    · have := ht.cut.1 u hu
      omega
    · exact (List.mem_cons.mp hu).resolve_left fun huq => by omega
  cases hend with
  | alone _ => exact absurd hux List.not_mem_nil
  | passed hfs _ => exact absurd hused (hfs u hux)
  | @before fs rest e hfs hend =>
    have hutail : u ∈ e :: rest := (List.mem_append.mp hux).resolve_left fun hu => hfs u hu hused
    have heused : h.used e := by
      rcases hend with heused | ⟨rfl, -⟩
      · exact heused
      · exact List.mem_singleton.mp hutail ▸ hused
    have hftail : f ∈ e :: rest := by
      rcases List.mem_append.mp (show f ∈ (q :: fs) ++ e :: rest from hfmem) with hrun | htail
      · have hroom := hf.room e (by simp) heused (ht.run_next hrun).2.2
        rw [ht.joined_size] at hshort
        omega
      · exact htail
    refine ⟨rest, ht.tail.congr ht.joined_behind, fun x hx => by simp_all,
      ⟨hftail, (ht.joined_used hftail).not.mpr hf.free, fun v hv hvused => ?_⟩,
      u, hutail, (ht.joined_used hutail).mpr hused, hlt⟩
    exact hf.room v (by simp_all) ((ht.joined_used hv).mp hvused)

end GuestHeap

end PrplHypervisor
