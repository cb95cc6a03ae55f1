import PrplHypervisor.Heap.FreeList

/-!
# What one call of `malloc` or `free` does

On a heap whose free list is sound both loops end (`mallocLoop_spec`,
`freeLoop_spec`), and the calls are compositions of the edits of the free list:
`malloc_spec` and `free_spec`.

Two situations are left out, both with one free block only. K&R keep a base block
of size zero on the list for ever; here the last free block can be handed out
whole, although it has no other block to be unlinked from, and a block that ends
where the only free block begins absorbs it, although it is its own predecessor.
-/

namespace PrplHypervisor

open Word32 Layout LinkedRing

/-- `malloc` is about to hand out the only free block whole. -/
def Heap.TakesLast (h : Heap) (size : Nat) : Prop :=
  h.next h.freep = h.freep ∧ h.size h.freep = Heap.nunits size

/-- `free` is about to absorb the only free block into the block in front of it. -/
def Heap.AbsorbsLast (h : Heap) (bp : Nat) : Prop :=
  h.next h.freep = h.freep ∧ bp + 8 * h.size bp = h.freep

instance (h : Heap) (size : Nat) : Decidable (h.TakesLast size) := by
  unfold Heap.TakesLast
  infer_instance

instance (h : Heap) (bp : Nat) : Decidable (h.AbsorbsLast bp) := by
  unfold Heap.AbsorbsLast
  infer_instance

namespace Heap

theorem nunits_eq {size : Nat} (hs : size ≤ 2 ^ 32 - 16) : nunits size = (size + 7) / 8 + 1 := by
  unfold nunits add32
  rw [u32_of_lt (x := size + 7) (by omega), u32_of_lt (by omega)]

variable {h : Heap}

/-- The loop of `malloc` finds a block that is large enough, or there is none up to `freep`. -/
theorem mallocLoop_spec {n : Nat} {ws : List Nat} {prevp fuel : Nat}
    (hchain : (prevp :: (ws ++ [h.freep])).IsChain fun a b => h.next a = b)
    (hfp : h.freep ∉ ws) (hfuel : ws.length < fuel) :
    (∃ pr ∈ prevp :: ws, n ≤ h.size (h.next pr) ∧
      mallocLoop h n fuel prevp (h.next prevp) = some (h.take n pr (h.next pr))) ∨
    ((∀ a ∈ ws ++ [h.freep], h.size a < n) ∧
      mallocLoop h n fuel prevp (h.next prevp) = some (h, 0)) := by
  obtain _ | fuel := fuel
  · exact absurd hfuel (Nat.not_lt_zero _)
  induction ws generalizing prevp fuel with
  | nil =>
    have hnext : h.next prevp = h.freep := (List.isChain_cons_cons.mp hchain).1
    by_cases hfit : n ≤ h.size (h.next prevp)
    · refine Or.inl ⟨prevp, List.mem_cons_self, hfit, ?_⟩
      rw [mallocLoop, if_pos hfit]
    · refine Or.inr ⟨?_, ?_⟩
      · rw [hnext] at hfit
        simpa using hfit
      · rw [mallocLoop, if_neg hfit, if_pos hnext]
  | cons w ws ih =>
    obtain _ | fuel := fuel
    · exact absurd hfuel (by simp)
    rw [List.cons_append] at hchain
    obtain ⟨hnext, htail⟩ := List.isChain_cons_cons.mp hchain
    obtain ⟨hne, hfp⟩ := List.ne_and_not_mem_of_not_mem_cons hfp
    by_cases hfit : n ≤ h.size (h.next prevp)
    · refine Or.inl ⟨prevp, List.mem_cons_self, hfit, ?_⟩
      rw [mallocLoop, if_pos hfit]
    -- too small: the loop moves on to the next block
    · have hgo : mallocLoop h n (fuel + 2) prevp (h.next prevp) =
          mallocLoop h n (fuel + 1) w (h.next w) := by
        rw [mallocLoop, if_neg hfit, hnext, if_neg hne.symm]
      rw [hgo]
      rcases ih htail hfp fuel (Nat.lt_of_succ_lt_succ hfuel) with
        ⟨pr, hpr, hsize, heq⟩ | ⟨hall, heq⟩
      · exact Or.inl ⟨pr, List.mem_cons_of_mem _ hpr, hsize, heq⟩
      · refine Or.inr ⟨fun a ha => ?_, heq⟩
        rcases List.mem_cons.mp ha with rfl | ha
        · rw [hnext] at hfit
          omega
        · exact hall a ha

theorem freeLoop_succ {bp fuel p : Nat} :
    freeLoop h bp (fuel + 1) p =
      if Gap p (h.next p) bp then some p else freeLoop h bp fuel (h.next p) := by
  rw [freeLoop]
  by_cases h1 : p < bp ∧ bp < h.next p
  · have hg : Gap p (h.next p) bp := Or.inl h1
    rw [if_pos h1, if_pos hg]
  · by_cases h2 : h.next p ≤ p ∧ (p < bp ∨ bp < h.next p)
    · have hg : Gap p (h.next p) bp := Or.inr h2
      rw [if_neg h1, if_pos h2, if_pos hg]
    · have hg : ¬ Gap p (h.next p) bp := not_or.mpr ⟨h1, h2⟩
      rw [if_neg h1, if_neg h2, if_neg hg]

/-- The loop of `free` stops at a gap when it passes one. -/
theorem freeLoop_spec {bp : Nat} {zs : List Nat} {p fuel : Nat}
    (hchain : (p :: zs).IsChain fun a b => h.next a = b)
    (hgap : ∃ x ∈ p :: zs, Gap x (h.next x) bp) (hfuel : zs.length < fuel) :
    ∃ x ∈ p :: zs, freeLoop h bp fuel p = some x ∧ Gap x (h.next x) bp := by
  obtain _ | fuel := fuel
  · exact absurd hfuel (Nat.not_lt_zero _)
  induction zs generalizing p fuel with
  | nil =>
    obtain ⟨x, hx, hg⟩ := hgap
    obtain rfl := List.mem_singleton.mp hx
    exact ⟨x, hx, by rw [freeLoop_succ, if_pos hg], hg⟩
  | cons w zs ih =>
    obtain _ | fuel := fuel
    · exact absurd hfuel (by simp)
    obtain ⟨hnext, htail⟩ := List.isChain_cons_cons.mp hchain
    rw [freeLoop_succ]
    by_cases hg : Gap p (h.next p) bp
    · exact ⟨p, List.mem_cons_self, if_pos hg, hg⟩
    · rw [if_neg hg, hnext]
      -- the gap is further on
      have hlater : ∃ x ∈ w :: zs, Gap x (h.next x) bp := by
        obtain ⟨x, hx, hgx⟩ := hgap
        rcases List.mem_cons.mp hx with rfl | hx
        · exact absurd hgx hg
        · exact ⟨x, hx, hgx⟩
      obtain ⟨x, hx, heq, hgx⟩ := ih htail hlater fuel (Nat.lt_of_succ_lt_succ hfuel)
      exact ⟨x, List.mem_cons_of_mem _ hx, heq, hgx⟩

/-- `free` once its loop has found the block in front. -/
theorem freeBlock_eq {bp p : Nat} (heq : h.freeLoop bp rounds h.freep = some p) :
    h.freeBlock bp = some (((h.joinNext bp p).joinPrev bp p).setFreep p) := by
  rw [freeBlock, heq, Option.map_some]

end Heap

namespace Arena

variable {lo hi : Nat} {h : Heap} {fs zs : List Nat} {live live' : List Live} {p : Nat}

/-- Moving `freep` does not touch the list. -/
theorem setFreep (ha : Arena lo hi h fs live) : Arena lo hi (h.setFreep p) fs live :=
  ha.of_agree (fun _ _ => rfl) fun _ _ => rfl

/-- A block lies in the arena and has a header at least. -/
theorem bounds (ha : Arena lo hi h fs live) {a : Nat} (hmem : a ∈ fs ++ live.map Live.header) :
    lo ≤ a ∧ a + 8 * h.size a ≤ hi ∧ 0 < h.size a := by
  have hblock : h.block a ∈ (fs ++ live.map Live.header).map h.block := List.mem_map_of_mem hmem
  obtain ⟨hlo, hhi⟩ := ha.parcels.inside _ hblock
  have hpos := ha.parcels.pos _ hblock
  rw [Heap.block_size] at hpos
  exact ⟨hlo, hhi, by omega⟩

theorem live_bounds (ha : Arena lo hi h fs live) {b : Live} (hb : b ∈ live) :
    lo ≤ b.header ∧ b.header + 8 * h.size b.header ≤ hi ∧ 0 < h.size b.header :=
  ha.bounds (Live.header_mem hb fs)

theorem contains_header (ha : Arena lo hi h fs live) {a : Nat}
    (hma : a ∈ fs ++ live.map Live.header) : (h.block a).Contains a := by
  have hpos := (ha.bounds hma).2.2
  refine h.block_contains.mpr ?_
  omega

/-- A held block shares no address with a free one. -/
theorem live_disjoint (ha : Arena lo hi h fs live) {b : Live} (hb : b ∈ live) {a : Nat}
    (hma : a ∈ fs) : (h.block b.header).Disjoint (h.block a) := by
  refine ha.disjoint (Live.header_mem hb fs) (List.mem_append_left _ hma) ?_
  rintro rfl
  exact ha.live_notMem hb hma

/-- The bytes behind a block's header are no header. -/
theorem payload_ne (ha : Arena lo hi h fs live) {a c x : Nat}
    (hma : a ∈ fs ++ live.map Live.header) (hmc : c ∈ fs ++ live.map Live.header)
    (hx : a + 8 ≤ x) (hx' : x < a + 8 * h.size a) : x ≠ c := by
  rintro rfl
  exact ha.disjoint hma hmc (by omega) x (h.block_contains.mpr (by omega)) (ha.contains_header hmc)

/-- Writing behind a block's header keeps the arena. -/
theorem of_payload (ha : Arena lo hi h fs live) {h' : Heap} {a : Nat}
    (hma : a ∈ fs ++ live.map Live.header)
    (hframe : ∀ x, x < a + 8 ∨ a + 8 * h.size a ≤ x → h'.mem x = h.mem x) :
    Arena lo hi h' fs live := by
  have hheader : ∀ c ∈ fs ++ live.map Live.header, h'.mem c = h.mem c := by
    intro c hmc
    refine hframe c ?_
    by_contra hcon
    exact ha.payload_ne hma hmc (by omega) (by omega) rfl
  refine ha.of_agree (fun c hc => ?_) fun c hc => ?_
  · rw [Heap.next, Heap.next, hheader c (List.mem_append_left _ hc)]
  · rw [Heap.size, Heap.size, hheader c hc]

/-- There are fewer free blocks than addresses, so a loop has rounds enough. -/
theorem length_lt (ha : Arena lo hi h (p :: zs) live) (hhi : hi < 2 ^ 32) :
    zs.length < Heap.rounds := by
  have hsub : p :: zs ⊆ List.range hi := by
    intro a hmem
    obtain ⟨-, hhi, hpos⟩ := ha.bounds (List.mem_append_left _ hmem)
    exact List.mem_range.mpr (by omega)
  have hle := (List.subperm_of_subset ha.ascending.nodup hsub).length_le
  rw [List.length_range, List.length_cons] at hle
  exact lt_of_lt_of_le hle hhi.le

/-- `malloc` returns: it hands out a free block that is large enough, or there is none. -/
theorem malloc_cases (ha : Arena lo hi h fs live) (hfp : h.freep ∈ fs) (hlo : 0 < lo)
    (hhi : hi < 2 ^ 32) (size : Nat) :
    (∃ pr ∈ fs, Heap.nunits size ≤ h.size (h.next pr) ∧
      h.malloc size = some (h.take (Heap.nunits size) pr (h.next pr))) ∨
    ((∀ a ∈ fs, h.size a < Heap.nunits size) ∧ h.malloc size = some (h, 0)) := by
  obtain ⟨ws, hr⟩ := exists_rotated_cons hfp
  have hw := ha.rotate hr
  have hne : h.freep ≠ 0 := by
    have := (ha.bounds (List.mem_append_left _ hfp)).1
    omega
  have hlen : ws.length < Heap.rounds := hw.length_lt hhi
  have hmalloc : h.malloc size =
      h.mallocLoop (Heap.nunits size) Heap.rounds h.freep (h.next h.freep) := by
    rw [Heap.malloc, if_neg hne]
  rw [hmalloc]
  rcases Heap.mallocLoop_spec hw.ring (List.nodup_cons.mp hw.ascending.nodup).1 hlen with
    ⟨pr, hpr, hfit, heq⟩ | ⟨hall, heq⟩
  · exact Or.inl ⟨pr, hr.mem_iff.mpr hpr, hfit, heq⟩
  · refine Or.inr ⟨fun a hmem => hall a ?_, heq⟩
    rcases List.mem_cons.mp (hr.mem_iff.mp hmem) with rfl | hmem
    · exact List.mem_append_right _ (List.mem_singleton_self _)
    · exact List.mem_append_left _ hmem

/-- Handing out a block keeps the arena sound unless it is the last one and leaves whole. -/
theorem take_spec (ha : Arena lo hi h fs live) (hfp : h.freep ∈ fs) (hhi : hi < 2 ^ 32)
    {size : Nat} (hs : size ≤ 2 ^ 32 - 16) (hlast : ¬ h.TakesLast size) {pr : Nat} (hpr : pr ∈ fs)
    (hfit : Heap.nunits size ≤ h.size (h.next pr)) :
    ∃ gs, (h.take (Heap.nunits size) pr (h.next pr)).1.freep ∈ gs ∧
      0 < (h.take (Heap.nunits size) pr (h.next pr)).2 ∧
      Arena lo hi (h.take (Heap.nunits size) pr (h.next pr)).1 gs
        (⟨(h.take (Heap.nunits size) pr (h.next pr)).2, size⟩ :: live) := by
  have hn := Heap.nunits_eq hs
  have hq := ha.ring.mem_next hpr
  obtain ⟨-, hqhi, hqpos⟩ := ha.bounds (List.mem_append_left _ hq)
  unfold Heap.take
  by_cases hexact : h.size (h.next pr) = Heap.nunits size
  · rw [if_pos hexact]
    have hadd : add32 (h.next pr) 8 = h.next pr + 8 := u32_of_lt (by omega)
    rcases ha.ring.cases_mem hpr with ⟨rfl, hself⟩ | ⟨zs, hr⟩
    · -- the only free block would leave whole
      have hfreep := List.mem_singleton.mp hfp
      refine absurd ⟨?_, ?_⟩ hlast
      · rw [hfreep, hself]
      · rw [hfreep, ← hexact, hself]
    · refine ⟨pr :: zs, List.mem_cons_self, ?_, ?_⟩
      · rw [hadd]
        exact Nat.succ_pos _
      · rw [hadd]
        exact ((ha.rotate hr).unlink (by omega)).setFreep
  · rw [if_neg hexact]
    -- the tail of the block is handed out
    obtain ⟨zs, hr⟩ := exists_rotated_cons hq
    have htail : add32 (h.next pr) (8 * (h.size (h.next pr) - Heap.nunits size)) =
        h.next pr + 8 * (h.size (h.next pr) - Heap.nunits size) := u32_of_lt (by omega)
    have hadd : add32 (h.next pr + 8 * (h.size (h.next pr) - Heap.nunits size)) 8 =
        h.next pr + 8 * (h.size (h.next pr) - Heap.nunits size) + 8 := u32_of_lt (by omega)
    refine ⟨h.next pr :: zs, hr.mem_iff.mp hpr, ?_, ?_⟩
    · dsimp only
      rw [htail, hadd]
      exact Nat.succ_pos _
    · dsimp only
      rw [htail, hadd]
      refine ((ha.rotate hr).carve ?_ ?_ ?_ ?_).setFreep <;> omega

/-- The loop of `free` finds the place of a block that is not on the list. -/
theorem freeLoop_cases (ha : Arena lo hi h fs live) (hfp : h.freep ∈ fs) (hhi : hi < 2 ^ 32)
    {bp : Nat} (hb : bp ∉ fs) :
    ∃ p ∈ fs, h.freeLoop bp Heap.rounds h.freep = some p ∧ Gap p (h.next p) bp := by
  obtain ⟨x, hx, hgap⟩ := ha.ascending.exists_gap ha.ring (List.ne_nil_of_mem hfp) hb
  obtain ⟨zs, hr⟩ := exists_rotated_cons hfp
  have hz := ha.rotate hr
  have hcycle : (h.freep :: zs ++ [h.freep]).IsChain fun a b => h.next a = b := hz.ring
  have hchain : (h.freep :: zs).IsChain fun a b => h.next a = b := hcycle.left_of_append
  have hlen : zs.length < Heap.rounds := hz.length_lt hhi
  obtain ⟨p, hp, heq, hg⟩ := Heap.freeLoop_spec hchain ⟨x, hr.mem_iff.mp hx, hgap⟩ hlen
  exact ⟨p, hr.mem_iff.mpr hp, heq, hg⟩

/-- Joining a returned block with the block behind it, if that is not the block in
front of it as well. -/
theorem joinNext_spec {b : Live} (ha : Arena lo hi h (p :: zs) live)
    (hperm : live.Perm (b :: live')) (hhi : hi < 2 ^ 32) (hgap : Gap p (h.next p) b.header)
    (hlast : ¬ (h.next p = p ∧ b.header + 8 * h.size b.header = p)) :
    ∃ zs', Arena lo hi ((h.joinNext b.header p).setPtr p b.header) (p :: b.header :: zs')
      live' := by
  have hb : b ∈ live := hperm.mem_iff.mpr List.mem_cons_self
  have hlink := ha.link hperm hgap
  have hnotMem := ha.live_notMem hb
  obtain ⟨hbp, hbz⟩ := List.ne_and_not_mem_of_not_mem_cons hnotMem
  obtain ⟨-, hbhi, -⟩ := ha.live_bounds hb
  have hadd : add32 b.header (8 * h.size b.header) = b.header + 8 * h.size b.header :=
    u32_of_lt (by omega)
  unfold Heap.joinNext
  rw [hadd]
  by_cases hadj : b.header + 8 * h.size b.header = h.next p
  · rw [if_pos hadj]
    cases zs with
    -- the block behind is the one in front: excluded
    | nil =>
      have hself : h.next p = p := linked_singleton.mp ha.ring
      exact absurd ⟨hself, hadj.trans hself⟩ hlast
    | cons q zs =>
      have hq : h.next p = q := ha.ring.next_eq
      have hqp : q ≠ p := by
        rintro rfl
        exact (List.nodup_cons.mp ha.ascending.nodup).1 List.mem_cons_self
      have hqb : q ≠ b.header := fun e => hbz (e ▸ List.mem_cons_self)
      have hqhi :=
        (ha.bounds (List.mem_append_left _ (List.mem_cons_of_mem p List.mem_cons_self))).2.1
      have hsum : add32 (h.size b.header) (h.size q) = h.size b.header + h.size q :=
        u32_of_lt (by omega)
      have hturn : ([p] ++ b.header :: q :: zs) ~r (b.header :: q :: zs ++ [p]) :=
        List.isRotated_append
      have hback : (b.header :: zs ++ [p]) ~r ([p] ++ b.header :: zs) := List.isRotated_append
      have hlinkSize : (h.link p b.header).size = h.size := by
        funext a
        simp [Heap.link]
      -- linked in first and then joined: the same list
      have habs := ((hlink.rotate hturn).absorb (by rw [hlinkSize, hadj, hq])).rotate hback
      have hbn : (h.link p b.header).next b.header = q := by
        unfold Heap.link
        rw [Heap.next_setPtr_of_ne _ _ hbp, Heap.next_setPtr_self, hq]
      have hqn : (h.link p b.header).next q = h.next q := by
        unfold Heap.link
        rw [Heap.next_setPtr_of_ne _ _ hqp, Heap.next_setPtr_of_ne _ _ hqb]
      rw [hq, hsum]
      refine ⟨zs, habs.of_agree (fun a _ => ?_) fun a _ => ?_⟩
      · unfold Heap.absorb
        rw [hbn, hqn]
        unfold Heap.link
        simp only [Heap.next_setPtr, Heap.next_setSize]
        by_cases hab : a = b.header
        · simp [hab, hbp]
        · simp [hab]
      · unfold Heap.absorb
        rw [hbn, hlinkSize]
        simp only [Heap.size_setPtr, Heap.size_setSize, hlinkSize]
  · rw [if_neg hadj]
    exact ⟨zs, hlink⟩

/-- Joining a block with the block in front of it. -/
theorem joinPrev_spec {bp : Nat} (hhi : hi < 2 ^ 32)
    (ha : Arena lo hi (h.setPtr p bp) (p :: bp :: zs) live) :
    ∃ gs, p ∈ gs ∧ Arena lo hi (h.joinPrev bp p) gs live := by
  have hpb : bp ≠ p := by
    rintro rfl
    exact (List.nodup_cons.mp ha.ascending.nodup).1 List.mem_cons_self
  obtain ⟨-, hphi, -⟩ := ha.bounds (List.mem_append_left _ List.mem_cons_self)
  obtain ⟨-, hbhi, -⟩ :=
    ha.bounds (List.mem_append_left _ (List.mem_cons_of_mem p List.mem_cons_self))
  rw [Heap.size_setPtr] at hphi hbhi
  have hadd : add32 p (8 * h.size p) = p + 8 * h.size p := u32_of_lt (by omega)
  unfold Heap.joinPrev
  rw [hadd]
  by_cases hadj : p + 8 * h.size p = bp
  · rw [if_pos hadj]
    have hsum : add32 (h.size p) (h.size bp) = h.size p + h.size bp := u32_of_lt (by omega)
    -- the block in front takes the size and the successor over
    have habs := ha.absorb (by rwa [Heap.size_setPtr])
    refine ⟨p :: zs, List.mem_cons_self, habs.of_agree (fun a _ => ?_) fun a _ => ?_⟩
    · unfold Heap.absorb
      rw [Heap.next_setPtr_self, Heap.next_setPtr_of_ne _ _ hpb]
      simp only [Heap.next_setPtr, Heap.next_setSize]
      by_cases hap : a = p <;> simp [hap]
    · unfold Heap.absorb
      rw [Heap.next_setPtr_self, hsum]
      simp only [Heap.size_setPtr, Heap.size_setSize]
  · rw [if_neg hadj]
    exact ⟨_, List.mem_cons_self, ha⟩

/-- A block that is its own successor is the only one. -/
theorem eq_singleton_of_self (ha : Arena lo hi h fs live) (hp : p ∈ fs) (hself : h.next p = p) :
    fs = [p] := by
  rcases ha.ring.cases_mem hp with ⟨hfs, -⟩ | ⟨zs, hr⟩
  · exact hfs
  · rw [hself] at hr
    have hnd := hr.nodup_iff.mp ha.ascending.nodup
    exact absurd List.mem_cons_self (List.nodup_cons.mp hnd).1

/-- `free` returns, and takes the block back unless it swallows the last free block. -/
theorem free_spec {b : Live} (ha : Arena lo hi h fs live) (hfp : h.freep ∈ fs) (hhi : hi < 2 ^ 32)
    (hperm : live.Perm (b :: live')) (hlast : ¬ h.AbsorbsLast b.header) :
    ∃ h' gs, h.free b.ptr = some h' ∧ h'.freep ∈ gs ∧ Arena lo hi h' gs live' := by
  have hb : b ∈ live := hperm.mem_iff.mpr List.mem_cons_self
  obtain ⟨-, hbhi, hbpos⟩ := ha.live_bounds hb
  have hptr : b.ptr = b.header + 8 := (Nat.sub_add_cancel (ha.holds b hb).1).symm
  have hbp : sub32 b.ptr 8 = b.header := sub32_of_le (by omega) (by omega)
  obtain ⟨p, hp, heq, hgap⟩ := ha.freeLoop_cases hfp hhi (ha.live_notMem hb)
  obtain ⟨zs, hr⟩ := exists_rotated_cons hp
  have hsole : ¬ (h.next p = p ∧ b.header + 8 * h.size b.header = p) := by
    rintro ⟨hself, hadj⟩
    have hfs := ha.eq_singleton_of_self hp hself
    rw [hfs] at hfp
    have hfreep := List.mem_singleton.mp hfp
    exact hlast ⟨by rw [hfreep, hself], by rw [hfreep, hadj]⟩
  -- the two joins, one after the other
  obtain ⟨zs', hnext⟩ := (ha.rotate hr).joinNext_spec hperm hhi hgap hsole
  obtain ⟨gs, hpgs, hprev⟩ := joinPrev_spec hhi hnext
  refine ⟨((h.joinNext b.header p).joinPrev b.header p).setFreep p, gs, ?_, hpgs, hprev.setFreep⟩
  rw [Heap.free, hbp, Heap.freeBlock_eq heq]

end Arena

end PrplHypervisor
