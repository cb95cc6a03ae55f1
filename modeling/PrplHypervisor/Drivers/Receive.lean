import PrplHypervisor.Drivers.Ethernet
import PrplHypervisor.Lib.RingBuffer

/-!
# Reassembly of received frames (drivers/pic32mz-ethernet.c)

The controller leaves a frame in consecutive descriptors of the receive ring.
`en_ll_input` copies them one behind the other and gives them back. After a descriptor it
compares what it has copied with what is left of the frame, and leaves the loop if they
are equal.

- `copyLoop`, `freeLoop`, `enLlInputBytes`: the routine with the bytes it copies and the
  buffers it gives back, over the loops of `enLlInput`.
- `CompleteFrame`: a frame in the ring; `Reassembled`: what the routine ought to do with it.
- `copyLoop_unroll`: as long as the loop goes on it copies descriptor after descriptor.
- `frame_reassembled`: it copies all of them exactly if the frame is not twice as long as
  some of them together, as with 256 or 512 bytes.
-/

namespace PrplHypervisor

open Word32

/-! ## The routine with its bytes -/

/-- `MACH_PHYS_TO_VIRT`. -/
def machPhysToVirt (paddr : Nat) : Nat := paddr ||| 0xa0000000

/-- `cb` bytes of the buffer of a descriptor from `off` on. -/
def fragment (mem : Nat → UInt8) (d : EthDesc) (off cb : Nat) : List UInt8 :=
  (List.range cb).map fun a => mem (machPhysToVirt (add32 d.paddr off) + a)

/-- The copying loop with the bytes it writes to the frame. -/
def copyLoop (mem : Nat → UInt8) (rxDesc : Nat → EthDesc) : Nat → RxLoop → RxLoop × List UInt8
  | 0, s => (s, [])
  | iterations + 1, s =>
    let d := rxDesc s.readIndex
    if s.frameSize = 0 ∨ d.eown then (s, [])
    else
      let cb := min (sub32 d.bytecnt s.descOffset) s.frameSize
      let bytes := fragment mem d s.descOffset cb
      let s' : RxLoop := { s with
        descOffset := add32 s.descOffset cb
        readNbytes := add32 s.readNbytes cb
        frameSize := s.frameSize - cb }
      if s'.descOffset = d.bytecnt then
        let s'' : RxLoop := { s' with descOffset := 0, readIndex := incrRxIndex s'.readIndex }
        -- compared with what is left of the frame, not with its size
        if d.eop ∨ s''.readNbytes = s''.frameSize then (s'', bytes)
        else ((copyLoop mem rxDesc iterations s'').1,
          bytes ++ (copyLoop mem rxDesc iterations s'').2)
      else ((copyLoop mem rxDesc iterations s').1, bytes ++ (copyLoop mem rxDesc iterations s').2)

/-- `DESC_SET_EOWN`. -/
def EthDesc.setEown (d : EthDesc) : EthDesc := { d with hdr := d.hdr ||| 0x80 }

/-- The freeing loop with the number of its writes to `BUFCDEC`. -/
def freeLoop : Nat → (Nat → EthDesc) → Nat → (Nat → EthDesc) × Nat × Nat
  | 0, rxDesc, i => (rxDesc, i, 0)
  | rounds + 1, rxDesc, i =>
    let d := rxDesc i
    if d.eown then (rxDesc, i, 0)
    else
      let rxDesc' := Function.update rxDesc i d.setEown
      if d.eop then (rxDesc', incrRxIndex i, 1)
      else
        let (rxDesc'', i', decrements) := freeLoop rounds rxDesc' (incrRxIndex i)
        (rxDesc'', i', decrements + 1)

/-- What a call of `en_ll_input` does and returns. -/
structure Received where
  port : EthPort
  size : Nat
  written : List UInt8
  decrements : Nat

/-- `en_ll_input` with its copying loop followed for `iterations`. -/
def enLlInputBytes (mem : Nat → UInt8) (e : EthPort) (iterations : Nat) : Received :=
  let d := e.rxDesc e.receiveIndex
  if !e.isUp ∨ d.eown ∨ d.framesz = 0 then ⟨e, 0, [], 0⟩
  else
    let s := copyLoop mem e.rxDesc iterations {
      readIndex := e.receiveIndex, descOffset := 0, readNbytes := 0, frameSize := d.framesz }
    let (rxDesc, receiveIndex, decrements) := freeLoop (rxDescriptors + 1) e.rxDesc e.receiveIndex
    ⟨{ e with rxDesc := rxDesc, receiveIndex := receiveIndex }, d.framesz, s.2, decrements⟩

theorem copyLoop_fst (mem : Nat → UInt8) (rxDesc : Nat → EthDesc) (iterations : Nat) (s : RxLoop) :
    (copyLoop mem rxDesc iterations s).1 = rxLoop rxDesc iterations s := by
  induction iterations generalizing s with
  | zero => rfl
  | succ iterations ih =>
    unfold copyLoop rxLoop
    dsimp only
    split
    · rfl
    · split
      · split
        · rfl
        · exact ih _
      · exact ih _

theorem freeLoop_fst (rounds : Nat) (rxDesc : Nat → EthDesc) (i : Nat) :
    ((freeLoop rounds rxDesc i).1, (freeLoop rounds rxDesc i).2.1) =
      freeDescriptors rounds rxDesc i := by
  induction rounds generalizing rxDesc i with
  | zero => rfl
  | succ rounds ih =>
    unfold freeLoop freeDescriptors
    dsimp only
    split
    · rfl
    · split
      · rfl
      · exact ih _ _

theorem fragment_length (mem : Nat → UInt8) (d : EthDesc) (off cb : Nat) :
    (fragment mem d off cb).length = cb := by
  rw [fragment, List.length_map, List.length_range]

/-- `read_nbytes` counts the bytes written. -/
theorem copyLoop_readNbytes (mem : Nat → UInt8) (rxDesc : Nat → EthDesc) (iterations : Nat)
    {s : RxLoop} (hsmall : s.readNbytes + s.frameSize < 2 ^ 32) :
    (copyLoop mem rxDesc iterations s).1.readNbytes =
      s.readNbytes + (copyLoop mem rxDesc iterations s).2.length := by
  induction iterations generalizing s with
  | zero => rfl
  | succ iterations ih =>
    have hcb : min (sub32 (rxDesc s.readIndex).bytecnt s.descOffset) s.frameSize ≤ s.frameSize :=
      Nat.min_le_right _ _
    have hread : add32 s.readNbytes
        (min (sub32 (rxDesc s.readIndex).bytecnt s.descOffset) s.frameSize) =
        s.readNbytes + min (sub32 (rxDesc s.readIndex).bytecnt s.descOffset) s.frameSize :=
      u32_of_lt (by omega)
    unfold copyLoop
    dsimp only
    split
    · rfl
    · split
      · split
        · rw [fragment_length]
          exact hread
        · rw [ih (by dsimp only; omega), List.length_append, fragment_length, hread, Nat.add_assoc]
      · rw [ih (by dsimp only; omega), List.length_append, fragment_length, hread, Nat.add_assoc]

/-- It is the routine of the hypercall. -/
theorem enLlInputBytes_eq (mem : Nat → UInt8) (e : EthPort) (iterations : Nat) :
    enLlInput e iterations = ((enLlInputBytes mem e iterations).port,
      (enLlInputBytes mem e iterations).size,
      (enLlInputBytes mem e iterations).written.length) := by
  have hsize : (e.rxDesc e.receiveIndex).framesz < 2 ^ 32 := BitVec.isLt _
  unfold enLlInputBytes enLlInput
  dsimp only
  split
  · rfl
  · rw [← freeLoop_fst, ← copyLoop_fst mem,
      copyLoop_readNbytes mem _ _ (by dsimp only; omega), Nat.zero_add]

/-! ## Frames -/

/-- Descriptor `i` of the frame at `receive_index`. -/
def EthPort.desc (e : EthPort) (i : Nat) : EthDesc :=
  e.rxDesc ((e.receiveIndex + i) % rxDescriptors)

/-- The size of the frame at `receive_index`. -/
def EthPort.framesz (e : EthPort) : Nat := (e.desc 0).framesz

/-- A complete frame in `k` descriptors, all full but the last. -/
structure CompleteFrame (e : EthPort) (k : Nat) : Prop where
  up : e.isUp = true
  index : e.receiveIndex < rxDescriptors
  pos : 0 < k
  owned : ∀ i < k, (e.desc i).eown = false
  eop : ∀ i < k, (e.desc i).eop = decide (i + 1 = k)
  full : ∀ i, i + 1 < k → (e.desc i).bytecnt = rxBytesPerDesc
  total : rxBytesPerDesc * (k - 1) + (e.desc (k - 1)).bytecnt = e.framesz
  framesz_pos : 0 < e.framesz
  framesz_le : e.framesz ≤ mtu

instance (e : EthPort) (k : Nat) : Decidable (CompleteFrame e k) :=
  decidable_of_iff (e.isUp = true ∧ e.receiveIndex < rxDescriptors ∧ 0 < k ∧
      (∀ i < k, (e.desc i).eown = false) ∧ (∀ i < k, (e.desc i).eop = decide (i + 1 = k)) ∧
      (∀ i < k, i + 1 < k → (e.desc i).bytecnt = rxBytesPerDesc) ∧
      rxBytesPerDesc * (k - 1) + (e.desc (k - 1)).bytecnt = e.framesz ∧
      0 < e.framesz ∧ e.framesz ≤ mtu)
    ⟨fun ⟨hup, hindex, hpos, howned, heop, hfull, htotal, hsize, hle⟩ =>
        ⟨hup, hindex, hpos, howned, heop, fun i hi => hfull i (Nat.lt_of_succ_lt hi) hi, htotal,
          hsize, hle⟩,
      fun h => ⟨h.up, h.index, h.pos, h.owned, h.eop, fun i _ hi => h.full i hi, h.total,
        h.framesz_pos, h.framesz_le⟩⟩

/-- The bytes of the first `p` descriptors. -/
def frameBytes (mem : Nat → UInt8) (e : EthPort) (p : Nat) : List UInt8 :=
  (List.range p).flatMap fun i => fragment mem (e.desc i) 0 (e.desc i).bytecnt

/-- What the routine ought to do with a frame in `k` descriptors. -/
structure Reassembled (mem : Nat → UInt8) (e : EthPort) (k : Nat) (r : Received) : Prop where
  written : r.written = frameBytes mem e k
  size : r.size = e.framesz
  decrements : r.decrements = k
  givenBack : ∀ i < k, r.port.rxDesc ((e.receiveIndex + i) % rxDescriptors) = (e.desc i).setEown
  kept : ∀ d, (∀ i < k, d ≠ (e.receiveIndex + i) % rxDescriptors) →
    r.port.rxDesc d = e.rxDesc d
  index : r.port.receiveIndex = (e.receiveIndex + k) % rxDescriptors
  index_lt : r.port.receiveIndex < rxDescriptors

/-! ## Giving the descriptors back -/

section Free

variable {ring ring' : Nat → EthDesc} {i m : Nat}

/-- Descriptors `0` to `m` from slot `i` on are given back, and no others. -/
structure GivenBack (i m : Nat) (ring ring' : Nat → EthDesc) : Prop where
  given : ∀ j ≤ m, ring' ((i + j) % rxDescriptors) = (ring ((i + j) % rxDescriptors)).setEown
  kept : ∀ d, (∀ j ≤ m, d ≠ (i + j) % rxDescriptors) → ring' d = ring d

theorem slot_zero (hi : i < rxDescriptors) : (i + 0) % rxDescriptors = i := Nat.mod_eq_of_lt hi

theorem slot_succ (i j : Nat) :
    (incrRxIndex i + j) % rxDescriptors = (i + (j + 1)) % rxDescriptors := by
  rw [incrRxIndex, Nat.mod_add_mod, Nat.add_assoc, Nat.add_comm 1 j]

/-- The slots behind slot `i` are other slots. -/
theorem slot_behind_ne {j : Nat} (hi : i < rxDescriptors) (hj : j + 1 < rxDescriptors) :
    (incrRxIndex i + j) % rxDescriptors ≠ i := by
  have hne := RingRep.slot_ne hj (Nat.zero_lt_of_lt hi) (Nat.succ_ne_zero j) i
  rw [slot_zero hi] at hne
  rwa [slot_succ]

/-- Behind it the descriptor at slot `i` is not seen. -/
theorem update_behind {j : Nat} (hi : i < rxDescriptors) (hj : j + 1 < rxDescriptors)
    (d : EthDesc) : Function.update ring i d ((incrRxIndex i + j) % rxDescriptors) =
      ring ((i + (j + 1)) % rxDescriptors) := by
  rw [Function.update_of_ne (slot_behind_ne hi hj), slot_succ]

theorem GivenBack.single (hi : i < rxDescriptors) :
    GivenBack i 0 ring (Function.update ring i (ring i).setEown) := by
  constructor
  case given =>
    intro j hj
    rw [Nat.le_zero.mp hj, slot_zero hi]
    exact Function.update_self ..
  case kept =>
    intro d hd
    have hne := hd 0 (Nat.le_refl 0)
    rw [slot_zero hi] at hne
    exact Function.update_of_ne hne ..

/-- One descriptor is given back, and then those behind it. -/
theorem GivenBack.cons (hi : i < rxDescriptors) (hm : m + 1 < rxDescriptors)
    (h : GivenBack (incrRxIndex i) m (Function.update ring i (ring i).setEown) ring') :
    GivenBack i (m + 1) ring ring' := by
  constructor
  case given =>
    intro j hj
    cases j with
    | zero =>
      have hfirst := h.kept i fun j hj => (slot_behind_ne hi (by omega)).symm
      rw [Function.update_self] at hfirst
      rwa [slot_zero hi]
    | succ j =>
      have hrest := h.given j (Nat.le_of_succ_le_succ hj)
      rwa [update_behind hi (by omega), slot_succ] at hrest
  case kept =>
    intro d hd
    have hne := hd 0 (Nat.zero_le _)
    rw [slot_zero hi] at hne
    have hrest := h.kept d fun j hj => by
      rw [slot_succ]
      exact hd (j + 1) (Nat.succ_le_succ hj)
    rwa [Function.update_of_ne hne] at hrest

theorem freeLoop_last (rounds : Nat) (hown : (ring i).eown = false) (hend : (ring i).eop = true) :
    freeLoop (rounds + 1) ring i =
      (Function.update ring i (ring i).setEown, incrRxIndex i, 1) := by
  rw [freeLoop]
  simp only [hown, hend, Bool.false_eq_true, if_false, if_true]

theorem freeLoop_more (rounds : Nat) (hown : (ring i).eown = false)
    (hend : (ring i).eop = false) :
    freeLoop (rounds + 1) ring i =
      ((freeLoop rounds (Function.update ring i (ring i).setEown) (incrRxIndex i)).1,
        (freeLoop rounds (Function.update ring i (ring i).setEown) (incrRxIndex i)).2.1,
        (freeLoop rounds (Function.update ring i (ring i).setEown) (incrRxIndex i)).2.2 + 1) := by
  rw [freeLoop]
  simp only [hown, hend, Bool.false_eq_true, if_false]

/-- A frame in `m + 1` descriptors is given back with `m + 1` decrements. -/
theorem freeLoop_frame {rounds : Nat} (hi : i < rxDescriptors) (hm : m < rxDescriptors)
    (hrounds : m + 1 ≤ rounds)
    (howned : ∀ j ≤ m, (ring ((i + j) % rxDescriptors)).eown = false)
    (heop : ∀ j ≤ m, (ring ((i + j) % rxDescriptors)).eop = decide (j = m)) :
    (freeLoop rounds ring i).2 = ((i + (m + 1)) % rxDescriptors, m + 1) ∧
      GivenBack i m ring (freeLoop rounds ring i).1 := by
  induction m generalizing rounds i ring with
  | zero =>
    obtain ⟨rounds, rfl⟩ : ∃ rounds', rounds = rounds' + 1 := ⟨rounds - 1, by omega⟩
    have hown : (ring i).eown = false := slot_zero hi ▸ howned 0 (Nat.le_refl 0)
    have hend : (ring i).eop = true := slot_zero hi ▸ heop 0 (Nat.le_refl 0)
    rw [freeLoop_last rounds hown hend]
    exact ⟨rfl, .single hi⟩
  | succ m ih =>
    obtain ⟨rounds, rfl⟩ : ∃ rounds', rounds = rounds' + 1 := ⟨rounds - 1, by omega⟩
    have hown : (ring i).eown = false := slot_zero hi ▸ howned 0 (Nat.zero_le _)
    have hmore : (ring i).eop = false := slot_zero hi ▸ heop 0 (Nat.zero_le _)
    -- the rest of the frame is the frame behind this descriptor
    have howned' : ∀ j ≤ m, (Function.update ring i (ring i).setEown
        ((incrRxIndex i + j) % rxDescriptors)).eown = false := by
      intro j hj
      rw [update_behind hi (by omega)]
      exact howned (j + 1) (Nat.succ_le_succ hj)
    have heop' : ∀ j ≤ m, (Function.update ring i (ring i).setEown
        ((incrRxIndex i + j) % rxDescriptors)).eop = decide (j = m) := by
      intro j hj
      rw [update_behind hi (by omega), heop (j + 1) (Nat.succ_le_succ hj)]
      exact decide_eq_decide.mpr Nat.add_right_cancel_iff
    obtain ⟨hindex, hback⟩ := @ih (Function.update ring i (ring i).setEown) (incrRxIndex i) rounds
      (Nat.mod_lt _ (by decide)) (Nat.lt_of_succ_lt hm) (by omega) howned' heop'
    rw [freeLoop_more _ hown hmore]
    refine ⟨?_, hback.cons hi hm⟩
    rw [hindex, slot_succ]

end Free

/-! ## Copying the frame -/

section Copy

variable {mem : Nat → UInt8} {ring : Nat → EthDesc} {e : EthPort} {k : Nat}

/-- A descriptor that holds no more than what is left of the frame is copied whole. -/
theorem copyLoop_whole {i n f c : Nat} (hown : (ring i).eown = false)
    (hcount : (ring i).bytecnt = c) (hf : 0 < f) (hc : c ≤ f) (hsmall : n + f < 2 ^ 32)
    (iterations : Nat) :
    (copyLoop mem ring (iterations + 1) ⟨i, 0, n, f⟩).2 = fragment mem (ring i) 0 c ++
      if (ring i).eop = true ∨ n + c = f - c then []
      else (copyLoop mem ring iterations ⟨incrRxIndex i, 0, n + c, f - c⟩).2 := by
  have hcopied : min (sub32 c 0) f = c := by
    rw [sub32_of_le (Nat.zero_le c) (by omega), Nat.sub_zero, Nat.min_eq_left hc]
  have hoffset : add32 0 c = c := by rw [add32, Nat.zero_add, u32_of_lt (by omega)]
  have hread : add32 n c = n + c := u32_of_lt (by omega)
  rw [copyLoop]
  simp only [hown, Bool.false_eq_true, or_false, if_neg (Nat.ne_of_gt hf), hcount, hcopied,
    hoffset, hread, if_true]
  split <;> simp only [List.append_nil]

theorem CompleteFrame.desc_zero (h : CompleteFrame e k) :
    e.desc 0 = e.rxDesc e.receiveIndex := by
  rw [EthPort.desc, slot_zero h.index]

/-- All descriptors but the last are filled by the frame. -/
theorem CompleteFrame.le_framesz (h : CompleteFrame e k) : 128 * (k - 1) ≤ e.framesz :=
  h.total ▸ Nat.le_add_right _ _

theorem CompleteFrame.le_thirteen (h : CompleteFrame e k) : k ≤ 13 := by
  have hle := h.le_framesz
  have hmtu : e.framesz ≤ 1536 := h.framesz_le
  omega

theorem incrRxIndex_desc (i : Nat) : incrRxIndex ((e.receiveIndex + i) % rxDescriptors) =
    (e.receiveIndex + (i + 1)) % rxDescriptors := by
  rw [incrRxIndex, Nat.mod_add_mod, Nat.add_assoc]

theorem frameBytes_succ (mem : Nat → UInt8) (e : EthPort) (p : Nat) :
    frameBytes mem e (p + 1) =
      frameBytes mem e p ++ fragment mem (e.desc p) 0 (e.desc p).bytecnt := by
  rw [frameBytes, List.range_succ, List.flatMap_append, ← frameBytes, List.flatMap_singleton]

/-- The full descriptors of a frame hold 128 bytes each. -/
theorem CompleteFrame.frameBytes_length (h : CompleteFrame e k) {p : Nat} (hp : p < k) :
    (frameBytes mem e p).length = 128 * p := by
  induction p with
  | zero => rfl
  | succ p ih =>
    rw [frameBytes_succ, List.length_append, fragment_length, ih (by omega), h.full p hp,
      rxBytesPerDesc]
    omega

/-- All of them hold the frame. -/
theorem CompleteFrame.frameBytes_framesz (h : CompleteFrame e k) :
    (frameBytes mem e k).length = e.framesz := by
  obtain ⟨p, rfl⟩ := Nat.exists_eq_add_of_lt h.pos
  rw [Nat.zero_add] at h ⊢
  rw [frameBytes_succ, List.length_append, fragment_length, h.frameBytes_length (by omega),
    ← h.total]
  rfl

/-- As long as the comparison fails, full descriptors are copied one after the other. -/
theorem copyLoop_unroll (h : CompleteFrame e k) {p : Nat} (hp : p < k)
    (hgoes : ∀ q, 0 < q → q ≤ p → e.framesz ≠ 256 * q) (iterations : Nat) :
    (copyLoop mem e.rxDesc (iterations + p) ⟨e.receiveIndex, 0, 0, e.framesz⟩).2 =
      frameBytes mem e p ++ (copyLoop mem e.rxDesc iterations
        ⟨(e.receiveIndex + p) % rxDescriptors, 0, 128 * p, e.framesz - 128 * p⟩).2 := by
  have hle := h.le_framesz
  have hmtu : e.framesz ≤ 1536 := h.framesz_le
  induction p generalizing iterations with
  | zero =>
    rw [slot_zero h.index]
    rfl
  | succ p ih =>
    have hstep := ih (by omega) (fun q hq hqp => hgoes q hq (by omega)) (iterations + 1)
    rw [Nat.add_right_comm] at hstep
    rw [← Nat.add_assoc, hstep, frameBytes_succ, List.append_assoc]
    refine congrArg (frameBytes mem e p ++ ·) ?_
    -- another full descriptor, neither the last nor half of the frame
    have hmore : (e.desc p).eop = false := by
      rw [h.eop p (by omega)]
      exact decide_eq_false (by omega)
    have hnot := hgoes (p + 1) (Nat.succ_pos p) (Nat.le_refl _)
    have hone := @copyLoop_whole mem e.rxDesc ((e.receiveIndex + p) % rxDescriptors) (128 * p)
      (e.framesz - 128 * p) rxBytesPerDesc (h.owned p (by omega)) (h.full p hp) (by omega)
      (by rw [rxBytesPerDesc]; omega) (by omega) iterations
    rw [hone, h.full p hp]
    refine congrArg (fragment mem (e.desc p) 0 rxBytesPerDesc ++ ·) ?_
    rw [if_neg, incrRxIndex_desc]
    · have hn : 128 * p + rxBytesPerDesc = 128 * (p + 1) := by
        rw [rxBytesPerDesc]
        omega
      have hf : e.framesz - 128 * p - rxBytesPerDesc = e.framesz - 128 * (p + 1) := by
        rw [rxBytesPerDesc]
        omega
      rw [hn, hf]
    · rintro (hend | heq)
      · exact absurd (hmore.symm.trans hend) Bool.false_ne_true
      · rw [rxBytesPerDesc] at heq
        omega

/-- What is left of the frame is the last descriptor. -/
theorem copyLoop_last {i n f : Nat} (hown : (ring i).eown = false) (hend : (ring i).eop = true)
    (hcount : (ring i).bytecnt = f) (hsmall : n + f < 2 ^ 32) (iterations : Nat) :
    (copyLoop mem ring (iterations + 1) ⟨i, 0, n, f⟩).2 = fragment mem (ring i) 0 f := by
  rcases Nat.eq_zero_or_pos f with rfl | hf
  · rw [copyLoop]
    simp only [true_or, if_true]
    rfl
  · rw [copyLoop_whole hown hcount hf (Nat.le_refl f) hsmall, if_pos (Or.inl hend),
      List.append_nil]

/-- The whole frame is copied if the comparison fails all along. -/
theorem CompleteFrame.copyLoop_all (h : CompleteFrame e k) {iterations : Nat} (hit : k ≤ iterations)
    (hgoes : ∀ j, 0 < j → j < k → e.framesz ≠ 256 * j) :
    (copyLoop mem e.rxDesc iterations ⟨e.receiveIndex, 0, 0, e.framesz⟩).2 =
      frameBytes mem e k := by
  obtain ⟨p, rfl⟩ : ∃ p, k = p + 1 := ⟨k - 1, (Nat.sub_add_cancel h.pos).symm⟩
  obtain ⟨extra, rfl⟩ : ∃ extra, iterations = extra + 1 + p := ⟨iterations - (p + 1), by omega⟩
  have hp : p < p + 1 := Nat.lt_succ_self p
  have hmtu : e.framesz ≤ 1536 := h.framesz_le
  have htotal : 128 * p + (e.desc p).bytecnt = e.framesz := h.total
  have hlast := @copyLoop_last mem e.rxDesc ((e.receiveIndex + p) % rxDescriptors) (128 * p)
    (e.framesz - 128 * p) (h.owned p hp) ((h.eop p hp).trans (decide_eq_true rfl))
    (show (e.desc p).bytecnt = _ by omega) (by omega) extra
  rw [copyLoop_unroll h hp (fun q hq hqp => hgoes q hq (by omega)), hlast, frameBytes_succ]
  have hleft : e.framesz - 128 * p = (e.desc p).bytecnt := by omega
  rw [hleft, EthPort.desc]

/-- Only the first half is copied if some of the descriptors hold half of the frame. -/
theorem CompleteFrame.copyLoop_half (h : CompleteFrame e k) {iterations j : Nat}
    (hit : k ≤ iterations) (hpos : 0 < j) (hj : j < k) (hhalf : e.framesz = 256 * j) :
    (copyLoop mem e.rxDesc iterations ⟨e.receiveIndex, 0, 0, e.framesz⟩).2 =
      frameBytes mem e j := by
  obtain ⟨p, rfl⟩ : ∃ p, j = p + 1 := ⟨j - 1, (Nat.sub_add_cancel hpos).symm⟩
  obtain ⟨extra, rfl⟩ : ∃ extra, iterations = extra + 1 + p := ⟨iterations - (p + 1), by omega⟩
  have hmtu : e.framesz ≤ 1536 := h.framesz_le
  have hone := @copyLoop_whole mem e.rxDesc ((e.receiveIndex + p) % rxDescriptors) (128 * p)
    (e.framesz - 128 * p) rxBytesPerDesc (h.owned p (by omega)) (h.full p hj) (by omega)
    (by rw [rxBytesPerDesc]; omega) (by omega) extra
  -- as much is read as is left
  have hequal : 128 * p + rxBytesPerDesc = e.framesz - 128 * p - rxBytesPerDesc := by
    rw [rxBytesPerDesc]
    omega
  rw [copyLoop_unroll h (by omega) (fun q _ hqp => by omega), hone, if_pos (Or.inr hequal),
    List.append_nil, frameBytes_succ, h.full p hj, EthPort.desc]

end Copy

/-! ## The routine on a complete frame -/

/-- What the routine does with a complete frame, but for the bytes it copies. -/
theorem CompleteFrame.received {e : EthPort} {k : Nat} (h : CompleteFrame e k)
    (mem : Nat → UInt8) (iterations : Nat) :
    enLlInputBytes mem e iterations =
      ⟨{ e with
          rxDesc := (freeLoop (rxDescriptors + 1) e.rxDesc e.receiveIndex).1
          receiveIndex := (freeLoop (rxDescriptors + 1) e.rxDesc e.receiveIndex).2.1 },
        e.framesz, (copyLoop mem e.rxDesc iterations ⟨e.receiveIndex, 0, 0, e.framesz⟩).2,
        (freeLoop (rxDescriptors + 1) e.rxDesc e.receiveIndex).2.2⟩ := by
  have hown := h.owned 0 h.pos
  have hsize := Nat.ne_of_gt h.framesz_pos
  rw [EthPort.framesz] at hsize
  rw [h.desc_zero] at hown hsize
  rw [EthPort.framesz, h.desc_zero, enLlInputBytes]
  simp only [h.up, hown, hsize, Bool.not_true, Bool.false_eq_true, or_self, if_false]

/-- The routine reassembles a complete frame exactly if no descriptors in front of the
last one hold just half of it. -/
theorem frame_reassembled (mem : Nat → UInt8) {e : EthPort} {k : Nat} (h : CompleteFrame e k)
    {iterations : Nat} (hit : k ≤ iterations) :
    Reassembled mem e k (enLlInputBytes mem e iterations) ↔
      ∀ j, 0 < j → j < k → e.framesz ≠ 2 * (rxBytesPerDesc * j) := by
  have hdouble : ∀ j, 2 * (rxBytesPerDesc * j) = 256 * j := fun j => by
    rw [rxBytesPerDesc]
    omega
  simp only [hdouble]
  constructor
  · intro hr j hpos hj hhalf
    have hwritten := hr.written
    rw [h.received] at hwritten
    have hlen := congrArg List.length ((h.copyLoop_half hit hpos hj hhalf).symm.trans hwritten)
    rw [h.frameBytes_length hj, h.frameBytes_framesz] at hlen
    omega
  · intro hgoes
    obtain ⟨m, rfl⟩ : ∃ m, k = m + 1 := ⟨k - 1, (Nat.sub_add_cancel h.pos).symm⟩
    have hthirteen := h.le_thirteen
    have hring : rxDescriptors = 48 := rfl
    obtain ⟨hindex, hback⟩ := @freeLoop_frame e.rxDesc e.receiveIndex m (rxDescriptors + 1)
      h.index (by omega) (by omega)
      (fun j hj => h.owned j (Nat.lt_succ_of_le hj))
      (fun j hj => (h.eop j (Nat.lt_succ_of_le hj)).trans
        (decide_eq_decide.mpr Nat.add_right_cancel_iff))
    rw [h.received]
    refine ⟨h.copyLoop_all hit hgoes, rfl, ?_, ?_, ?_, ?_, ?_⟩
    · exact congrArg Prod.snd hindex
    · exact fun i hi => hback.given i (Nat.le_of_lt_succ hi)
    · exact fun d hd => hback.kept d fun j hj => hd j (Nat.lt_succ_of_le hj)
    · exact congrArg Prod.fst hindex
    · rw [hindex]
      exact Nat.mod_lt _ (by decide)

/-- A frame of 128 bytes and `last` more, around the end of the ring. -/
def frameInTwo (last : Nat) : EthPort where
  isUp := true
  rxDesc
    | 47 => ⟨0x80800000, 0x1000, 0, BitVec.ofNat 32 (128 + last)⟩
    | 0 => ⟨0x40000000 ||| BitVec.ofNat 32 (last <<< 16), 0x2000, 0, 0⟩
    | _ => ⟨0x80, 0x3000, 0, 0⟩
  txDesc := ⟨0, 0, 0, 0⟩
  receiveIndex := 47
  transmitting := false

theorem frame_reassembled_200 : Reassembled (fun _ => 0) (frameInTwo 72) 2
    (enLlInputBytes (fun _ => 0) (frameInTwo 72) 2) := by
  refine (frame_reassembled (fun _ => 0) (by decide : CompleteFrame (frameInTwo 72) 2)
    (Nat.le_refl 2)).mpr fun j hpos hj => ?_
  obtain rfl : j = 1 := by omega
  decide

/-- Of 256 bytes the routine copies 128, and returns 256, also to the hypercall. -/
theorem frame_256_cut :
    CompleteFrame (frameInTwo 128) 2 ∧
      (enLlInputBytes (fun _ => 0) (frameInTwo 128) 2).size = 256 ∧
      (enLlInputBytes (fun _ => 0) (frameInTwo 128) 2).written.length = 128 ∧
      (enLlInput (frameInTwo 128) 2).2 = (256, 128) ∧
      ¬ Reassembled (fun _ => 0) (frameInTwo 128) 2
        (enLlInputBytes (fun _ => 0) (frameInTwo 128) 2) := by
  have hframe : CompleteFrame (frameInTwo 128) 2 := by decide
  have hhalf := @CompleteFrame.copyLoop_half (fun _ => 0) (frameInTwo 128) 2 hframe 2 1
    (Nat.le_refl 2) Nat.one_pos (by decide) (by decide)
  have hwritten : (enLlInputBytes (fun _ => 0) (frameInTwo 128) 2).written =
      frameBytes (fun _ => 0) (frameInTwo 128) 1 := by
    rw [hframe.received]
    exact hhalf
  have hlen := @CompleteFrame.frameBytes_length (fun _ => 0) (frameInTwo 128) 2 hframe 1 (by decide)
  have hsize : (enLlInputBytes (fun _ => 0) (frameInTwo 128) 2).size = 256 := by
    rw [hframe.received]
    decide
  refine ⟨hframe, hsize, ?_, ?_, fun hr => ?_⟩
  · rw [hwritten, hlen]
  · rw [enLlInputBytes_eq (fun _ => 0), hsize, hwritten, hlen]
  · have hall := congrArg List.length hr.written
    rw [hwritten, hlen, hframe.frameBytes_framesz] at hall
    exact absurd hall (by decide)

end PrplHypervisor
