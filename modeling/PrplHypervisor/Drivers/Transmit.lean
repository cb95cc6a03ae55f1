import PrplHypervisor.Drivers.Ethernet
import PrplHypervisor.Lib.Lts
import PrplHypervisor.Lib.SharedBuffer

/-!
# Sending frames (drivers/pic32mz-ethernet.c)

`send_frame` copies the frame to `tx_buf` before `en_ll_output` waits for the controller to
finish with the previous one, and only `en_ll_output` looks at the size, in 16 bits. The
controller fetches the bytes of `tx_buf` one by one while the processor goes on.

- `Transmitter`: processor and controller around the one buffer and descriptor.
- `txStep`: their steps; the copy goes byte by byte, the finest interleaving.
- `TxKept`: frames of at most `mtu` bytes, and no copy over a byte still to be fetched.
- `transmit_faithful`: then the frames of the calls that have returned are the frames
  transmitted and the one in flight, in order.
-/

namespace PrplHypervisor

/-- A call of `send_frame`: the size in `a1`, the mapped address of the frame and the bytes
found there. -/
structure SendCall where
  size : Nat
  mapped : Nat
  src : Nat → UInt8

/-- The bytes submitted. -/
def SendCall.frame (c : SendCall) : List UInt8 := (List.range c.size).map c.src

/-- Where the processor stands. -/
inductive SendPhase where
  | idle
  /-- In `memcpy`, with the number of bytes moved. -/
  | copying (c : SendCall) (moved : Nat)
  /-- At the test of TXRTS. -/
  | waiting (c : SendCall)

/-- The driver and the controller; the buffer is memory from `tx_buf` on. -/
structure Transmitter where
  port : EthPort
  buffer : SharedBuffer UInt8
  phase : SendPhase

inductive TxEvent where
  | call (c : SendCall)
  /-- `memcpy` moves a byte. -/
  | copy
  /-- `memcpy` is done and `en_ll_output` checks the size. -/
  | output
  /-- TXRTS is found clear: the controller is started. -/
  | start
  /-- The controller fetches a byte. -/
  | fetch (i : Nat)
  /-- The controller has sent the frame and clears TXRTS. -/
  | finish

inductive TxObs where
  | returned (v0 : Nat) (frame : List UInt8)
  | transmitted (frame : List UInt8)
  deriving DecidableEq

/-- The controller has something left to fetch at position `i`. -/
def ToFetch (s : Transmitter) (i : Nat) : Prop :=
  s.port.transmitting = true ∧ i < s.port.txDesc.bytecnt ∧ s.buffer.taken i = none

instance (s : Transmitter) (i : Nat) : Decidable (ToFetch s i) :=
  inferInstanceAs (Decidable (_ ∧ _))

/-- One step of the processor or of the controller. -/
def txStep (txBuf : Nat) (s : Transmitter) : TxEvent → Option (Transmitter × List TxObs)
  | .call c =>
    match s.phase with
    | .idle => some ({ s with phase := .copying c 0 }, [])
    | _ => none
  | .copy =>
    match s.phase with
    | .copying c moved =>
      if moved < memcpyBytes txBuf c.mapped c.size then
        some ({ s with
          buffer := s.buffer.write moved (c.src moved)
          phase := .copying c (moved + 1) }, [])
      else none
    | _ => none
  | .output =>
    match s.phase with
    | .copying c moved =>
      if moved < memcpyBytes txBuf c.mapped c.size then none
      else if 0 < c.size % 2 ^ 16 ∧ c.size % 2 ^ 16 ≤ mtu then
        some ({ s with phase := .waiting c }, [])
      else some ({ s with phase := .idle }, [.returned c.size c.frame])
    | _ => none
  | .start =>
    match s.phase with
    | .waiting c =>
      if s.port.transmitting then none
      else
        some ({ port := enLlOutput s.port txBuf c.size, buffer := s.buffer.reset, phase := .idle },
          [.returned c.size c.frame])
    | _ => none
  | .fetch i => if ToFetch s i then some ({ s with buffer := s.buffer.take i }, []) else none
  | .finish =>
    if s.port.transmitting = true ∧ ∀ i < s.port.txDesc.bytecnt, s.buffer.taken i ≠ none then
      some ({ s with port := { s.port with transmitting := false } },
        [.transmitted (s.buffer.collected s.port.txDesc.bytecnt)])
    else none

/-! ## What is promised -/

/-- Frames of the calls that have returned a positive size. -/
def returnedFrames (tr : List TxObs) : List (List UInt8) :=
  tr.filterMap fun
    | .returned v0 frame => if 0 < v0 then some frame else none
    | .transmitted _ => none

def transmittedFrames (tr : List TxObs) : List (List UInt8) :=
  tr.filterMap fun
    | .returned .. => none
    | .transmitted frame => some frame

/-- The frame the controller is busy with, as it will leave it if nothing is written. -/
def inFlight (s : Transmitter) : List (List UInt8) :=
  if s.port.transmitting = true then [s.buffer.image s.port.txDesc.bytecnt] else []

/-- The frames fit the buffer, and the copy changes no byte the controller has still to
fetch. -/
def TxKept (s : Transmitter) : TxEvent → Prop
  | .call c => c.size ≤ mtu
  | .copy =>
    match s.phase with
    | .copying c moved => ToFetch s moved → c.src moved = s.buffer.data moved
    | _ => True
  | _ => True

/-- The driver with nothing in flight. -/
structure TxInitial (s : Transmitter) : Prop where
  phase : s.phase = .idle
  transmitting : s.port.transmitting = false

/-- What the processor has done of its call. -/
def SendProgress (data : Nat → UInt8) : SendPhase → Prop
  | .idle => True
  | .copying c moved => c.size ≤ mtu ∧ moved ≤ c.size ∧ ∀ i < moved, data i = c.src i
  | .waiting c => 0 < c.size ∧ c.size ≤ mtu ∧ ∀ i < c.size, data i = c.src i

/-- Frames returned are frames transmitted and the one in flight. -/
structure Faithful (tr : List TxObs) (s : Transmitter) : Prop where
  progress : SendProgress s.buffer.data s.phase
  frames : returnedFrames tr = transmittedFrames tr ++ inFlight s

/-- The count of the descriptor is the size it was given. -/
theorem enLlOutput_bytecnt (e : EthPort) (frame : Nat) {size : Nat} (hpos : 0 < size)
    (hle : size ≤ mtu) : (enLlOutput e frame size).txDesc.bytecnt = size ∧
      (enLlOutput e frame size).transmitting = true := by
  have hmod : size % 2 ^ 16 = size := Nat.mod_eq_of_lt (by simp only [mtu] at hle; omega)
  unfold enLlOutput
  dsimp only
  rw [hmod, if_pos ⟨hpos, hle⟩]
  refine ⟨?_, rfl⟩
  show ((((0xC0000080 : Word) ||| BitVec.ofNat 32 (size <<< 16)) >>> 16) &&& 0x7ff).toNat = size
  have hlt : size < 2 ^ 11 := Nat.lt_of_le_of_lt hle (by decide)
  have hfield : size <<< 16 < 2 ^ 32 := by
    rw [Nat.shiftLeft_eq]
    omega
  -- the flags are above and below the count, which comes back under the mask
  rw [BitVec.toNat_and, BitVec.toNat_ushiftRight, BitVec.toNat_or, BitVec.toNat_ofNat,
    Nat.mod_eq_of_lt hfield, Nat.shiftRight_or_distrib, Nat.shiftLeft_shiftRight,
    Nat.and_or_distrib_right]
  show 0 ||| size &&& (2 ^ 11 - 1) = size
  rw [Nat.and_two_pow_sub_one_eq_mod, Nat.mod_eq_of_lt hlt, Nat.zero_or]

/-! ## One step -/

theorem returnedFrames_append (tr os : List TxObs) :
    returnedFrames (tr ++ os) = returnedFrames tr ++ returnedFrames os :=
  List.filterMap_append ..

theorem transmittedFrames_append (tr os : List TxObs) :
    transmittedFrames (tr ++ os) = transmittedFrames tr ++ transmittedFrames os :=
  List.filterMap_append ..

theorem SendProgress.copied {txBuf : Nat} {data : Nat → UInt8} {c : SendCall} {moved : Nat}
    (h : SendProgress data (.copying c moved))
    (hdone : ¬ moved < memcpyBytes txBuf c.mapped c.size) :
    c.size ≤ mtu ∧ ∀ i < c.size, data i = c.src i := by
  obtain ⟨hmtu, -, hdata⟩ := h
  have hbytes : memcpyBytes txBuf c.mapped c.size = c.size :=
    memcpyBytes_of_lt (by simp only [mtu] at hmtu; omega) ..
  exact ⟨hmtu, fun i hi => hdata i (by omega)⟩

section Step

variable {txBuf : Nat} {tr : List TxObs} {s : Transmitter}

theorem Faithful.copy (h : Faithful tr s) {c : SendCall} {moved : Nat}
    (hphase : s.phase = .copying c moved) (hlt : moved < memcpyBytes txBuf c.mapped c.size)
    (hok : ToFetch s moved → c.src moved = s.buffer.data moved) :
    Faithful tr { s with
      buffer := s.buffer.write moved (c.src moved), phase := .copying c (moved + 1) } := by
  obtain ⟨hprogress, hframes⟩ := h
  rw [hphase] at hprogress
  obtain ⟨hmtu, hle, hdata⟩ := hprogress
  have hbytes : memcpyBytes txBuf c.mapped c.size = c.size :=
    memcpyBytes_of_lt (by simp only [mtu] at hmtu; omega) ..
  constructor
  · refine ⟨hmtu, by omega, fun i hi => ?_⟩
    show Function.update s.buffer.data moved (c.src moved) i = c.src i
    by_cases hi' : i = moved
    · rw [hi', Function.update_self]
    · rw [Function.update_of_ne hi']
      exact hdata i (by omega)
  · rw [hframes]
    unfold inFlight
    by_cases htx : s.port.transmitting = true
    · rw [if_pos htx, if_pos htx, s.buffer.image_write fun hcnt hfree => hok ⟨htx, hcnt, hfree⟩]
    · rw [if_neg htx, if_neg htx]

theorem Faithful.start (h : Faithful tr s) {c : SendCall} (hphase : s.phase = .waiting c)
    (htx : s.port.transmitting = false) :
    Faithful (tr ++ [.returned c.size c.frame])
      { port := enLlOutput s.port txBuf c.size, buffer := s.buffer.reset, phase := .idle } := by
  obtain ⟨hprogress, hframes⟩ := h
  rw [hphase] at hprogress
  obtain ⟨hpos, hmtu, hdata⟩ := hprogress
  obtain ⟨hcnt, hstarted⟩ := enLlOutput_bytecnt s.port txBuf hpos hmtu
  refine ⟨trivial, ?_⟩
  have himage : s.buffer.reset.image c.size = c.frame :=
    List.map_congr_left fun i hi => hdata i (List.mem_range.mp hi)
  rw [returnedFrames_append, transmittedFrames_append, hframes]
  simp [inFlight, htx, hcnt, hstarted, himage, returnedFrames, transmittedFrames, hpos]

/-- The length check leaves a frame to wait for its descriptor, or returns 0. -/
theorem Faithful.output (h : Faithful tr s) {c : SendCall} {moved : Nat}
    (hphase : s.phase = .copying c moved) (hdone : ¬ moved < memcpyBytes txBuf c.mapped c.size) :
    (0 < c.size % 2 ^ 16 ∧ c.size % 2 ^ 16 ≤ mtu → Faithful tr { s with phase := .waiting c }) ∧
      (¬ (0 < c.size % 2 ^ 16 ∧ c.size % 2 ^ 16 ≤ mtu) →
        Faithful (tr ++ [.returned c.size c.frame]) { s with phase := .idle }) := by
  obtain ⟨hprogress, hframes⟩ := h
  rw [hphase] at hprogress
  obtain ⟨hmtu, hdata⟩ := hprogress.copied hdone
  have hmod : c.size % 2 ^ 16 = c.size := Nat.mod_eq_of_lt (by simp only [mtu] at hmtu; omega)
  rw [hmod]
  constructor
  · intro hsize
    exact ⟨⟨hsize.1, hmtu, hdata⟩, hframes⟩
  · intro hsize
    -- a frame that fits is refused for its size only if that is 0
    have hzero : ¬ 0 < c.size := fun hpos => hsize ⟨hpos, hmtu⟩
    refine ⟨trivial, ?_⟩
    rw [returnedFrames_append, transmittedFrames_append, hframes]
    simp [returnedFrames, transmittedFrames, hzero, inFlight]

/-- The byte fetched is the one the frame in flight already had. -/
theorem Faithful.fetch (h : Faithful tr s) {i : Nat} (hfetch : ToFetch s i) :
    Faithful tr { s with buffer := s.buffer.take i } := by
  refine ⟨h.progress, ?_⟩
  rw [h.frames]
  unfold inFlight
  rw [if_pos hfetch.1, if_pos hfetch.1, s.buffer.image_take hfetch.2.2]

theorem Faithful.finish (h : Faithful tr s) (htx : s.port.transmitting = true)
    (hall : ∀ i < s.port.txDesc.bytecnt, s.buffer.taken i ≠ none) :
    Faithful (tr ++ [.transmitted (s.buffer.collected s.port.txDesc.bytecnt)])
      { s with port := { s.port with transmitting := false } } := by
  refine ⟨h.progress, ?_⟩
  have hcollected := s.buffer.collected_eq fun i hi => Option.isSome_iff_ne_none.mpr (hall i hi)
  rw [returnedFrames_append, transmittedFrames_append, h.frames]
  simp [inFlight, htx, hcollected, returnedFrames, transmittedFrames]

/-- What one step keeps. -/
theorem Faithful.step (h : Faithful tr s) {e : TxEvent} (hok : TxKept s e) {s' : Transmitter}
    {os : List TxObs} (hstep : txStep txBuf s e = some (s', os)) : Faithful (tr ++ os) s' := by
  unfold txStep at hstep
  cases e with
  | call c =>
    dsimp only at hstep
    split at hstep
    case h_1 =>
      obtain ⟨rfl, rfl⟩ := Prod.mk.inj (Option.some.inj hstep)
      rw [List.append_nil]
      exact ⟨⟨hok, Nat.zero_le _, fun i hi => absurd hi (Nat.not_lt_zero i)⟩, h.frames⟩
    case h_2 => cases hstep
  | copy =>
    dsimp only at hstep
    split at hstep
    case h_1 c moved hphase =>
      split at hstep
      case isTrue hlt =>
        obtain ⟨rfl, rfl⟩ := Prod.mk.inj (Option.some.inj hstep)
        rw [List.append_nil]
        unfold TxKept at hok
        simp only [hphase] at hok
        exact h.copy hphase hlt hok
      case isFalse => cases hstep
    case h_2 => cases hstep
  | output =>
    dsimp only at hstep
    split at hstep
    case h_1 c moved hphase =>
      split at hstep
      case isTrue => cases hstep
      case isFalse hdone =>
        split at hstep
        case isTrue hsize =>
          obtain ⟨rfl, rfl⟩ := Prod.mk.inj (Option.some.inj hstep)
          rw [List.append_nil]
          exact (h.output hphase hdone).1 hsize
        case isFalse hsize =>
          obtain ⟨rfl, rfl⟩ := Prod.mk.inj (Option.some.inj hstep)
          exact (h.output hphase hdone).2 hsize
    case h_2 => cases hstep
  | start =>
    dsimp only at hstep
    split at hstep
    case h_1 c hphase =>
      split at hstep
      case isTrue => cases hstep
      case isFalse htx =>
        obtain ⟨rfl, rfl⟩ := Prod.mk.inj (Option.some.inj hstep)
        exact h.start hphase (Bool.eq_false_iff.mpr htx)
    case h_2 => cases hstep
  | fetch i =>
    dsimp only at hstep
    split at hstep
    case isTrue hfetch =>
      obtain ⟨rfl, rfl⟩ := Prod.mk.inj (Option.some.inj hstep)
      rw [List.append_nil]
      exact h.fetch hfetch
    case isFalse => cases hstep
  | finish =>
    dsimp only at hstep
    split at hstep
    case isTrue hdone =>
      obtain ⟨rfl, rfl⟩ := Prod.mk.inj (Option.some.inj hstep)
      exact h.finish hdone.1 hdone.2
    case isFalse => cases hstep

end Step

/-- **Transmission is faithful.** In every run whose calls fit the buffer and copy over no
byte still to be fetched, the frames of the calls that returned a positive size are, in
order, the frames transmitted and the one in flight. -/
theorem transmit_faithful (txBuf : Nat) {s₀ s : Transmitter} (h₀ : TxInitial s₀)
    {tr : List TxObs} (hrun : Lts.Run (txStep txBuf) TxKept s₀ tr s) :
    returnedFrames tr = transmittedFrames tr ++ inFlight s ∧
      (s.port.transmitting = false → returnedFrames tr = transmittedFrames tr) := by
  have hfaithful : Faithful tr s := by
    refine hrun.invariant Faithful ⟨?_, ?_⟩ fun _ _ _ _ _ hI hok hstep => hI.step hok hstep
    · rw [h₀.phase]
      trivial
    · simp [inFlight, h₀.transmitting, returnedFrames, transmittedFrames]
  refine ⟨hfaithful.frames, fun hdone => ?_⟩
  have hframes := hfaithful.frames
  rwa [inFlight, if_neg (by simp [hdone]), List.append_nil] at hframes

instance : DecidableRel TxKept
  | s, .copy =>
    match h : s.phase with
    | .copying c moved => decidable_of_iff (ToFetch s moved → c.src moved = s.buffer.data moved)
        (by simp only [TxKept, h])
    | .idle | .waiting _ => .isTrue (by simp only [TxKept, h])
  | _, .call c => inferInstanceAs (Decidable (c.size ≤ mtu))
  | _, .output | _, .start | _, .fetch _ | _, .finish => .isTrue trivial

/-- The driver before the first call. -/
def idleTransmitter : Transmitter where
  port := {
    isUp := true
    rxDesc := fun _ => ⟨0, 0, 0, 0⟩
    txDesc := ⟨0, 0, 0, 0⟩
    receiveIndex := 0
    transmitting := false }
  buffer := ⟨fun _ => 0, fun _ => none⟩
  phase := .idle

/-- A frame of two equal bytes. -/
def pairOf (x : UInt8) : SendCall := ⟨2, 0x80010001, fun _ => x⟩

/-- Two frames, the second copied when the first has been fetched. -/
theorem transmit_faithful_pair :
    ∃ tr s, Lts.Run (txStep 0xA0001000) TxKept idleTransmitter tr s ∧
      s.port.transmitting = false ∧ returnedFrames tr = [[7, 7], [9, 9]] ∧
      returnedFrames tr = transmittedFrames tr := by
  have hrun := Lts.exec_run (show (Lts.exec (txStep 0xA0001000) TxKept idleTransmitter
    [.call (pairOf 7), .copy, .copy, .output, .start, .fetch 1, .fetch 0,
      .call (pairOf 9), .copy, .copy, .output, .finish, .start,
      .fetch 0, .fetch 1, .finish]).isSome = true by decide)
  exact ⟨_, _, hrun, by decide, by decide, (transmit_faithful _ ⟨rfl, rfl⟩ hrun).2 (by decide)⟩

/-- The second frame is copied over a byte of the first that is still to be fetched. -/
theorem frame_overwritten_pair :
    ∃ tr s, Lts.Run (txStep 0xA0001000) Lts.anyEvent idleTransmitter tr s ∧
      s.port.transmitting = false ∧ returnedFrames tr = [[7, 7]] ∧
      transmittedFrames tr = [[7, 9]] := by
  have hrun := Lts.exec_run (show (Lts.exec (txStep 0xA0001000) Lts.anyEvent idleTransmitter
    [.call (pairOf 7), .copy, .copy, .output, .start, .fetch 0,
      .call (pairOf 9), .copy, .copy, .fetch 1, .finish]).isSome = true by decide)
  exact ⟨_, _, hrun, by decide, by decide, by decide⟩

end PrplHypervisor
