import PrplHypervisor.Drivers.UsbHost

/-!
# Receiving the descriptor (drivers/pic32mz-usb.c)

`read_descriptor` appends each packet at `received` and asks whether the descriptor is
complete afterwards, with sizes that the device has sent.

- `descriptorWrites`: the indices a packet is written to.
- `readStep`: a step of the driver, showing these indices.
- `PacketFits`: a packet is no longer than what is left of the 18 bytes.
- `descriptor_in_bounds`: then nothing is written outside of them, and otherwise it is.
-/

namespace PrplHypervisor

open Word32

/-- `sizeof descr->descriptor`. -/
def descriptorSz : Nat := 18

/-- The indices that the loop of `read_descriptor` writes to. -/
def descriptorWrites (d : Nat → UInt8) : List UInt8 → List Nat
  | [] => []
  | b :: bs => wordAt d receivedOffset :: descriptorWrites (pushDescriptor d b) bs

/-- The bytes of the packet that a poll finds. -/
def UsbReadings.packet (r : UsbReadings) : List UInt8 := (List.range r.rxcnt).map r.fifo

/-- `received`. -/
def UsbHost.received (s : UsbHost) : Nat := wordAt s.descriptorData receivedOffset

/-- One event, showing the indices written. -/
def readStep (s : UsbHost) (e : UsbEvent) : Option (UsbHost × List Nat) :=
  (s.step e).map fun p => (p.1, match e with
    | .polling r =>
      if s.state = .readDescriptor then descriptorWrites s.descriptorData r.packet else []
    | .interrupt _ | .sendData .. => [])

/-- The packet fits into what is left of the descriptor. -/
def PacketFits (s : UsbHost) : UsbEvent → Prop
  | .polling r => s.state = .readDescriptor → s.received + r.rxcnt ≤ descriptorSz
  | .interrupt _ | .sendData .. => True

instance : DecidableRel PacketFits := fun s e =>
  match e with
  | .polling r =>
    inferInstanceAs (Decidable (s.state = .readDescriptor → s.received + r.rxcnt ≤ descriptorSz))
  | .interrupt _ | .sendData .. => .isTrue trivial

/-! ## One packet -/

/-- The loop of `read_descriptor`. -/
def pushPacket (d : Nat → UInt8) (packet : List UInt8) : Nat → UInt8 :=
  packet.foldl pushDescriptor d

/-- Below the end of the array a byte only counts. -/
theorem pushDescriptor_received {d : Nat → UInt8} (h : wordAt d receivedOffset < descriptorSz)
    (b : UInt8) : wordAt (pushDescriptor d b) receivedOffset = wordAt d receivedOffset + 1 := by
  have hsmall : wordAt d receivedOffset < 18 := h
  have hcount : u32 (add32 (wordAt d receivedOffset) 1) = wordAt d receivedOffset + 1 := by
    unfold add32 u32
    omega
  rw [pushDescriptor, ← hcount, ← wordAt_storeWord d receivedOffset]
  refine wordAt_congr fun x hx _ => Function.update_of_ne ?_ ..
  have hoffset : 20 ≤ x := hx
  omega

/-- A packet stays inside the array exactly if it fits. -/
theorem pushPacket_in_bounds (d : Nat → UInt8) (packet : List UInt8) :
    (∀ i ∈ descriptorWrites d packet, i < descriptorSz) ∧
      wordAt (pushPacket d packet) receivedOffset ≤ descriptorSz ↔
    wordAt d receivedOffset + packet.length ≤ descriptorSz := by
  induction packet generalizing d with
  | nil => simp [descriptorWrites, pushPacket]
  | cons b bs ih =>
    rw [descriptorWrites, List.forall_mem_cons, List.length_cons, and_assoc]
    by_cases hlt : wordAt d receivedOffset < descriptorSz
    · have hnext := ih (pushDescriptor d b)
      rw [pushDescriptor_received hlt] at hnext
      rw [and_iff_right hlt]
      show _ ∧ wordAt (pushPacket (pushDescriptor d b) bs) receivedOffset ≤ descriptorSz ↔ _
      rw [hnext]
      omega
    · -- the first byte is outside already
      constructor
      · exact fun h => absurd h.1 hlt
      · intro h
        omega

/-- What follows the loop leaves `received` alone. -/
theorem readDescriptor_received (d : Nat → UInt8) (rxsz : Nat) (fifo : Nat → UInt8) :
    wordAt (readDescriptor d rxsz fifo) receivedOffset =
      wordAt (pushPacket d ((List.range rxsz).map fifo)) receivedOffset := by
  have hdescr : ∀ (mem : Nat → UInt8) (w : Nat),
      wordAt (storeWord mem descrSzOffset w) receivedOffset = wordAt mem receivedOffset :=
    fun _ w => wordAt_storeWord_of_disjoint (by decide) w
  have htransfer : ∀ (mem : Nat → UInt8) (w : Nat),
      wordAt (storeWord mem tranferSzOffset w) receivedOffset = wordAt mem receivedOffset :=
    fun _ w => wordAt_storeWord_of_disjoint (by decide) w
  have hloop : (List.range rxsz).foldl (fun d i => pushDescriptor d (fifo i)) d =
      pushPacket d ((List.range rxsz).map fifo) := by
    rw [pushPacket, List.foldl_map]
  unfold readDescriptor
  rw [hloop]
  dsimp only
  split <;> split <;> simp only [hdescr, htransfer]

/-! ## One event -/

section Step

variable {s s' : UsbHost} {r : UsbReadings} {e : UsbEvent} {os : List Nat}

theorem updateStateMachine_descriptorData :
    (s.updateStateMachine r).1.descriptorData = (s.advance r).1.descriptorData := by
  unfold UsbHost.updateStateMachine
  split <;> rfl

theorem usbPolling_read (h : s.state = .readDescriptor) :
    (s.usbPolling r).1.descriptorData = s.descriptorRead r := by
  have hrun : s.state ≠ .running := by
    rw [h]
    exact UsbDeviceState.noConfusion
  unfold UsbHost.usbPolling
  rw [if_neg hrun]
  show (s.updateStateMachine r).1.descriptorData = _
  rw [updateStateMachine_descriptorData, UsbHost.advance, h]
  dsimp only
  split <;> rfl

/-- Every other poll leaves the structure alone or clears it. -/
theorem usbPolling_descriptorData (h : s.state ≠ .readDescriptor) :
    (s.usbPolling r).1.descriptorData = s.descriptorData ∨
      (s.usbPolling r).1.descriptorData =
        fun a => if a < descriptorReceiveSize then 0 else s.descriptorData a := by
  unfold UsbHost.usbPolling
  split
  case isTrue =>
    refine Or.inl ?_
    show (s.updateTransferStateMachine r).1.descriptorData = _
    unfold UsbHost.updateTransferStateMachine
    cases s.transfer with
    | sending =>
      dsimp only
      split <;> rfl
    | intVm | idle | waitTxInt | start | done => rfl
  case isFalse hrun =>
    show (s.updateStateMachine r).1.descriptorData = _ ∨
      (s.updateStateMachine r).1.descriptorData = _
    rw [updateStateMachine_descriptorData, UsbHost.advance]
    cases hstate : s.state with
    | requestDescriptor => exact Or.inr rfl
    | readDescriptor => exact absurd hstate h
    | debounce | usbReset | afterResetDelay =>
      refine Or.inl ?_
      dsimp only
      split <;> rfl
    | waitDescriptor =>
      refine Or.inl ?_
      dsimp only
      split
      · split <;> rfl
      · rfl
    | running | waitTxInt | handshake | idle | vbusError | generalError => exact Or.inl rfl

theorem usbIntHandler_descriptorData (f : UsbFlags) :
    (s.usbIntHandler f).descriptorData = s.descriptorData := by
  have hconnect : (s.onConnect f).descriptorData = s.descriptorData := by
    unfold UsbHost.onConnect
    split <;> rfl
  have hdisconnect : ((s.onConnect f).onDisconnect f).descriptorData = s.descriptorData := by
    unfold UsbHost.onDisconnect
    split <;> exact hconnect
  have hvbus : (((s.onConnect f).onDisconnect f).onVbusError f).descriptorData =
      s.descriptorData := by
    unfold UsbHost.onVbusError
    split <;> exact hdisconnect
  rw [UsbHost.usbIntHandler]
  rcases UsbHost.onEndpoint0_cases (s := ((s.onConnect f).onDisconnect f).onVbusError f) (f := f)
    with h | ⟨-, h⟩ | ⟨-, h⟩ | ⟨-, h⟩ <;> rw [h] <;> exact hvbus

/-- While no more than the array has been received, an event stays inside it exactly if
its packet fits. -/
theorem readStep_in_bounds (hs : s.received ≤ descriptorSz) (h : readStep s e = some (s', os)) :
    ((∀ i ∈ os, i < descriptorSz) ∧ s'.received ≤ descriptorSz) ↔ PacketFits s e := by
  have hnothing : ∀ {s' : UsbHost}, s'.received ≤ descriptorSz →
      ((∀ i ∈ ([] : List Nat), i < descriptorSz) ∧ s'.received ≤ descriptorSz) :=
    fun hle => ⟨fun _ hi => absurd hi List.not_mem_nil, hle⟩
  obtain ⟨⟨s₁, os₁⟩, hstep, heq⟩ := Option.map_eq_some_iff.mp h
  obtain ⟨rfl, rfl⟩ := Prod.mk.inj heq
  cases e with
  | polling r =>
    obtain rfl := congrArg Prod.fst (Option.some.inj hstep)
    by_cases hread : s.state = .readDescriptor
    · dsimp only
      rw [if_pos hread, UsbHost.received, usbPolling_read hread, UsbHost.descriptorRead,
        readDescriptor_received]
      refine (pushPacket_in_bounds s.descriptorData r.packet).trans ?_
      rw [UsbReadings.packet, List.length_map, List.length_range]
      exact ⟨fun hfits _ => hfits, fun hfits => hfits hread⟩
    · dsimp only
      rw [if_neg hread]
      refine iff_of_true (hnothing ?_) fun hcon => absurd hcon hread
      rcases usbPolling_descriptorData (r := r) hread with hsame | hzero
      · rw [UsbHost.received, hsame]
        exact hs
      · have hcleared : wordAt (fun a => if a < descriptorReceiveSize then 0
            else s.descriptorData a) receivedOffset = 0 := rfl
        rw [UsbHost.received, hzero, hcleared]
        exact Nat.zero_le _
  | interrupt f =>
    obtain rfl := congrArg Prod.fst (Option.some.inj hstep)
    refine iff_of_true (hnothing ?_) trivial
    rw [UsbHost.received, usbIntHandler_descriptorData]
    exact hs
  | sendData size data =>
    obtain rfl := congrArg Prod.fst (Option.some.inj hstep)
    exact iff_of_true (hnothing hs) trivial

end Step

/-- **Reception of the descriptor.** In every run whose packets fit into what is left of the
18 bytes, nothing is written outside of them and `received` counts no more. From there an
event keeps this exactly if its packet fits. -/
theorem descriptor_in_bounds {tr : List Nat} {s : UsbHost}
    (hrun : Lts.Run readStep PacketFits UsbHost.start tr s) :
    (∀ i ∈ tr, i < descriptorSz) ∧ s.received ≤ descriptorSz ∧
      ∀ e s' os, readStep s e = some (s', os) →
        ((∀ i ∈ os, i < descriptorSz) ∧ s'.received ≤ descriptorSz ↔ PacketFits s e) := by
  obtain ⟨hall, hs⟩ : (∀ i ∈ tr, i < descriptorSz) ∧ s.received ≤ descriptorSz := by
    refine hrun.invariant (fun tr s => (∀ i ∈ tr, i < descriptorSz) ∧ s.received ≤ descriptorSz)
      ⟨fun _ hi => absurd hi List.not_mem_nil, by decide⟩
      fun _ _ _ _ _ ⟨hall, hs⟩ hfits hstep => ?_
    obtain ⟨hnew, hs'⟩ := (readStep_in_bounds hs hstep).mpr hfits
    exact ⟨fun i hi => (List.mem_append.mp hi).elim (hall i) (hnew i), hs'⟩
  exact ⟨hall, hs, fun _ _ _ hstep => readStep_in_bounds hs hstep⟩

/-- The device of `plugIn` sends its descriptor in one packet of 18 bytes. -/
theorem descriptor_in_bounds_plugIn : ∃ tr s, Lts.Run readStep PacketFits UsbHost.start tr s ∧
    (∀ i ∈ tr, i < descriptorSz) ∧ s.received = descriptorSz := by
  have hrun := Lts.exec_run (show (Lts.exec readStep PacketFits UsbHost.start plugIn).isSome = true
    by decide +kernel)
  exact ⟨_, _, hrun, (descriptor_in_bounds hrun).1, by decide +kernel⟩

/-- A poll that finds a packet of 64 bytes. -/
def longPacketAt (now : Nat) : UsbEvent :=
  .polling ⟨now, now, true, false, false, false, true, ⟨64, by decide⟩, fun _ => 1⟩

/-- A device answers with 64 bytes. -/
theorem descriptor_overrun : ∃ tr s, Lts.Run readStep Lts.anyEvent UsbHost.start tr s ∧
    ¬ ((∀ i ∈ tr, i < descriptorSz) ∧ s.received ≤ descriptorSz) := by
  have hrun := Lts.exec_run (show (Lts.exec readStep Lts.anyEvent UsbHost.start
    (plugIn.dropLast ++ [longPacketAt 80000005])).isSome = true by decide +kernel)
  exact ⟨_, _, hrun, by decide +kernel⟩

end PrplHypervisor
