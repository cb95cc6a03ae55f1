import PrplHypervisor.Lib.RingBuffer
import PrplHypervisor.System.Cases

/-!
# End-to-end message delivery

A message travels through two rings: the queue of the target's VCPU, filled by the
senders' hypercalls, and the list in the target's memory, filled by its interrupt
handler and drained by `ReceiveMessage`. Chained, they are one FIFO.

- `sentTo`, `receivedBy`: the two ends of the FIFO, read off a trace.
- `Fifo`: what was sent is what was received, then the guest's list, then the
  hypervisor's queue.
- `messages_delivered`: this holds in every run in which the receiver's buffers can
  hold a message.
-/

namespace PrplHypervisor

open Machine

variable {n : Nat}

/-! ## The two ends -/

/-- The message a successful send to `v` carried. -/
def sentObs (v : Fin n) : Obs n → Option Delivery
  | .sendReturned _ targetId v0 sent => if targetId = v.val + 1 ∧ 0 ≤ v0 then some sent else none
  | _ => none

/-- The message `ReceiveMessage` handed to `v`. -/
def receivedObs (v : Fin n) : Obs n → Option Delivery
  | .receiveReturned i got => if i = v then got else none
  | _ => none

/-- Messages sent to `v` with success, in order. -/
def sentTo (v : Fin n) (tr : List (Obs n)) : List Delivery := tr.filterMap (sentObs v)

/-- Messages `v` received, in order. -/
def receivedBy (v : Fin n) (tr : List (Obs n)) : List Delivery := tr.filterMap (receivedObs v)

/-- What a ring holds, oldest first. -/
def MessageBuffer.contents (q : MessageBuffer) : List Delivery :=
  (List.range q.numMessages).map fun i => (q.messageList ((q.outIdx + i) % messagelistSz)).delivery

/-- A ring of messages with its indices in order and its live sizes in bounds. -/
structure MessageBuffer.WellFormed (q : MessageBuffer) : Prop where
  num_le : q.numMessages ≤ messagelistSz
  in_eq : q.inIdx = (q.outIdx + q.numMessages) % messagelistSz
  size_le : ∀ i, i < q.numMessages →
    (q.messageList ((q.outIdx + i) % messagelistSz)).size ≤ messageSz

/-! ## Rings of messages -/

/-- The ring holds the messages `xs`. -/
abbrev MessageBuffer.Holds (q : MessageBuffer) (xs : List Delivery) : Prop :=
  RingRep messagelistSz Message.delivery q.messageList q.inIdx q.outIdx q.numMessages xs

theorem MessageBuffer.Holds.contents {q : MessageBuffer} {xs : List Delivery} (h : q.Holds xs) :
    q.contents = xs := by
  refine List.ext_getElem? ?_
  intro i
  rw [MessageBuffer.contents, List.getElem?_map, h.num_eq]
  cases hx : xs[i]? with
  | none =>
    have hi : xs.length ≤ i := List.getElem?_eq_none_iff.mp hx
    rw [List.getElem?_eq_none (by simpa using hi)]
    rfl
  | some x =>
    have hi : i < xs.length := (List.getElem?_eq_some_iff.mp hx).1
    rw [List.getElem?_range hi]
    exact congrArg some (h.slot_eq i x hx)

theorem MessageBuffer.Holds.wellFormed {q : MessageBuffer} {xs : List Delivery} (h : q.Holds xs)
    (hsize : ∀ d ∈ xs, d.size ≤ messageSz) : q.WellFormed := by
  refine ⟨h.num_le, h.in_eq, fun i hi => ?_⟩
  rw [h.num_eq] at hi
  have hslot := h.slot_eq i _ (List.getElem?_eq_getElem hi)
  have := hsize _ (List.getElem_mem hi)
  rw [← hslot] at this
  exact this

theorem MessageBuffer.zero_holds : MessageBuffer.zero.Holds [] := RingRep.empty (by decide)

/-- Queuing a message. -/
theorem MessageBuffer.Holds.push {q : MessageBuffer} {xs : List Delivery} (h : q.Holds xs)
    (hroom : q.numMessages ≠ messagelistSz) (sourceId size : Nat) (src : Nat → UInt8) :
    (q.push sourceId size src).Holds (xs ++ [sentDelivery sourceId size src]) := by
  have hfull : q.numMessages < messagelistSz := Nat.lt_of_le_of_ne h.num_le hroom
  rw [← delivery_copyBytes sourceId size (q.messageList q.inIdx).message src]
  exact RingRep.push h hfull _ (Function.update_self ..) fun k hk => Function.update_of_ne hk ..

/-- The oldest message and the ring without it. -/
theorem MessageBuffer.Holds.pop {q : MessageBuffer} {xs : List Delivery} (h : q.Holds xs)
    (hsome : q.numMessages ≠ 0) :
    ∃ rest, xs = (q.messageList q.outIdx).delivery :: rest ∧ q.pop.Holds rest := by
  obtain ⟨x, rest, rfl⟩ := h.exists_cons hsome
  obtain ⟨hx, hrest⟩ := RingRep.pop h
  exact ⟨rest, by rw [hx], hrest⟩

/-- An answer of `intervm_recv_msg` with a message in it arrives as that message. -/
theorem store_delivery (list : MessageBuffer) (inIdx bufferAddr : Nat) {msg : Message}
    (hsize : msg.size ≤ messageSz) :
    (list.store inIdx msg.reply bufferAddr inIdx).delivery = msg.delivery := by
  have h32 : asUnsigned (msg.size : Int) = msg.size := by
    unfold asUnsigned
    simp only [messageSz] at hsize
    omega
  have hstore : list.store inIdx msg.reply bufferAddr inIdx =
      ⟨msg.sourceId, msg.size,
        copyBytes (list.messageList inIdx).message msg.message msg.size⟩ := by
    rw [MessageBuffer.store, Function.update_self]
    simp only [Message.reply, Option.getD_some, h32]
  rw [hstore, delivery_copyBytes]
  rfl

/-! ## The FIFO -/

/-- VMs are numbered from 1. -/
def VmIds (m : Machine n) : Prop := ∀ i, (m.vm i).id = i.val + 1

/-- The two rings of `v` hold what was sent to it and not received yet. -/
structure Fifo (v : Fin n) (tr : List (Obs n)) (m : Machine n) (queue list : List Delivery) :
    Prop where
  queue_holds : (m.vcpu v).messages.Holds queue
  list_holds : (m.guest v).messageList.Holds list
  /-- The handler's local index is the list's. -/
  local_in : ∀ ret i, (m.guest v).net = .fetching ret i → i = (m.guest v).messageList.inIdx
  flow : sentTo v tr = receivedBy v tr ++ list ++ queue
  size_le : ∀ d ∈ list ++ queue, d.size ≤ messageSz

/-- The machine with its history is a FIFO for `v`. -/
def IsFifo (v : Fin n) (tr : List (Obs n)) (m : Machine n) : Prop :=
  VmIds m ∧ ∃ queue list, Fifo v tr m queue list

variable {m m' : Machine n} {tr os : List (Obs n)} {v : Fin n} {queue list : List Delivery}

theorem sentTo_append : sentTo v (tr ++ os) = sentTo v tr ++ sentTo v os := List.filterMap_append

theorem receivedBy_append : receivedBy v (tr ++ os) = receivedBy v tr ++ receivedBy v os :=
  List.filterMap_append

/-- Steps that leave the two rings of `v` alone. -/
theorem Fifo.frame (h : Fifo v tr m queue list)
    (hqueue : (m'.vcpu v).messages = (m.vcpu v).messages)
    (hlist : (m'.guest v).messageList = (m.guest v).messageList)
    (hlocal : ∀ ret i, (m'.guest v).net = .fetching ret i → (m.guest v).net = .fetching ret i)
    (hsent : sentTo v os = []) (hreceived : receivedBy v os = []) :
    Fifo v (tr ++ os) m' queue list where
  queue_holds := hqueue ▸ h.queue_holds
  list_holds := hlist ▸ h.list_holds
  local_in ret i hnet := hlist ▸ h.local_in ret i (hlocal ret i hnet)
  flow := by rw [sentTo_append, receivedBy_append, hsent, hreceived, List.append_nil,
    List.append_nil, h.flow]
  size_le := h.size_le

theorem Fifo.frame_guest (h : Fifo v tr m queue list)
    (hqueue : (m'.vcpu v).messages = (m.vcpu v).messages) (hguest : m'.guest v = m.guest v)
    (hsent : sentTo v os = []) (hreceived : receivedBy v os = []) :
    Fifo v (tr ++ os) m' queue list :=
  h.frame hqueue (by rw [hguest]) (fun ret i => by rw [hguest]; exact id) hsent hreceived

/-- A message queued for `v`. -/
theorem Fifo.enqueue (h : Fifo v tr m queue list) (self : Fin n) {targetId size : Nat}
    (src : Nat → UInt8) (htarget : targetId = v.val + 1) (hsize : size ≤ messageSz)
    (hroom : (m.vcpu v).messages.numMessages ≠ messagelistSz) :
    Fifo v (tr ++ [.sendReturned self targetId size (sentDelivery (m.vm self).id size src)])
      (enqueue m self v size src) (queue ++ [sentDelivery (m.vm self).id size src]) list where
  queue_holds := by
    rw [enqueue_messages, if_pos rfl]
    exact h.queue_holds.push hroom _ size src
  list_holds := h.list_holds
  local_in := h.local_in
  flow := by
    have hsent : sentTo v [.sendReturned self targetId (size : Int)
        (sentDelivery (m.vm self).id size src)] = [sentDelivery (m.vm self).id size src] := by
      have hcond : targetId = v.val + 1 ∧ (0 : Int) ≤ size := ⟨htarget, Int.natCast_nonneg _⟩
      simp [sentTo, sentObs, hcond]
    have hreceived : receivedBy v [.sendReturned self targetId (size : Int)
        (sentDelivery (m.vm self).id size src)] = [] := rfl
    rw [sentTo_append, receivedBy_append, hsent, hreceived, List.append_nil, h.flow,
      List.append_assoc]
  size_le d hd := by
    rw [← List.append_assoc, List.mem_append] at hd
    rcases hd with hd | hd
    · exact h.size_le d hd
    · rw [List.mem_singleton.mp hd]
      exact hsize

/-- A message fetched by the handler of `v` moves from one ring to the other. -/
theorem Fifo.fetch (h : Fifo v tr m queue list) {ret : Int} {inIdx bufferAddr : Nat}
    (hnet : (m.guest v).net = .fetching ret inIdx)
    (hroom : (m.guest v).messageList.numMessages < messagelistSz)
    (hsome : (m.vcpu v).messages.numMessages ≠ 0) {msg : Message}
    (hmsg : msg = (m.vcpu v).messages.messageList (m.vcpu v).messages.outIdx) :
    ∃ queue' list', Fifo v tr
      ((m.setVcpu v { m.vcpu v with messages := (m.vcpu v).messages.pop }).setGuest v {
        messageList := { (m.guest v).messageList with
          messageList := (m.guest v).messageList.store inIdx msg.reply bufferAddr
          inIdx := (inIdx + 1) % messagelistSz
          numMessages := (m.guest v).messageList.numMessages + 1 }
        net := .fetching msg.size ((inIdx + 1) % messagelistSz) }) queue' list' := by
  obtain ⟨rest, rfl, hrest⟩ := h.queue_holds.pop hsome
  rw [← hmsg] at h
  obtain rfl := h.local_in ret inIdx hnet
  have hsize : msg.size ≤ messageSz :=
    h.size_le msg.delivery (List.mem_append_right _ List.mem_cons_self)
  -- the message moves from the end of one queue to the other one
  refine ⟨rest, list ++ [msg.delivery], ?_, ?_, ?_, ?_, ?_⟩
  · rw [setGuest_vcpu, setVcpu_vcpu_self]
    exact hrest
  · rw [setGuest_guest_self]
    rw [← store_delivery (m.guest v).messageList (m.guest v).messageList.inIdx bufferAddr hsize]
    exact RingRep.push h.list_holds hroom _ rfl fun k hk => Function.update_of_ne hk ..
  · intro ret' i hi
    rw [setGuest_guest_self] at hi ⊢
    cases hi
    rfl
  · rw [h.flow]
    simp
  · intro d hd
    refine h.size_le d ?_
    simpa using hd

/-- The oldest message of the list handed to `v`, whose buffer can hold it. -/
theorem Fifo.receive (h : Fifo v tr m queue list) {bufsz : Nat} (hbufsz : messageSz ≤ bufsz)
    (hsome : (m.guest v).messageList.numMessages ≠ 0) {msg : Message}
    (hmsg : msg = (m.guest v).messageList.messageList (m.guest v).messageList.outIdx) :
    ∃ list', Fifo v
      (tr ++ [.receiveReturned v (some
        { source := msg.sourceId
          size := min msg.size bufsz
          bytes := (List.range (min msg.size bufsz)).map msg.message })])
      (m.setGuest v { m.guest v with messageList := (m.guest v).messageList.pop })
      queue list' := by
  obtain ⟨rest, rfl, hrest⟩ := h.list_holds.pop hsome
  rw [← hmsg] at h
  have hsize : msg.size ≤ messageSz :=
    h.size_le msg.delivery (List.mem_append_left _ List.mem_cons_self)
  -- the buffer is large enough for the whole message
  have hwhole : min msg.size bufsz = msg.size := Nat.min_eq_left (Nat.le_trans hsize hbufsz)
  rw [hwhole]
  refine ⟨rest, h.queue_holds, ?_, ?_, ?_, ?_⟩
  · rw [setGuest_guest_self]
    exact hrest
  · intro ret i hi
    rw [setGuest_guest_self] at hi ⊢
    exact h.local_in ret i hi
  -- it leaves the local list and appears among the received ones
  · have hreceived : receivedBy v [.receiveReturned v (some (msg.delivery))] = [msg.delivery] := by
      simp [receivedBy, receivedObs]
    have hsent : sentTo v [.receiveReturned v (some (msg.delivery))] = [] := rfl
    show sentTo v (tr ++ [.receiveReturned v (some (msg.delivery))]) =
      receivedBy v (tr ++ [.receiveReturned v (some (msg.delivery))]) ++ rest ++ queue
    rw [sentTo_append, receivedBy_append, hreceived, hsent, h.flow]
    simp
  · intro d hd
    refine h.size_le d ?_
    simp only [List.cons_append, List.mem_cons]
    exact Or.inr hd

/-! ## Every step -/

theorem action_isFifo (hI : IsFifo v tr m) (h : Action m m' os) : IsFifo v (tr ++ os) m' := by
  obtain ⟨hids, queue, list, hfifo⟩ := hI
  refine ⟨fun i => by rw [action_vm h, hids i], ?_⟩
  cases h with
  | quiet _ h =>
    exact ⟨queue, list, hfifo.frame_guest (by rw [h.vcpu]) (by rw [h.guest]) rfl rfl⟩
  | switch t _ _ h =>
    refine ⟨queue, list, hfifo.frame_guest (h.messages v) (by rw [h.guest]) ?_ ?_⟩
    all_goals
      rw [h.obs]
      cases m.executing <;> rfl
  | raiseRunning line =>
    refine ⟨queue, list, hfifo.frame_guest rfl rfl ?_ ?_⟩
    all_goals cases m.executing <;> rfl
  | raiseSaved i line =>
    exact ⟨queue, list, hfifo.frame_guest (by rw [raiseSaved_frame]) rfl rfl rfl⟩
  | refuse self targetId v0 hv0 d =>
    refine ⟨queue, list, hfifo.frame_guest rfl rfl ?_ rfl⟩
    have hno : ¬ (targetId = v.val + 1 ∧ 0 ≤ v0) := by omega
    simp [sentTo, sentObs, hno]
  | enqueue self t targetId size src ht hsize hroom =>
    -- only a message to `v` itself counts
    have htarget : targetId = t.val + 1 := by rw [← hids t, getVcpuFromId_some ht]
    by_cases hv : t = v
    · subst hv
      have hqueued := hfifo.enqueue self src htarget hsize hroom
      rw [← List.singleton_append, ← List.append_assoc]
      exact ⟨_, list, hqueued.frame_guest (by rw [raiseSaved_frame]) rfl rfl rfl⟩
    · refine ⟨queue, list, hfifo.frame_guest ?_ rfl ?_ rfl⟩
      · rw [raiseSaved_frame, enqueue_messages, if_neg (Ne.symm hv)]
      · have hno : targetId ≠ v.val + 1 := fun he => hv (Fin.ext (by omega))
        simp [sentTo, sentObs, hno]

/-- `v` calls `ReceiveMessage` only with buffers that can hold a message. -/
def LargeBuffers (v : Fin n) (m : Machine n) : Event n → Prop
  | .receiveMessage bufsz _ => m.executing = some v → messageSz ≤ bufsz
  | _ => True

instance (v : Fin n) : DecidableRel (LargeBuffers v)
  | m, .receiveMessage bufsz _ =>
    inferInstanceAs (Decidable (m.executing = some v → messageSz ≤ bufsz))
  | _, .timer .. | _, .fastInterrupt _ | _, .deviceInterrupt _ | _, .injection | _, .takeInterrupt _
  | _, .sendMsg .. | _, .irqNetwork _ | _, .writeCp0 .. => .isTrue trivial

theorem irqNetwork_isFifo {self : Fin n} {bufferAddr : Nat} (hI : IsFifo v tr m)
    (h : irqNetwork m self bufferAddr = some m') : IsFifo v tr m' := by
  obtain ⟨hids, queue, list, hfifo⟩ := hI
  have hvm := (irqNetwork_frame h).2.1
  refine ⟨fun i => by rw [hvm, hids i], ?_⟩
  by_cases hself : self = v
  · subst hself
    cases irqNetwork_cases h with
    | stop =>
      refine ⟨queue, list, hfifo.queue_holds, ?_, fun ret i hi => ?_, hfifo.flow, hfifo.size_le⟩
      · rw [setGuest_guest_self]
        exact hfifo.list_holds
      · rw [setGuest_guest_self] at hi
        cases hi
    | enter =>
      refine ⟨queue, list, hfifo.queue_holds, ?_, fun ret i hi => ?_, hfifo.flow, hfifo.size_le⟩
      · rw [setGuest_guest_self]
        exact hfifo.list_holds
      · rw [setGuest_guest_self] at hi ⊢
        cases hi
        rfl
    | empty ret inIdx hnet hroom =>
      refine ⟨queue, list, hfifo.queue_holds, ?_, fun ret i hi => ?_, hfifo.flow, hfifo.size_le⟩
      · rw [setGuest_guest_self]
        obtain rfl := hfifo.local_in ret inIdx hnet
        -- the answer's size went into the free slot
        exact hfifo.list_holds.congr (fun k _ hk => Function.update_of_ne hk ..) hroom
      · rw [setGuest_guest_self] at hi
        cases hi
    | fetch ret inIdx hnet hroom hsome msg hmsg => exact hfifo.fetch hnet hroom hsome hmsg
  · refine ⟨queue, list, ?_⟩
    have hguest := (irqNetwork_frame h).2.2.2.1 v (Ne.symm hself)
    have hqueue : (m'.vcpu v).messages = (m.vcpu v).messages := by
      cases irqNetwork_cases h with
      | stop => rfl
      | enter => rfl
      | empty => rfl
      | fetch => rw [setGuest_vcpu, setVcpu_vcpu_of_ne _ (Ne.symm hself)]
    have hframe : Fifo v (tr ++ []) m' queue list := hfifo.frame_guest hqueue hguest rfl rfl
    rwa [List.append_nil] at hframe

theorem step_isFifo {e : Event n} (hI : IsFifo v tr m) (hok : LargeBuffers v m e)
    (h : StepCase m e m' os) : IsFifo v (tr ++ os) m' := by
  cases h with
  | hypervisor _ _ _ h =>
    exact h.invariant (IsFifo v) (fun _ _ _ _ hI ha => action_isFifo hI ha) tr hI
  | writeCp0 =>
    obtain ⟨hids, queue, list, hfifo⟩ := hI
    exact ⟨hids, queue, list, hfifo.frame_guest rfl rfl rfl rfl⟩
  | takeInterrupt self hself mask _ _ h =>
    have h := takeInterrupt_some h
    obtain ⟨hids, queue, list, hfifo⟩ := hI
    refine ⟨fun i => by rw [h.vm, hids i], queue, list,
      hfifo.frame (by rw [h.vcpu]) ?_ (fun ret i hi => ?_) (by rw [h.obs]; rfl)
        (by rw [h.obs]; rfl)⟩
    · by_cases hv : v = self
      · rw [hv, h.messageList]
      · rw [h.guest_of_ne v hv]
    · by_cases hv : v = self
      · rw [hv, h.net] at hi
        split at hi <;> cases hi
      · rwa [h.guest_of_ne v hv] at hi
  | irqNetwork self hself bufferAddr _ h =>
    rw [List.append_nil]
    exact irqNetwork_isFifo hI h
  | receiveMessage self hself bufsz block _ got h =>
    obtain ⟨hids, queue, list, hfifo⟩ := hI
    obtain ⟨-, hvm, hvcpu, -, hguest⟩ := receiveMessage_frame h
    refine ⟨fun i => by rw [hvm, hids i], ?_⟩
    -- only the receiver takes from its own list
    by_cases hv : self = v
    · subst hv
      obtain ⟨-, hcase⟩ := receiveMessage_cases h
      cases hcase with
      | nothing =>
        exact ⟨queue, list, hfifo.frame_guest rfl rfl rfl (by simp [receivedBy, receivedObs])⟩
      | message hsome msg hmsg =>
        exact ⟨queue, hfifo.receive (hok hself) hsome hmsg⟩
    · exact ⟨queue, list, hfifo.frame_guest (by rw [hvcpu]) (hguest v (Ne.symm hv)) rfl
        (by simp [receivedBy, receivedObs, hv])⟩

/-! ## Runs -/

/-- A send that returns an error leaves every queue as it was. -/
theorem intervmSendMsg_error (m : Machine n) (self : Fin n) (targetId size : Nat)
    (src : Nat → UInt8) (herr : (intervmSendMsg m self targetId size src).2.1 < 0) (j : Fin n) :
    ((intervmSendMsg m self targetId size src).1.vcpu j).messages = (m.vcpu j).messages := by
  have hcases := intervmSendMsg_cases m self targetId size src
  generalize intervmSendMsg m self targetId size src = r at herr hcases
  cases hcases with
  | refused => rfl
  | full t => rw [raiseSaved_frame]
  | queued => exact absurd herr (by simp)

/-- **Message delivery.** In every run in which `v` receives into buffers of at least
255 bytes, what `v` received, followed by its list and its queue, is exactly what was
sent to it with success, in order; both rings stay well formed; and a send that
returns an error leaves all queues unchanged. -/
theorem messages_delivered {p : Params} {m₀ : Machine n} (h₀ : m₀.Initial) (v : Fin n)
    (h : Reaches p (LargeBuffers v) m₀ tr m) :
    receivedBy v tr <+: sentTo v tr ∧
    sentTo v tr = receivedBy v tr ++ (m.guest v).messageList.contents ++
      (m.vcpu v).messages.contents ∧
    (m.guest v).messageList.WellFormed ∧ (m.vcpu v).messages.WellFormed ∧
    ∀ self targetId size src, (intervmSendMsg m self targetId size src).2.1 < 0 →
      ∀ j, ((intervmSendMsg m self targetId size src).1.vcpu j).messages =
        (m.vcpu j).messages := by
  have hinit : IsFifo v [] m₀ := by
    refine ⟨h₀.vm_id, [], [], ?_, ?_, fun ret i hi => ?_, rfl, fun d hd => by cases hd⟩
    · rw [h₀.messages]
      exact MessageBuffer.zero_holds
    · rw [h₀.guest]
      exact MessageBuffer.zero_holds
    · rw [h₀.guest] at hi
      cases hi
  obtain ⟨-, queue, list, hfifo⟩ := h.invariant (IsFifo v) h₀ hinit
    fun _ _ _ _ _ _ hI hok hcase => step_isFifo hI hok hcase
  refine ⟨⟨list ++ queue, ?_⟩, ?_, ?_, ?_, fun self targetId size src herr j =>
    intervmSendMsg_error m self targetId size src herr j⟩
  · rw [hfifo.flow, List.append_assoc]
  · rw [hfifo.list_holds.contents, hfifo.queue_holds.contents, hfifo.flow]
  · exact hfifo.list_holds.wellFormed fun d hd => hfifo.size_le d (List.mem_append_left _ hd)
  · exact hfifo.queue_holds.wellFormed fun d hd => hfifo.size_le d (List.mem_append_right _ hd)

/-- `ping` sends two messages and `pong` has received the first. -/
theorem messages_delivered_pingPong :
    ∃ tr m, Reaches ⟨1, 30000⟩ (LargeBuffers 1) pingPongMachine tr m ∧
      receivedBy 1 tr = [⟨1, 2, [7, 7]⟩] ∧ (m.guest 1).messageList.contents = [⟨1, 1, [8]⟩] ∧
      receivedBy 1 tr <+: sentTo 1 tr := by
  have hrun := Lts.exec_run (show (Lts.exec (step ⟨1, 30000⟩) (LargeBuffers 1) pingPongMachine
    [.timer 0 0 0, .timer 0 0 0, .timer 0 0 0, .sendMsg 2 2 (fun _ => 7),
      .sendMsg 2 1 (fun _ => 8), .timer 0 0 0, .takeInterrupt (gripl guestIntervmInt),
      .irqNetwork 0, .irqNetwork 0, .irqNetwork 0, .irqNetwork 0,
      .receiveMessage 255 true]).isSome = true by decide)
  exact ⟨_, _, hrun, by decide, by decide, (messages_delivered pingPongMachine_initial 1 hrun).1⟩

end PrplHypervisor
