import PrplHypervisor.Drivers.InterVm

/-!
# The guest's message list (bare-metal-apps/lib/network.c)

The interrupt handler `irq_network` moves messages from the hypervisor's queue to a
list of the same shape in guest memory; the guest's main program takes them from
there with `ReceiveMessage`.

- `irqNetwork`: one transition of the handler. It stops on a full list, on an empty
  answer, and after a message of size 0, since the answer's size is also the loop's
  condition.
- `receiveMessage`: one call of the main program. It runs with interrupts disabled,
  so it is one step; it cannot run while the handler does.
-/

namespace PrplHypervisor

open Machine Word32

variable {n : Nat}

/-- A 32-bit return value stored in an unsigned field. -/
def asUnsigned (v : Int) : Nat := (v % 2 ^ 32).toNat

/-- Slot `inIdx` of a list overwritten by an answer of `intervm_recv_msg`. -/
def MessageBuffer.store (list : MessageBuffer) (inIdx : Nat) (reply : RecvReply)
    (bufferAddr : Nat) : Nat → Message :=
  Function.update list.messageList inIdx {
    sourceId := reply.a0.getD bufferAddr
    size := asUnsigned reply.v0
    message := copyBytes (list.messageList inIdx).message reply.bytes reply.copied }

/-- One transition of `irq_network` on the VM in execution. `bufferAddr` is the
address of the buffer the guest passes in `a0`, which is what it reads back as the
source id when the answer is empty. -/
def irqNetwork (m : Machine n) (self : Fin n) (bufferAddr : Nat) : Option (Machine n) :=
  let g := m.guest self
  let list := g.messageList
  match g.net with
  | .idle => none
  | .entered =>
    if list.numMessages = messagelistSz then
      some (m.setGuest self { g with net := .idle })
    else
      some (m.setGuest self { g with net := .fetching 1 list.inIdx })
  | .fetching ret inIdx =>
    if ret ≠ 0 ∧ list.numMessages < messagelistSz then
      let (m', reply) := intervmRecvMsg m self
      let stored := list.store inIdx reply bufferAddr
      if reply.v0 = messageEmpty then
        some (m'.setGuest self { messageList := { list with messageList := stored }, net := .idle })
      else
        let inIdx' := (inIdx + 1) % messagelistSz
        some (m'.setGuest self {
          messageList := { list with
            messageList := stored
            inIdx := inIdx'
            numMessages := list.numMessages + 1 }
          net := .fetching reply.v0 inIdx' })
    else some (m.setGuest self { g with net := .idle })

/-- One call of `ReceiveMessage` with a buffer of `bufsz` bytes; `none` for the
result is the return value 0 of a call that finds the list empty. A blocking call
waits until there is a message: until then the step is not taken. -/
def receiveMessage (m : Machine n) (self : Fin n) (bufsz : Nat) (block : Bool) :
    Option (Machine n × Option Delivery) :=
  let g := m.guest self
  let list := g.messageList
  if g.net ≠ .idle then none
  else if list.numMessages = 0 then
    if block then none else some (m, none)
  else
    let msg := list.messageList list.outIdx
    let size := if msg.size > bufsz then bufsz else msg.size
    some (m.setGuest self { g with messageList := list.pop },
      some { source := msg.sourceId, size := size, bytes := (List.range size).map msg.message })

/-! ## What the handler and the main program can do -/

/-- The handler stops: on a full list, when it is entered or at the loop test, or
after a message of size 0. -/
def Stops (g : Guest) : Prop :=
  match g.net with
  | .idle => False
  | .entered => g.messageList.numMessages = messagelistSz
  | .fetching ret _ => ret = 0 ∨ messagelistSz ≤ g.messageList.numMessages

instance (g : Guest) : Decidable (Stops g) := by
  unfold Stops
  split <;> infer_instance

/-- Transitions of `irq_network`. -/
inductive NetCase (m : Machine n) (self : Fin n) (bufferAddr : Nat) : Machine n → Prop where
  | stop (h : Stops (m.guest self)) :
      NetCase m self bufferAddr (m.setGuest self { m.guest self with net := .idle })
  | enter (hnet : (m.guest self).net = .entered)
      (hroom : (m.guest self).messageList.numMessages ≠ messagelistSz) :
      NetCase m self bufferAddr (m.setGuest self { m.guest self with
        net := .fetching 1 (m.guest self).messageList.inIdx })
  | empty (ret : Int) (inIdx : Nat) (hnet : (m.guest self).net = .fetching ret inIdx)
      (hroom : (m.guest self).messageList.numMessages < messagelistSz)
      (hempty : (m.vcpu self).messages.numMessages = 0) :
      NetCase m self bufferAddr (m.setGuest self {
        messageList := { (m.guest self).messageList with
          messageList := (m.guest self).messageList.store inIdx emptyReply bufferAddr }
        net := .idle })
  | fetch (ret : Int) (inIdx : Nat) (hnet : (m.guest self).net = .fetching ret inIdx)
      (hroom : (m.guest self).messageList.numMessages < messagelistSz)
      (hsome : (m.vcpu self).messages.numMessages ≠ 0) (msg : Message)
      (hmsg : msg = (m.vcpu self).messages.messageList (m.vcpu self).messages.outIdx) :
      NetCase m self bufferAddr
        ((m.setVcpu self { m.vcpu self with messages := (m.vcpu self).messages.pop }).setGuest
          self {
            messageList := { (m.guest self).messageList with
              messageList := (m.guest self).messageList.store inIdx msg.reply bufferAddr
              inIdx := (inIdx + 1) % messagelistSz
              numMessages := (m.guest self).messageList.numMessages + 1 }
            net := .fetching msg.size ((inIdx + 1) % messagelistSz) })

theorem irqNetwork_cases {m m' : Machine n} {self : Fin n} {bufferAddr : Nat}
    (h : irqNetwork m self bufferAddr = some m') : NetCase m self bufferAddr m' := by
  unfold irqNetwork at h
  cases hnet : (m.guest self).net with
  | idle =>
    simp only [hnet] at h
    cases h
  | entered =>
    simp only [hnet] at h
    split at h
    case isTrue hfull =>
      obtain rfl := Option.some.inj h
      exact .stop (by simpa [Stops, hnet] using hfull)
    case isFalse hroom =>
      obtain rfl := Option.some.inj h
      exact .enter hnet hroom
  | fetching ret inIdx =>
    simp only [hnet] at h
    -- the loop goes on while messages come and the list has room
    by_cases hgo : ret ≠ 0 ∧ (m.guest self).messageList.numMessages < messagelistSz
    · rw [if_pos hgo] at h
      by_cases hempty : (m.vcpu self).messages.numMessages = 0
      · simp only [intervmRecvMsg, hempty, if_true] at h
        rw [if_pos (show emptyReply.v0 = messageEmpty from rfl)] at h
        obtain rfl := Option.some.inj h
        exact .empty ret inIdx hnet hgo.2 hempty
      · simp only [intervmRecvMsg, hempty, if_false, Message.reply_ne_empty] at h
        obtain rfl := Option.some.inj h
        exact .fetch ret inIdx hnet hgo.2 hempty _ rfl
    · rw [if_neg hgo] at h
      obtain rfl := Option.some.inj h
      refine .stop ?_
      simp only [Stops, hnet]
      by_cases hret : ret = 0
      · exact Or.inl hret
      · exact Or.inr (Nat.le_of_not_lt fun hlt => hgo ⟨hret, hlt⟩)

/-- Where the handler can stop, it does. -/
theorem irqNetwork_stops {m : Machine n} {self : Fin n} (bufferAddr : Nat)
    (h : Stops (m.guest self)) :
    irqNetwork m self bufferAddr = some (m.setGuest self { m.guest self with net := .idle }) := by
  unfold irqNetwork
  unfold Stops at h
  split at h
  case h_1 => exact absurd h id
  case h_2 hnet =>
    simp only [hnet]
    rw [if_pos h]
  case h_3 ret inIdx hnet =>
    simp only [hnet]
    rw [if_neg]
    rintro ⟨hret, hlt⟩
    rcases h with h | h
    · exact hret h
    · omega

/-- The handler changes only its own VM's queue and list. -/
theorem irqNetwork_frame {m m' : Machine n} {self : Fin n} {bufferAddr : Nat}
    (h : irqNetwork m self bufferAddr = some m') :
    m'.executing = m.executing ∧ m'.vm = m.vm ∧ m'.cpu = m.cpu ∧
      (∀ j, j ≠ self → m'.guest j = m.guest j) ∧
      ∀ j, m'.vcpu j = { m.vcpu j with messages := (m'.vcpu j).messages } := by
  cases irqNetwork_cases h with
  | stop => exact ⟨rfl, rfl, rfl, fun j hj => setGuest_guest_of_ne _ hj _, fun _ => rfl⟩
  | enter => exact ⟨rfl, rfl, rfl, fun j hj => setGuest_guest_of_ne _ hj _, fun _ => rfl⟩
  | empty => exact ⟨rfl, rfl, rfl, fun j hj => setGuest_guest_of_ne _ hj _, fun _ => rfl⟩
  | fetch =>
    refine ⟨rfl, rfl, rfl, fun j hj => setGuest_guest_of_ne _ hj _, fun j => ?_⟩
    by_cases hj : j = self
    · subst hj
      simp
    · rw [setGuest_vcpu, setVcpu_vcpu_of_ne _ hj]

/-- Outcomes of `ReceiveMessage`: 0 on an empty list, or the oldest message, cut to
the size of the buffer. -/
inductive ReceiveCase (m : Machine n) (self : Fin n) (bufsz : Nat) :
    Machine n → Option Delivery → Prop where
  | nothing (hempty : (m.guest self).messageList.numMessages = 0) :
      ReceiveCase m self bufsz m none
  | message (hsome : (m.guest self).messageList.numMessages ≠ 0) (msg : Message)
      (hmsg : msg = (m.guest self).messageList.messageList (m.guest self).messageList.outIdx) :
      ReceiveCase m self bufsz
        (m.setGuest self { m.guest self with messageList := (m.guest self).messageList.pop })
        (some { source := msg.sourceId, size := min msg.size bufsz,
                bytes := (List.range (min msg.size bufsz)).map msg.message })

theorem receiveMessage_cases {m m' : Machine n} {self : Fin n} {bufsz : Nat} {block : Bool}
    {got : Option Delivery} (h : receiveMessage m self bufsz block = some (m', got)) :
    (m.guest self).net = .idle ∧ ReceiveCase m self bufsz m' got := by
  unfold receiveMessage at h
  by_cases hidle : (m.guest self).net = .idle
  · refine ⟨hidle, ?_⟩
    dsimp only at h
    rw [if_neg (not_not.mpr hidle)] at h
    by_cases hempty : (m.guest self).messageList.numMessages = 0
    · rw [if_pos hempty] at h
      cases block with
      | true => cases h
      | false =>
        obtain ⟨rfl, rfl⟩ := Prod.mk.inj (Option.some.inj h)
        exact .nothing hempty
    · rw [if_neg hempty] at h
      obtain ⟨rfl, rfl⟩ := Prod.mk.inj (Option.some.inj h)
      have hmin : ∀ a b : Nat, (if a > b then b else a) = min a b := by
        intro a b
        split <;> omega
      rw [hmin]
      exact .message hempty _ rfl
  · simp only [hidle, ne_eq, not_false_eq_true, if_true] at h
    cases h

/-- With a message in the list and the handler not running, `ReceiveMessage` returns. -/
theorem receiveMessage_returns {m : Machine n} {self : Fin n} (bufsz : Nat) (block : Bool)
    (hidle : (m.guest self).net = .idle) (hsome : (m.guest self).messageList.numMessages ≠ 0) :
    ∃ got, receiveMessage m self bufsz block =
      some (m.setGuest self { m.guest self with messageList := (m.guest self).messageList.pop },
        got) := by
  unfold receiveMessage
  dsimp only
  rw [if_neg (not_not.mpr hidle), if_neg hsome]
  exact ⟨_, rfl⟩

/-- `ReceiveMessage` changes only the caller's list. -/
theorem receiveMessage_frame {m m' : Machine n} {self : Fin n} {bufsz : Nat} {block : Bool}
    {got : Option Delivery} (h : receiveMessage m self bufsz block = some (m', got)) :
    m'.executing = m.executing ∧ m'.vm = m.vm ∧ m'.vcpu = m.vcpu ∧ m'.cpu = m.cpu ∧
      ∀ j, j ≠ self → m'.guest j = m.guest j := by
  obtain ⟨-, hcase⟩ := receiveMessage_cases h
  cases hcase with
  | nothing => exact ⟨rfl, rfl, rfl, rfl, fun _ _ => rfl⟩
  | message => exact ⟨rfl, rfl, rfl, rfl, fun j hj => setGuest_guest_of_ne _ hj _⟩

end PrplHypervisor
