import PrplHypervisor.Lib.Lts

/-!
# The secureConnection application (bare-metal-apps/apps/secureConnection)

`startListening` is the callback of the TCP socket of the application. picoTCP calls
it with a set of flags; the socket that `pico_socket_accept` returns, what the read
gets and the answer of the `get_owned_vms` hypercall come with the event.

- `track`: how far a connection has come since it was accepted, read off the trace.
- `Gated`: the replies for authenticated clients go to verified connections only.
- `connection_gated`: this holds as long as nobody connects after somebody has been
  verified, and no longer.

`printf` output is left out.
-/

namespace PrplHypervisor

/-- The address of a `struct pico_socket`; `NULL` is `none`. -/
abbrev Socket := Nat

def passBufferSize : Nat := 128

/-- What the application writes to a client. -/
inductive Reply
  | welcome | askpubkey | fail | ok | dummy | vms
  deriving DecidableEq, Repr

/-- The static variables of `secureConnection.c`. -/
structure SecureConnection where
  alreadyverified : Bool
  socketClient : Option Socket
  passbuffer : List UInt8
  vmsbuffer : String
  deriving DecidableEq

def SecureConnection.init : SecureConnection :=
  ⟨false, none, List.replicate passBufferSize 0, ""⟩

/-- The text of a reply. Nothing ever fills `vmsbuffer`. -/
def Reply.text (s : SecureConnection) : Reply → String
  | .welcome => "This is a restricted area\n"
  | .askpubkey => "\nPassword: "
  | .fail => "\nWrong Password, your ip has been registered.\n"
  | .ok => "\nConnection Established.\n"
  | .dummy => "\nDummy msg.\n"
  | .vms => s.vmsbuffer

/-- One call of the callback: the flags in `ev`, and what the calls it makes return. -/
structure SocketEvent where
  conn : Bool
  rd : Bool
  err : Bool
  close : Bool
  accept : Option Socket
  /-- The bytes `pico_socket_read` stores, or an error. -/
  read : Option (List UInt8)
  getOwnedVms : List UInt8 → Int

/-- What the application does to its connections. -/
inductive SocketObs
  | accepted (client : Option Socket)
  | verified (client : Option Socket)
  | wrote (client : Option Socket) (reply : Reply) (text : String)
  deriving DecidableEq

/-- `data[i] = ...`, by the first character of a pair. -/
def highDigit (c : UInt8) : UInt8 :=
  match Char.ofUInt8 c with
  | '0' => 0x00 | '1' => 0x10 | '2' => 0x20 | '3' => 0x30 | '4' => 0x40 | '5' => 0x50
  | '6' => 0x60 | '7' => 0x70 | '8' => 0x80 | '9' => 0x90
  | 'a' => 0xA0 | 'b' => 0xB0 | 'c' => 0xC0 | 'd' => 0xD0 | 'e' => 0xE0 | 'f' => 0xF0
  | 'A' => 0xA0 | 'B' => 0xB0 | 'C' => 0xC0 | 'D' => 0xD0 | 'E' => 0xE0 | 'F' => 0xF0
  | _ => 0x00

/-- `data[i] += ...`, by the second. -/
def lowDigit (c2 : UInt8) : UInt8 :=
  match Char.ofUInt8 c2 with
  | '0' => 0x00 | '1' => 0x01 | '2' => 0x02 | '3' => 0x03 | '4' => 0x04 | '5' => 0x05
  | '6' => 0x06 | '7' => 0x07 | '8' => 0x08 | '9' => 0x09
  | 'a' => 0x0A | 'b' => 0x0B | 'c' => 0x0C | 'd' => 0x0D | 'e' => 0x0E | 'f' => 0x0F
  | 'A' => 0x0A | 'B' => 0x0B | 'C' => 0x0C | 'D' => 0x0D | 'E' => 0x0E | 'F' => 0x0F
  | _ => 0x00

/-- `convert_input`: 64 bytes from the hex digits in the pass buffer. -/
def convertInput : List UInt8 → List UInt8
  | c :: c2 :: rest => (highDigit c + lowDigit c2) :: convertInput rest
  | _ => []

namespace SecureConnection

/-- The answer of the hypercall for the key in the pass buffer, 0 for a wrong one. -/
def verifyPassword (s : SecureConnection) (getOwnedVms : List UInt8 → Int) : Int :=
  getOwnedVms (convertInput s.passbuffer)

/-- The pass buffer zeroed and read into. -/
def readPass (s : SecureConnection) (read : Option (List UInt8)) : SecureConnection :=
  let bytes := (read.getD []).take passBufferSize
  { s with passbuffer := bytes ++ List.replicate (passBufferSize - bytes.length) 0 }

def write (s : SecureConnection) (reply : Reply) : SocketObs :=
  .wrote s.socketClient reply (reply.text s)

/-- The branch for `PICO_SOCK_EV_CONN`. -/
def onConn (s : SecureConnection) (e : SocketEvent) : SecureConnection × List SocketObs :=
  if e.conn then
    let s := { s with socketClient := e.accept }
    (s, [.accepted e.accept, s.write .welcome, s.write .askpubkey])
  else (s, [])

/-- The branch for `PICO_SOCK_EV_RD`. -/
def onRead (s : SecureConnection) (e : SocketEvent) : SecureConnection × List SocketObs :=
  if e.rd then
    if s.alreadyverified = false then
      let s := s.readPass e.read
      if s.verifyPassword e.getOwnedVms = 0 then (s, [s.write .fail])
      else ({ s with alreadyverified := true }, [.verified s.socketClient, s.write .ok])
    else (s, [s.write .dummy, s.write .vms])
  else (s, [])

/-- One call of the callback. Errors and closed connections are only printed. -/
def startListening (s : SecureConnection) (e : SocketEvent) :
    Option (SecureConnection × List SocketObs) :=
  let p := s.onConn e
  let q := p.1.onRead e
  some (q.1, p.2 ++ q.2)

end SecureConnection

/-! ## Authentication, read off the trace -/

/-- How far a connection has come since it was accepted last. -/
inductive Progress
  | unknown | accepted | verified
  deriving DecidableEq, Repr

/-- What one observation means for the connection on `c`. -/
def Progress.next (c : Socket) (p : Progress) : SocketObs → Progress
  | .accepted c' => if c' = some c then .accepted else p
  | .verified c' => if c' = some c ∧ p ≠ .unknown then .verified else p
  | .wrote _ _ _ => p

def track (c : Socket) (tr : List SocketObs) : Progress := tr.foldl (Progress.next c) .unknown

/-- Replies for clients that have been verified. -/
def Reply.PostAuth (r : Reply) : Prop := r = .dummy ∨ r = .vms

/-- Every reply for verified clients goes to a connection verified before. -/
def Gated (tr : List SocketObs) : Prop :=
  ∀ before c r text after, tr = before ++ .wrote (some c) r text :: after → r.PostAuth →
    track c before = .verified

@[simp] theorem track_append (c : Socket) (tr os : List SocketObs) :
    track c (tr ++ os) = os.foldl (Progress.next c) (track c tr) :=
  List.foldl_append

theorem gated_nil : Gated [] := by
  intro before c r text after h
  simp at h

/-- One more observation. -/
theorem gated_snoc {tr : List SocketObs} {o : SocketObs} :
    Gated (tr ++ [o]) ↔ Gated tr ∧
      ∀ c r text, o = .wrote (some c) r text → r.PostAuth → track c tr = .verified := by
  constructor
  · intro h
    constructor
    · rintro before c r text after rfl hr
      exact h before c r text (after ++ [o]) (by simp) hr
    · rintro c r text rfl hr
      exact h tr c r text [] rfl hr
  · rintro ⟨htr, ho⟩ before c r text after heq hr
    rcases List.eq_nil_or_concat after with rfl | ⟨after, o', rfl⟩
    · -- the last observation is the one in question
      obtain ⟨rfl, hlast⟩ := List.append_inj' heq rfl
      exact ho c r text (List.singleton_inj.mp hlast) hr
    · rw [List.concat_eq_append, ← List.cons_append, ← List.append_assoc] at heq
      obtain ⟨rfl, -⟩ := List.append_inj' heq rfl
      exact htr before c r text after rfl hr

/-! ## What keeps the replies gated -/

namespace SecureConnection

/-- Nobody connects once somebody has been verified. -/
def NoReconnect (s : SecureConnection) (e : SocketEvent) : Prop :=
  s.alreadyverified = true → e.conn = true → e.accept = none

instance : DecidableRel NoReconnect := fun s e =>
  inferInstanceAs (Decidable (s.alreadyverified = true → e.conn = true → e.accept = none))

/-- The client is a connection that was accepted, and a verified one once
`alreadyverified` is set. -/
structure Guarded (tr : List SocketObs) (s : SecureConnection) : Prop where
  gated : Gated tr
  client : ∀ c, s.socketClient = some c → track c tr ≠ .unknown
  verified : s.alreadyverified = true → ∀ c, s.socketClient = some c → track c tr = .verified

variable {tr : List SocketObs} {s s' : SecureConnection} {e : SocketEvent} {os : List SocketObs}

theorem guarded_init : Guarded [] init where
  gated := gated_nil
  client c h := by cases h
  verified h := by cases h

/-- A write to the client is harmless if it is a reply for everybody or the client is verified. -/
theorem Guarded.write (h : Guarded tr s) {r : Reply} (hr : r.PostAuth → s.alreadyverified = true) :
    Guarded (tr ++ [s.write r]) s where
  gated := by
    refine gated_snoc.mpr ⟨h.gated, ?_⟩
    rintro c r' text heq hpost
    obtain ⟨hc, rfl, -⟩ := SocketObs.wrote.inj heq
    exact h.verified (hr hpost) c hc
  client c hc := by
    rw [track_append]
    exact h.client c hc
  verified hv c hc := by
    rw [track_append]
    exact h.verified hv c hc

theorem guarded_onConn (h : Guarded tr s) (hok : s.NoReconnect e) :
    Guarded (tr ++ (s.onConn e).2) (s.onConn e).1 := by
  unfold onConn
  split
  case isFalse => simpa using h
  case isTrue hconn =>
    have haccepted : Guarded (tr ++ [.accepted e.accept]) { s with socketClient := e.accept } := by
      constructor
      · refine gated_snoc.mpr ⟨h.gated, ?_⟩
        rintro c r text heq
        cases heq
      · intro c hc
        change e.accept = some c at hc
        simp [Progress.next, hc]
      · intro hv c hc
        -- a verified application gets no new client, by the side condition
        rw [show e.accept = none from hok hv hconn] at hc
        cases hc
    have hwelcome := haccepted.write (r := .welcome) (by rintro (h | h) <;> cases h)
    have hask := hwelcome.write (r := .askpubkey) (by rintro (h | h) <;> cases h)
    simpa using hask

/-- Setting `alreadyverified` when the password of the client is right. -/
theorem Guarded.verify (h : Guarded tr s) :
    Guarded (tr ++ [.verified s.socketClient]) { s with alreadyverified := true } := by
  have hnext : ∀ c, s.socketClient = some c →
      track c (tr ++ [.verified s.socketClient]) = .verified := by
    intro c hc
    simp [Progress.next, hc, h.client c hc]
  constructor
  · refine gated_snoc.mpr ⟨h.gated, ?_⟩
    rintro c r text heq
    cases heq
  · intro c hc
    rw [hnext c hc]
    decide
  · intro _ c hc
    exact hnext c hc

theorem guarded_onRead (h : Guarded tr s) : Guarded (tr ++ (s.onRead e).2) (s.onRead e).1 := by
  unfold onRead
  split
  case isFalse => simpa using h
  case isTrue =>
    split
    case isTrue hv =>
      have hread : Guarded tr (s.readPass e.read) := ⟨h.gated, h.client, h.verified⟩
      dsimp only
      split
      · exact hread.write (by rintro (h | h) <;> cases h)
      · have hok := hread.verify.write (r := .ok) (by rintro (h | h) <;> cases h)
        rwa [List.append_assoc] at hok
    case isFalse hv =>
      have hv : s.alreadyverified = true := by simpa using hv
      have hdummy := h.write (r := .dummy) fun _ => hv
      have hvms := hdummy.write (r := .vms) fun _ => hv
      rwa [List.append_assoc] at hvms

/-- What one event preserves. -/
theorem guarded_step (h : Guarded tr s) (hok : s.NoReconnect e)
    (hstep : s.startListening e = some (s', os)) : Guarded (tr ++ os) s' := by
  obtain ⟨rfl, rfl⟩ := Prod.mk.inj (Option.some.inj hstep)
  rw [← List.append_assoc]
  exact guarded_onRead (guarded_onConn h hok)

/-! ## What happens otherwise -/

/-- The client has been accepted, nothing more, but the application takes it for verified. -/
def Mistaken (tr : List SocketObs) (s : SecureConnection) : Prop :=
  s.alreadyverified = true ∧ ∃ c, s.socketClient = some c ∧ track c tr = .accepted

theorem mistaken_onConn (hbad : ¬ s.NoReconnect e) :
    Mistaken (tr ++ (s.onConn e).2) (s.onConn e).1 := by
  obtain ⟨hv, hconn, haccept⟩ : s.alreadyverified = true ∧ e.conn = true ∧ e.accept ≠ none := by
    simpa [NoReconnect] using hbad
  obtain ⟨c, hc⟩ := Option.ne_none_iff_exists'.mp haccept
  rw [onConn, if_pos hconn]
  exact ⟨hv, c, hc, by simp [Progress.next, write, hc]⟩

/-- The next read changes nothing for such a client, and serves it. -/
theorem Mistaken.read (h : Mistaken tr s) : Mistaken (tr ++ (s.onRead e).2) (s.onRead e).1 ∧
    (e.rd = true → ¬ Gated (tr ++ (s.onRead e).2)) := by
  obtain ⟨hv, c, hc, htrack⟩ := h
  unfold onRead
  split
  case isFalse hrd => exact ⟨by simpa using ⟨hv, c, hc, htrack⟩, fun h => absurd h hrd⟩
  case isTrue =>
    rw [if_neg (by simp [hv])]
    constructor
    · exact ⟨hv, c, hc, by simp [Progress.next, write, htrack]⟩
    · intro _ hgated
      have hdummy := hgated tr c .dummy (Reply.text s .dummy) [s.write .vms] (by simp [write, hc])
        (Or.inl rfl)
      rw [htrack] at hdummy
      cases hdummy

/-- Whoever connects after somebody has been verified is served on the next read. -/
theorem reconnect_ungated (hbad : ¬ s.NoReconnect e) (hstep : s.startListening e = some (s', os))
    {r : SocketEvent} (hconn : r.conn = false) (hrd : r.rd = true) {s'' : SecureConnection}
    {os' : List SocketObs} (hread : s'.startListening r = some (s'', os')) :
    ¬ Gated (tr ++ os ++ os') := by
  obtain ⟨rfl, rfl⟩ := Prod.mk.inj (Option.some.inj hstep)
  obtain ⟨-, rfl⟩ := Prod.mk.inj (Option.some.inj hread)
  have hclient : Mistaken (tr ++ (s.onConn e).2) (s.onConn e).1 := mistaken_onConn hbad
  have hserved := (hclient.read (e := e)).1
  rw [List.append_assoc] at hserved
  have hquiet : ∀ t : SecureConnection, t.onConn r = (t, []) := by
    intro t
    rw [onConn, if_neg (by simp [hconn])]
  rw [hquiet]
  exact (hserved.read (e := r)).2 hrd

end SecureConnection

/-- **Authentication gates each connection** as long as nobody connects after somebody
has been verified: in every run of such events the replies for verified clients go to
verified connections. The first connection that breaks this is served on its next read. -/
theorem connection_gated {tr : List SocketObs} {s : SecureConnection}
    (hrun : Lts.Run SecureConnection.startListening SecureConnection.NoReconnect
      SecureConnection.init tr s) :
    Gated tr ∧ ∀ e s' os r s'' os', ¬ s.NoReconnect e → s.startListening e = some (s', os) →
      r.conn = false → r.rd = true → s'.startListening r = some (s'', os') →
      ¬ Gated (tr ++ os ++ os') := by
  have hguarded : SecureConnection.Guarded tr s :=
    hrun.invariant SecureConnection.Guarded SecureConnection.guarded_init
      fun _ _ _ _ _ h hok hstep => SecureConnection.guarded_step h hok hstep
  refine ⟨hguarded.gated, ?_⟩
  intro e s' os r s'' os' hbad hstep hconn hrd hread
  exact SecureConnection.reconnect_ungated hbad hstep hconn hrd hread

/-! ## A session -/

/-- A connection comes in on socket `c`. -/
def connects (c : Socket) : SocketEvent := ⟨true, false, false, false, some c, none, fun _ => 0⟩

/-- The client sends 128 times the character `ch`; the key of all `0x11` owns a VM. -/
def sends (ch : UInt8) : SocketEvent :=
  ⟨false, true, false, false, none, some (List.replicate passBufferSize ch),
    fun key => if key = List.replicate 64 0x11 then 1 else 0⟩

/-- The client closes the connection. -/
def closes : SocketEvent := ⟨false, false, false, true, none, none, fun _ => 0⟩

/-- A client gets the password right at the second try and is served. -/
theorem connection_gated_session : ∃ tr s, Lts.Run SecureConnection.startListening
    SecureConnection.NoReconnect SecureConnection.init tr s ∧ Gated tr ∧
    .wrote (some 1) .dummy "\nDummy msg.\n" ∈ tr := by
  have hrun := Lts.exec_run (show (Lts.exec SecureConnection.startListening
    SecureConnection.NoReconnect SecureConnection.init
    [connects 1, sends 50, sends 49, sends 50, closes]).isSome = true by decide +kernel)
  exact ⟨_, _, hrun, (connection_gated hrun).1, by decide +kernel⟩

/-- The client that connects after the first one has left is served with a wrong password. -/
theorem second_client_served : ∃ tr s, Lts.Run SecureConnection.startListening Lts.anyEvent
    SecureConnection.init tr s ∧ ¬ Gated tr := by
  have hrun := Lts.exec_run (show (Lts.exec SecureConnection.startListening Lts.anyEvent
    SecureConnection.init [connects 1, sends 49, closes, connects 2, sends 50]).isSome = true
    by decide +kernel)
  refine ⟨_, _, hrun, fun hgated => ?_⟩
  have hserved := hgated
    [.accepted (some 1), .wrote (some 1) .welcome "This is a restricted area\n",
      .wrote (some 1) .askpubkey "\nPassword: ", .verified (some 1),
      .wrote (some 1) .ok "\nConnection Established.\n", .accepted (some 2),
      .wrote (some 2) .welcome "This is a restricted area\n",
      .wrote (some 2) .askpubkey "\nPassword: "]
    2 .dummy "\nDummy msg.\n" [.wrote (some 2) .vms ""] (by decide +kernel) (Or.inl rfl)
  exact absurd hserved (by decide)

end PrplHypervisor
