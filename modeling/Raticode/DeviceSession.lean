import Raticode.DeviceCarrier
import Raticode.DeviceRecords
import Raticode.DeviceRegistry

/-! `gofer.devices.service.DeviceSession`: the responder's side of one connection. A
session goes from its binding over a pairing that waits for the local user, or at once,
to a ready record, and takes application records when that is acknowledged. -/
namespace Raticode.Device
open PyDocument

/-- The codes of the `PairingError`s that sessions and invitations raise themselves, and
of the `FrameError` of a binding with a role that is none. -/
inductive Refusal where
  | invalidFirstFrame | sessionClosed | sessionTimeout | identityMissing | invalidRole
  | applicationTransportNotEnabled | enrollmentUnavailable | pairingChanged
  | invitationUnavailable | bindingRole | sessionBinding
  deriving DecidableEq, Repr

def Refusal.code : Refusal → String
  | invalidFirstFrame => "invalid_first_frame"
  | sessionClosed => "session_closed"
  | sessionTimeout => "session_timeout"
  | identityMissing => "identity_missing"
  | invalidRole => "invalid_role"
  | applicationTransportNotEnabled => "application_transport_not_enabled"
  | enrollmentUnavailable => "enrollment_unavailable"
  | pairingChanged => "pairing_changed"
  | invitationUnavailable => "invitation_unavailable"
  | bindingRole => "binding_role"
  | sessionBinding => "session_binding"

/-- What the handlers of `receive` and `poll` tell apart. -/
inductive ExceptionKind where
  | value | type | other
  deriving DecidableEq, Repr

inductive SessionError where
  | pairing (e : PairingError)
  | refused (e : Refusal)
  | frame (e : FrameError)
  | raised (e : Raised)
  /-- A `DeviceTLSError`. -/
  | tls
  | application (kind : ExceptionKind)

def SessionError.kind : SessionError → ExceptionKind
  | pairing .typeError => .type
  | raised (.dumps .notSerializable) => .type
  | raised (.dumps .recursion) => .other
  | application kind => kind
  | _ => .value

/-! The first record of a session. -/

/-- Whether a key stands before another in the order of `sort_keys`. -/
def keyBefore : Key → Key → Bool
  | .str s, .str t => s < t
  | _, _ => false

def insertMember (p : Key × Value) : Record → Record
  | [] => [p]
  | q :: members => if keyBefore q.1 p.1 then q :: insertMember p members else p :: q :: members

mutual
/-- A value whose dictionaries are in the order of `sort_keys`. The keys of a decoded
record are strings. -/
def sortKeys : Value → Value
  | .list items => .list (sortItems items)
  | .dict members => .dict (sortMembers members)
  | value => value

def sortItems : List Value → List Value
  | [] => []
  | item :: items => sortKeys item :: sortItems items

def sortMembers : Record → Record
  | [] => []
  | (key, value) :: members => insertMember (key, sortKeys value) (sortMembers members)
end

structure SessionBinding where
  sessionId : Str
  mode : Str
  initiatorId : Str
  responderId : Str
  initiatorRole : Str
  invitationSha256 : Option Str
  secret : Option Value

namespace SessionBinding

def record (binding : SessionBinding) : Record :=
  [(.str (text "type"), .str (text "session.bind")), (.str (text "version"), .int 2),
    (.str (text "profile"), .str (text "raticode-tls13-v2")),
    (.str (text "session_id"), .str binding.sessionId), (.str (text "mode"), .str binding.mode),
    (.str (text "initiator_id"), .str binding.initiatorId),
    (.str (text "responder_id"), .str binding.responderId),
    (.str (text "initiator_role"), .str binding.initiatorRole),
    (.str (text "responder_role"), .str (text "desktop")),
    (.str (text "invitation_sha256"), (binding.invitationSha256.map Value.str).getD .null),
    (.str (text "secret"), binding.secret.getD .null)]

/-- `__post_init__` and `verify`. Both sides are compared as canonical JSON. -/
def verify (limits : Limits) (binding : SessionBinding) (received : Record) :
    Except Refusal Unit :=
  if binding.initiatorRole ≠ text "controller" && binding.initiatorRole ≠ text "desktop" then
    .error .bindingRole
  else
    match dumpBytes limits ⟨true, true⟩ (sortKeys (.dict binding.record)),
        dumpBytes limits ⟨true, false⟩ (sortKeys (.dict received)) with
    | .ok expected, .ok actual => if expected = actual then .ok () else .error .sessionBinding
    | _, _ => .error .sessionBinding

end SessionBinding

structure Invitation where
  raw : Bytes
  expires : ℚ
  deadline : ℚ
  failures : ℕ

/-! What a session runs on. -/

/-- TLS as a session uses it: the calls, the pin of the certificate that the peer has
proved to hold the key of, and how many bytes are left to read. A connection has one
peer, so a pin that was reported stays. -/
structure Tls (T : Type) where
  feed : T → Bytes → Except Unit Unit × T
  receive : T → Except Unit (List Bytes) × T
  send : T → Bytes → Except Unit Unit × T
  drain : T → Except Unit Bytes × T
  unread : T → ℕ
  peerPin : T → Option Bytes
  feed_pin (t : T) (data pin : Bytes) : peerPin t = some pin → peerPin (feed t data).2 = some pin
  receive_pin (t : T) (pin : Bytes) : peerPin t = some pin → peerPin (receive t).2 = some pin
  send_pin (t : T) (data pin : Bytes) : peerPin t = some pin → peerPin (send t data).2 = some pin
  drain_pin (t : T) (pin : Bytes) : peerPin t = some pin → peerPin (drain t).2 = some pin

/-- What a call of `DeviceApplication.handle` comes to. Of the table of peers it writes
the time it last saw the peer, if it gets as far as recording the event. -/
structure Handling (A : Type) where
  next : A
  lastSeen : Option ℚ
  error : Option ExceptionKind

structure Application (A : Type) where
  handle : A → Str → Record → Handling A
  pending : A → Str → ℤ → ℕ → Except SessionError (List Record)

/-- The clocks by their readings, and the identifiers `uuid4` draws. -/
structure Backend (T A : Type) where
  limits : Limits
  tls : Tls T
  application : Option (Application A)
  sha256 : Bytes → Str
  monotonic : ℕ → ℚ
  clock : ℕ → ℚ
  uuid4 : ℕ → Str

inductive Stage where
  | binding | pending | ack | active
  deriving DecidableEq, Repr

structure Session (T : Type) where
  sessionId : Str
  mode : Str
  frames : OrderedFrames
  records : Records
  tls : T
  generations : List (Str × Str)
  peer : Option Str
  role : Option Str
  stage : Stage
  deadline : ℚ
  index : ℕ
  sentSequence : ℤ
  closed : Bool

inductive Event where
  | opened (number : ℕ) (mode : Str) (registry : Registry)
  | called (op : Op)
  | claimed (number : ℕ) (peer : Str) (pin : Bytes) (registry : Registry)
  | bound (number : ℕ) (peer : Str)
  | readied (number : ℕ) (peer : Str)
  | acknowledged (number : ℕ) (peer : Str) (record : Record) (registry : Registry)
  | handled (number : ℕ) (peer : Str) (pin : Option Bytes) (record : Record) (registry : Registry)

structure Ledger where
  registry : Registry
  drawn : ℕ
  log : List Event

def Ledger.note (l : Ledger) (e : Event) : Ledger := { l with log := l.log ++ [e] }

def Ledger.seen (l : Ledger) (peer : Str) : Option ℚ → Ledger
  | some now =>
    { l with registry := l.registry.update peer (fun p => { p with lastSeen := some now }) }
  | none => l

structure Site (T A : Type) where
  ledger : Ledger
  invitation : Option Invitation
  application : A
  readings : ℕ
  number : ℕ
  session : Session T

abbrev Serve (T A : Type) := EStateM SessionError (Site T A)

namespace Serve
open Attempt
variable {T A α : Type}

def refuse (e : Refusal) : Serve T A α := fail (.refused e)

def pairing (x : Pairing α) : Serve T A α := lift (x.mapError .pairing)

def session : Serve T A (Session T) := do
  let site ← peek
  pure site.session

def registry : Serve T A Registry := do
  let site ← peek
  pure site.ledger.registry

def change (f : Session T → Session T) : Serve T A Unit := do
  let site ← peek
  put { site with session := f site.session }

def note (e : ℕ → Registry → Event) : Serve T A Unit := do
  let site ← peek
  put { site with ledger := site.ledger.note (e site.number site.ledger.registry) }

def call (op : Op) : Serve T A Unit := do
  let site ← peek
  let registry ← pairing (site.ledger.registry.step op)
  put { site with ledger := { site.ledger with registry }.note (.called op) }

variable (b : Backend T A)

def monotonic : Serve T A ℚ := do
  let site ← peek
  put { site with readings := site.readings + 1 }
  pure (b.monotonic site.readings)

def clock : Serve T A ℚ := do
  let site ← peek
  put { site with readings := site.readings + 1 }
  pure (b.clock site.readings)

/-- `str(uuid4())`. -/
def draw : Serve T A Str := do
  let site ← peek
  put { site with ledger := { site.ledger with drawn := site.ledger.drawn + 1 } }
  pure (b.uuid4 site.ledger.drawn)

def onTls (f : T → Except Unit α × T) : Serve T A α := do
  let s ← session
  change (fun s => { s with tls := (f s.tls).2 })
  lift ((f s.tls).1.mapError (fun _ => .tls))

def send (record : Record) : Serve T A Unit := do
  let data ← lift ((encodeRecord b.limits (.dict record)).mapError .raised)
  onTls (fun t => b.tls.send t data)

def generation (peer : Str) : Serve T A Str := do
  let registry ← registry
  let row ← pairing (registry.row peer)
  pure row.generation

/-- `registry.check_generation(self.peer, self.generations.get(self.peer))`. -/
def checkGeneration (peer : Str) : Serve T A Unit := do
  let s ← session
  match s.generations.lookup peer with
  | none => refuse .pairingChanged
  | some captured =>
    let current ← generation peer
    if current ≠ captured then refuse .pairingChanged else pure ()

/-- `self.registry.authenticate(self.peer, self.tls.peer_pin or b"", self.role)`. -/
def authenticate (peer : Str) (pin : Bytes) (role : Str) : Serve T A Unit := do
  let registry ← registry
  pairing (registry.authenticate peer pin role)

def authority : Serve T A Unit := do
  let s ← session
  match s.peer, s.role with
  | some peer, some role =>
    if s.stage = .pending then pure ()
    else do
      checkGeneration peer
      authenticate peer ((b.tls.peerPin s.tls).getD []) role
  | _, _ => pure ()

/-- `_ready`. Its assertion holds wherever it is called. -/
def ready (peer role : Str) (pin : Bytes) : Serve T A Unit := do
  let registry ← registry
  let record ← pairing (registry.ready peer pin role)
  send b record
  change (fun s => { s with stage := .ack })
  note (fun number _ => .readied number peer)
  let now ← monotonic b
  change (fun s => { s with deadline := now + 30 })

/-- `device_id(record.get("initiator_id"))`. -/
def initiatorId (record : Record) : Pairing Str :=
  match member record "initiator_id" with
  | some (.str peer) => do
    deviceId peer
    return peer
  | _ => .error .invalidDeviceId

/-- `record.get("initiator_role")`, which has to be a string. -/
def initiatorRole (record : Record) : Except Refusal Str :=
  match member record "initiator_role" with
  | some (.str role) => .ok role
  | _ => .error .invalidRole

/-- The check at the head of `Invitations.claim`. The first failing test decides, so the
clocks are not always read. -/
def currentInvitation : Serve T A Invitation := do
  let site ← peek
  match site.invitation with
  | none => refuse .invitationUnavailable
  | some invite =>
    if 5 ≤ invite.failures then refuse .invitationUnavailable
    else do
      let now ← clock b
      if invite.expires ≤ now then refuse .invitationUnavailable
      else do
        let tick ← monotonic b
        if invite.deadline ≤ tick then refuse .invitationUnavailable else pure invite

/-- `registry.propose`, with the two readings of the clock and the generation it draws.
A consumed invitation is no longer the current one, so no flag says so. -/
def propose (peer : Str) (pin : Bytes) (role : Str) (expires : ℚ) : Serve T A Unit := do
  let now ← clock b
  let created ← clock b
  let generation ← draw b
  call (.propose peer pin role expires false now created generation)

/-- `data["secret"]`. -/
def secretOf (data : Record) : Except SessionError Value :=
  match member data "secret" with
  | some secret => .ok secret
  | none => .error (.application .other)

def claim (record : Record) (sessionId : Str) (pin : Bytes) : Serve T A (Str × Str) := do
  let invite ← currentInvitation b
  let site ← peek
  put { site with invitation := some { invite with failures := invite.failures + 1 } }
  let data ← lift ((strictJson b.limits maxRecord invite.raw).mapError .frame)
  let peer ← pairing (initiatorId record)
  let role ← lift ((initiatorRole record).mapError .refused)
  let secret ← lift (secretOf data)
  let registry ← registry
  lift ((SessionBinding.verify b.limits ⟨sessionId, text "pair", peer, registry.identity, role,
    some (b.sha256 invite.raw), some secret⟩ record).mapError .refused)
  propose b peer pin role invite.expires
  let site ← peek
  put { site with invitation := none }
  pure (peer, role)

/-- `int(x)`. -/
def truncate (x : ℚ) : ℤ := if 0 ≤ x then x.floor else x.ceil

def pendingRecord (peer : Str) (expires : ℚ) : Record :=
  [(.str (text "type"), .str (text "session.pending")), (.str (text "device_id"), .str peer),
    (.str (text "expires_at"), .int (truncate expires))]

/-- The branch of `_record` that pairs. -/
def bindPair (record : Record) (pin : Bytes) : Serve T A Unit := do
  let s ← session
  let (peer, role) ← claim b record s.sessionId pin
  let captured ← generation peer
  change (fun s => { s with
    peer := some peer, role := some role, generations := (peer, captured) :: s.generations })
  note (fun number registry => .claimed number peer pin registry)
  send b record
  change (fun s => { s with stage := .pending })
  let registry ← registry
  let row ← pairing (registry.row peer)
  match row.expires with
  | none => fail (.pairing .typeError)
  | some expires =>
    let tick ← monotonic b
    let now ← clock b
    change (fun s => { s with deadline := tick + max 0 (expires - now) })
    send b (pendingRecord peer expires)

/-- The branch of `_record` that resumes. -/
def bindResume (record : Record) (pin : Bytes) : Serve T A Unit := do
  let peer ← pairing (initiatorId record)
  change (fun s => { s with peer := some peer })
  let role ← lift ((initiatorRole record).mapError .refused)
  change (fun s => { s with role := some role })
  if role ≠ text "controller" && role ≠ text "desktop" then refuse .invalidRole
  else do
    let s ← session
    let registry ← registry
    lift ((SessionBinding.verify b.limits ⟨s.sessionId, text "resume", peer, registry.identity,
      role, none, none⟩ record).mapError .refused)
    checkGeneration peer
    authenticate peer pin role
    note (fun number _ => .bound number peer)
    send b record
    ready b peer role pin

/-- The branch of `_record` that is acknowledged. -/
def acknowledge (record : Record) (pin : Bytes) (peer role : Str) : Serve T A Unit := do
  let registry ← registry
  let now ← clock b
  call (.acknowledge peer pin role record now)
  note (fun number _ => .acknowledged number peer record registry)
  change (fun s => { s with stage := .active })
  let tick ← monotonic b
  change (fun s => { s with deadline := tick + 60 })

/-- `record["payload"]["after_sequence"] or 0`. -/
def afterSequence (record : Record) : Option ℤ :=
  match member record "payload" with
  | some (.dict payload) => match member payload "after_sequence" with
    | some (.int z) => some z
    | some .null => some 0
    | _ => none
  | _ => none

/-- The branch of `_record` that hands the record on. -/
def handle (app : Application A) (record : Record) (peer : Str) : Serve T A Unit := do
  let s ← session
  note (fun number registry => .handled number peer (b.tls.peerPin s.tls) record registry)
  let site ← peek
  let result := app.handle site.application peer record
  put { site with application := result.next, ledger := site.ledger.seen peer result.lastSeen }
  match result.error with
  | some kind => fail (.application kind)
  | none => do
    if Registry.isString (member record "type") (text "sync.request") then
      match afterSequence record with
      | some sequence => change (fun s => { s with sentSequence := sequence })
      | none => fail (.application .other)
    let tick ← monotonic b
    change (fun s => { s with deadline := tick + 300 })

def record (received : Record) : Serve T A Unit := do
  let s ← session
  match b.tls.peerPin s.tls with
  | none => refuse .identityMissing
  | some pin =>
    match s.stage, s.peer, s.role, b.application with
    | .binding, _, _, _ =>
      if s.mode = text "pair" then bindPair b received pin else bindResume b received pin
    | .ack, some peer, some role, _ => acknowledge b received pin peer role
    | .active, some peer, _, some app => handle b app received peer
    | _, _, _, _ => refuse .applicationTransportNotEnabled

def recordAll : List Record → Serve T A Unit
  | [] => pure ()
  | received :: rest => do
    record b received
    recordAll rest

def chunkAll : List Bytes → Serve T A Unit
  | [] => pure ()
  | chunk :: rest => do
    let s ← session
    change (fun s => { s with records := (s.records.feed b.limits chunk).2 })
    let received ← lift ((s.records.feed b.limits chunk).1.mapError .frame)
    recordAll b received
    chunkAll rest

/-- `while chunks := self.tls.receive()`. Each round reads a byte at least. -/
def pump : ℕ → Serve T A Unit
  | 0 => pure ()
  | rounds + 1 => do
    let chunks ← onTls b.tls.receive
    if chunks.isEmpty then pure ()
    else do
      chunkAll b chunks
      pump rounds

/-- `except …: self.closed = True; raise`. -/
def closing (kinds : List ExceptionKind) (x : Serve T A α) : Serve T A α := fun site =>
  match x site with
  | .ok a site' => .ok a site'
  | .error e site' =>
    if e.kind ∈ kinds then .error e { site' with session := { site'.session with closed := true } }
    else .error e site'

def checkDeadline : Serve T A Unit := do
  let s ← session
  let tick ← monotonic b
  if s.deadline ≤ tick then refuse .sessionTimeout else pure ()

/-- How `registry.list` shows the state of a row: `none` where it has expired. -/
def shownState (row : Peer) (now : ℚ) : Pairing (Option PeerState) :=
  if row.state = .pending || row.state = .outboundPending then do
    let expired ← isExpired row now
    return if expired then none else some row.state
  else return some row.state

/-- The part of `_poll` for a pairing that waits. -/
def pollPending (peer : Str) : Serve T A Unit := do
  checkGeneration peer
  let registry ← registry
  let row ← pairing (registry.row peer)
  let now ← clock b
  let state ← pairing (shownState row now)
  if state = none || state = some .revoked then refuse .enrollmentUnavailable
  else if state = some .confirmed then do
    let s ← session
    match s.role, b.tls.peerPin s.tls with
    | some role, some pin => ready b peer role pin
    | _, _ => fail (.application .other)
  else pure ()

/-- `int` of a response's sequence. -/
def sequenceOf (response : Record) : Option ℤ :=
  match member response "sequence" with
  | some (.int z) => some z
  | _ => none

def sendAll : List Record → Serve T A Unit
  | [] => pure ()
  | response :: rest => do
    send b response
    match sequenceOf response with
    | some sequence => change (fun s => { s with sentSequence := sequence })
    | none => fail (.application .other)
    sendAll rest

def pollActive (app : Application A) (peer : Str) : Serve T A Unit := do
  let site ← peek
  let responses ← lift (app.pending site.application peer site.session.sentSequence 1)
  sendAll b responses

/-- The frames of the ciphertext that is waiting, `count` more of them. -/
def frameAll : ℕ → Bytes → Serve T A (List Bytes)
  | 0, _ => pure []
  | count + 1, ciphertext => do
    if ciphertext.isEmpty then pure []
    else do
      let s ← session
      let data ← lift ((Frame.encode b.limits ⟨s.sessionId, s.mode, text "responder_to_initiator",
        s.index, ciphertext.take maxChunk⟩).mapError .raised)
      change (fun s => { s with index := s.index + 1 })
      let rest ← frameAll count (ciphertext.drop maxChunk)
      pure (data :: rest)

def pollBody : Serve T A (List Bytes) := do
  let tick ← monotonic b
  let s ← session
  change (fun s => { s with frames := (s.frames.checkDeadline tick).2 })
  lift ((s.frames.checkDeadline tick).1.mapError .frame)
  checkDeadline b
  let s ← session
  match s.stage, s.peer with
  | .pending, some peer => pollPending b peer
  | .pending, none => fail (.application .other)
  | _, _ => pure ()
  authority b
  let s ← session
  match s.stage, s.peer, b.application with
  | .active, some peer, some app => pollActive b app peer
  | _, _, _ => pure ()
  let ciphertext ← onTls b.tls.drain
  frameAll b ciphertext.length ciphertext

def poll : Serve T A (List Bytes) := do
  let s ← session
  if s.closed then refuse .sessionClosed
  else closing [.value] (pollBody b)

def receiveBody (raw : Bytes) : Serve T A (List Bytes) := do
  checkDeadline b
  authority b
  let tick ← monotonic b
  let s ← session
  change (fun s => { s with frames := (s.frames.accept b.limits raw tick).2 })
  let ciphertext ← lift ((s.frames.accept b.limits raw tick).1.mapError .frame)
  onTls (fun t => b.tls.feed t ciphertext)
  let s ← session
  pump b (b.tls.unread s.tls + 1)
  poll b

def receive (raw : Bytes) : Serve T A (List Bytes) := do
  let s ← session
  if s.closed then refuse .sessionClosed
  else closing [.value, .type] (receiveBody b raw)

end Serve

/-! The backend, with all the sessions it has opened. -/

structure World (T A : Type) where
  ledger : Ledger
  invitation : Option Invitation
  application : A
  readings : ℕ
  sessions : List (Session T)

inductive Act (T A : Type) where
  | opens (first : Frame) (tls : T)
  | receive (number : ℕ) (raw : Bytes)
  | poll (number : ℕ)
  | calls (op : Op)
  /-- `Invitations.create` and `Invitations.cancel`. -/
  | invites (invitation : Option Invitation)
  | works (application : A)

namespace World
variable {T A : Type} (b : Backend T A)

def drawing (generation : Str) : Op → Op
  | .propose peer pin role expires outbound now created _ =>
    .propose peer pin role expires outbound now created generation
  | op => op

def calls (w : World T A) (op : Op) : World T A :=
  match w.ledger.registry.step (drawing (b.uuid4 w.ledger.drawn) op) with
  | .error _ => { w with ledger := { w.ledger with drawn := w.ledger.drawn + 1 } }
  | .ok registry => { w with ledger := { w.ledger with
      registry, drawn := w.ledger.drawn + 1 }.note (.called (drawing (b.uuid4 w.ledger.drawn) op)) }

/-- `DeviceSession.__init__`. -/
def openSession (w : World T A) (first : Frame) (tls : T) : World T A :=
  if first.direction ≠ text "initiator_to_responder" || first.index ≠ 0 then w
  else
    { w with
      readings := w.readings + 1
      ledger := w.ledger.note (.opened w.sessions.length first.mode w.ledger.registry)
      sessions := w.sessions ++ [
        { sessionId := first.sessionId, mode := first.mode,
          frames := .init first.sessionId first.mode first.direction, records := .init, tls,
          generations := w.ledger.registry.peers.map (fun p => (p.deviceId, p.generation)),
          peer := none, role := none, stage := .binding,
          deadline := b.monotonic w.readings + 30, index := 0, sentSequence := 0,
          closed := false }] }

def serve (w : World T A) (number : ℕ) (x : Serve T A (List Bytes)) : World T A :=
  match w.sessions[number]? with
  | none => w
  | some session =>
    let site := match x ⟨w.ledger, w.invitation, w.application, w.readings, number, session⟩ with
      | .ok _ site => site
      | .error _ site => site
    ⟨site.ledger, site.invitation, site.application, site.readings,
      w.sessions.set number site.session⟩

def act (w : World T A) : Act T A → World T A
  | .opens first tls => w.openSession b first tls
  | .receive number raw => w.serve number (Serve.receive b raw)
  | .poll number => w.serve number (Serve.poll b)
  | .calls op => w.calls b op
  | .invites invitation => { w with invitation }
  | .works application => { w with application }

def init (identity : Str) (application : A) : World T A :=
  ⟨⟨.init identity, 0, []⟩, none, application, 0, []⟩

def run (identity : Str) (application : A) (acts : List (Act T A)) : World T A :=
  acts.foldl (act b) (init identity application)

end World

end Raticode.Device
