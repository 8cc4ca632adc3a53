import Raticode.Attempt
import Raticode.DeviceRegistry

/-! The durable tables of `gofer.devices.application`: what a desktop accepts from its
peers, the work it does for them, and the events that wait for them. Each operation is a
transaction, so one that raises leaves the tables as they were. -/
namespace Raticode.Device
open PyDocument

inductive Kind where
  | chatSubmit | chatAccepted | chatMessage | requestCancel | requestStatus | threadSnapshot
  | swarmSnapshot | approvalRequired | approvalResolve | fileOffer | fileRequest | error
  | catalogRequest | catalogSnapshot | threadCreate | threadContextUpdate | syncRequest
  | syncSnapshot | fleetRequest | fleetSnapshot | jobSubmit | jobStatus | jobCancel | jobGet
  | fileChunk | fileStatus | fileCancel | threadHistoryRequest | threadHistorySnapshot
  | threadSearchRequest | threadSearchSnapshot | threadManage | swarmRequest | swarmControl
  | swarmMessage | approvalRequest | approvalSnapshot | desktopRead | desktopAction
  | desktopResult
  deriving DecidableEq, Repr

/-- `READ_ONLY_KINDS`. -/
def Kind.isReadOnly : Kind → Bool
  | syncRequest | catalogRequest | threadHistoryRequest | threadSearchRequest | fleetRequest
  | swarmRequest | approvalRequest | desktopRead => true
  | _ => false

structure Envelope where
  id : Str
  threadId : Option Str
  requestId : Option Str
  sequence : ℤ
  kind : Kind
  payload : Record

/-- What an operation raises: a `PairingError` by its code, the `ValidationError` of an
event that does not have the form of the protocol, and the errors of the interpreter, of
the database and of the operating system. -/
inductive Fault where
  | pairing (code : String)
  | validation | keyError | typeError | integrity | os
  deriving DecidableEq, Repr

/-- A row of `device_grants`. -/
structure Grant where
  peer : Str
  thread : Str
  context : Record

/-- A row of `device_inbox` or of `device_inbox_reads`. -/
structure Receipt where
  peer : Str
  id : Str
  digest : Str
  sequence : ℤ
  deriving DecidableEq

inductive WorkState where
  | accepted | running | completed | failed | cancelled | outcomeUnknown
  deriving DecidableEq, Repr

def WorkState.text : WorkState → Str
  | accepted => PyDocument.text "accepted"
  | running => PyDocument.text "running"
  | completed => PyDocument.text "completed"
  | failed => PyDocument.text "failed"
  | cancelled => PyDocument.text "cancelled"
  | outcomeUnknown => PyDocument.text "outcome_unknown"

/-- A row of `device_work`, in the order of the row ids. -/
structure Work where
  peer : Str
  request : Str
  thread : Str
  event : Envelope
  state : WorkState
  turn : Str

/-- A row of `device_job_ids`. -/
structure JobId where
  peer : Str
  id : Str
  request : Str
  digest : Str

/-- A row of `device_thread_requests`. -/
structure ThreadRequest where
  peer : Str
  request : Str
  digest : Str
  thread : Str

/-- A row of `device_outbox`, with the length of the event as it is stored. -/
structure Posted where
  peer : Str
  sequence : ℤ
  event : Envelope
  size : ℕ

/-- The tables. Those that only other subsystems read are `rest`. The identifiers that
have been drawn and the actions that were performed on the desktop are no tables: they
stay when a transaction is rolled back. -/
structure Store (X : Type) where
  registry : Registry
  grants : List Grant
  inbox : List Receipt
  inboxReads : List Receipt
  work : List Work
  jobIds : List JobId
  threadRequests : List ThreadRequest
  outbox : List Posted
  /-- `device_sequences`. -/
  sequences : List (Str × ℤ)
  rest : X
  drawn : ℕ
  performed : List (Str × Envelope)

abbrev Tx (X : Type) := EStateM Fault (Store X)

def outboxEvents : ℕ := 10000

def outboxBytes : ℕ := 64 * 1024 * 1024

structure Desktop (X : Type) where
  /-- `_VALIDATOR.is_valid`, of an event that is to be sent. -/
  valid : Envelope → Bool
  /-- `len(self._encode(peer, event))`. -/
  size : Envelope → ℕ
  digest : Envelope → Str
  jobDigest : Str → Record → Str
  uuid4 : ℕ → Str
  uuid5 : Str → Str
  /-- How many rows a peer has in `device_remote_requests`. -/
  remoteRequests : X → Str → ℕ

namespace Store
open Attempt
variable {X α : Type}

def raise (code : String) : Tx X α := fail (.pairing code)

def draw (d : Desktop X) : Tx X Str := do
  let s ← peek
  put { s with drawn := s.drawn + 1 }
  pure (d.uuid4 s.drawn)

def fromPairing (x : Pairing α) : Tx X α :=
  lift (x.mapError (fun e => .pairing e.code))

/-- `self.registry._row(peer)`. -/
def peerRow (peer : Str) : Tx X Peer := do
  let s ← peek
  fromPairing (s.registry.row peer)

def trusted (peer : Str) : Tx X Unit := do
  let row ← peerRow peer
  if row.state ≠ .active then raise "peer_unavailable" else pure ()

def ofPeer (s : Store X) (peer : Str) : List Posted := s.outbox.filter (fun p => p.peer = peer)

/-- `COALESCE(SUM(LENGTH(event)),0)`. -/
def usedBytes (s : Store X) (peer : Str) : ℕ := ((s.ofPeer peer).map Posted.size).sum

def lastSequence (d : Desktop X) (s : Store X) (peer : Str) : ℤ :=
  ((s.ofPeer peer).map Posted.sequence ++
    (s.sequences.filter (fun p => p.1 = peer)).map Prod.snd ++
    [(d.remoteRequests s.rest peer : ℤ)]).foldl max 0

def nextOutboundSequence (d : Desktop X) (peer : Str) : Tx X ℤ := do
  let s ← peek
  let sequence := s.lastSequence d peer + 1
  put { s with sequences := (peer, sequence) :: s.sequences.filter (fun p => p.1 ≠ peer) }
  pure sequence

/-- `_emit`. The thread and the request are those of the event that is answered. -/
def emit (d : Desktop X) (peer : Str) (thread request : Option Str) (kind : Kind) (payload : Record) :
    Tx X Envelope := do
  let s ← peek
  if outboxEvents ≤ (s.ofPeer peer).length then raise "outbox_quota"
  else do
    let used := s.usedBytes peer
    let id ← draw d
    let sequence ← nextOutboundSequence d peer
    let event : Envelope := ⟨id, thread, request, sequence, kind, payload⟩
    if !d.valid event then fail .validation
    else if outboxBytes < used + d.size event then raise "outbox_byte_quota"
    else do
      let s ← peek
      put { s with outbox := s.outbox ++ [⟨peer, sequence, event, d.size event⟩] }
      pure event

def statusPayload (status detail : String) : Record :=
  [(.str (text "status"), .str (text status)), (.str (text "detail"), .str (text detail))]

def status (d : Desktop X) (peer : Str) (thread request : Option Str) (status detail : String) :
    Tx X Envelope :=
  emit d peer thread request .requestStatus (statusPayload status detail)

/-- `SELECT … WHERE peer=? AND sequence>? ORDER BY sequence LIMIT ?`. -/
def pendingRows (s : Store X) (peer : Str) (after : ℤ) (limit : ℕ) : List Envelope :=
  ((((s.ofPeer peer).filter (fun p => after < p.sequence)).mergeSort
    (fun p q => p.sequence ≤ q.sequence)).take (min limit 100)).map Posted.event

def pending (peer : Str) (after : ℤ) (limit : ℕ) : Tx X (List Envelope) := do
  trusted peer
  let s ← peek
  pure (s.pendingRows peer after limit)

/-- `with self.registry.transaction()`: the tables after a call, and what it returned. -/
def transaction (s : Store X) (x : Tx X α) : Except Fault α × Store X :=
  match x s with
  | .ok a s' => (.ok a, s')
  | .error e s' => (.error e, { s with drawn := s'.drawn, performed := s'.performed })

def grantOf (s : Store X) (peer thread : Str) : Option Grant :=
  s.grants.find? (fun g => g.peer = peer && g.thread = thread)

def workOf (s : Store X) (peer request : Str) : Option Work :=
  s.work.find? (fun w => w.peer = peer && w.request = request)

/-- `UPDATE device_work SET state=? WHERE …`. -/
def setWork (s : Store X) (which : Work → Bool) (state : WorkState) : Store X :=
  { s with work := s.work.map (fun w => if which w then { w with state } else w) }

def empty (identity : Str) (rest : X) : Store X :=
  { registry := .init identity, grants := [], inbox := [], inboxReads := [], work := [],
    jobIds := [], threadRequests := [], outbox := [], sequences := [], rest, drawn := 0,
    performed := [] }

end Store

end Raticode.Device
