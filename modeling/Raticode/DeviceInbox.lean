import Raticode.DeviceStore

/-! `DeviceApplication.handle`: each event of a peer is recorded under its id in the
transaction that carries it out, and a refusal in a transaction of its own. -/
namespace Raticode.Device
open PyDocument

def inboxQuota : ℕ := 100000

def recentReads : ℕ := 2048

def sessionEnding : List String := ["peer_unavailable", "outbox_quota", "outbox_byte_quota"]

def unrecorded : List String :=
  ["event_id_conflict", "sequence_conflict", "inbox_quota", "invalid_application_event"]

def notAllowed : List String :=
  ["mobile_is_not_worker", "originating_request_not_authorized", "project_not_open",
    "file_not_in_open_desktop_project", "thread_hosting_disabled", "workspace_sharing_disabled"]

/-- `_MALFORMED`. -/
def malformedReasons : List String :=
  ["file_chunk_encoding", "file_chunk_offset", "file_offer_bounds", "file_integrity"]

def refusal (reason : String) : String × String :=
  if reason = "invalid_application_event" then
    ("unsupported", "This desktop can't handle that request. Update Raticode on your computer, then try again.")
  else if reason = "event_id_conflict" || reason = "sequence_conflict" then
    ("conflict", "The desktop already has a different request with this number. Send it again.")
  else if reason = "file_unavailable" then
    ("not_found", "This file is no longer available on the desktop. Ask Rem to send it again.")
  else if reason.endsWith "_conflict" then
    ("conflict", "This request conflicts with one the desktop already has. Refresh, then try again.")
  else if reason.endsWith "_unavailable" || reason = "work_not_running" then
    ("not_found", "The desktop no longer has what this request refers to. Refresh, then try again.")
  else if reason.endsWith "_quota" || reason = "file_too_large" || reason = "file_disk_full" then
    ("too_large", "The desktop has no room for this request. Free some space or let other work finish, then try again.")
  else if reason.endsWith "_required" || reason ∈ notAllowed then
    ("unauthorized", "This phone isn't allowed to do that. Check its access in Paired devices on your computer.")
  else if reason.startsWith "invalid_" || reason ∈ malformedReasons then
    ("invalid_request", "The desktop couldn't use this request. Try again.")
  else ("internal", "The desktop couldn't complete this request. Try again.")

def errorPayload (code detail : String) : Record :=
  [(.str (text "code"), .str (text code)), (.str (text "retryable"), .bool false),
    (.str (text "detail"), .str (text detail))]

inductive Received where
  | event (e : Envelope)
  | malformed (answer : Option (Option Str × Option Str))

namespace Store
open Attempt
variable {X : Type}

/-- `SELECT digest FROM device_inbox … WHERE peer=? AND id=?`, then of the reads. -/
def prior (s : Store X) (peer id : Str) : Option Receipt :=
  (s.inbox.find? (fun r => r.peer = peer && r.id = id)).or
    (s.inboxReads.find? (fun r => r.peer = peer && r.id = id))

def hasSequence (rows : List Receipt) (peer : Str) (sequence : ℤ) : Bool :=
  rows.any (fun r => r.peer = peer && r.sequence = sequence)

/-- `INSERT` into one of the two tables, under its keys. -/
def insertReceipt (rows : List Receipt) (r : Receipt) : Except Fault (List Receipt) :=
  if rows.any (fun q => q.peer = r.peer && (q.id = r.id || q.sequence = r.sequence)) then
    .error .integrity
  else .ok (rows ++ [r])

def keepRecent (rows : List Receipt) (peer : Str) : List Receipt :=
  let kept := ((rows.filter (fun r => r.peer = peer)).map Receipt.sequence).mergeSort
    (fun a b => b ≤ a) |>.take recentReads
  rows.filter (fun r => r.peer ≠ peer || kept.contains r.sequence)

/-- `_record_inbound`, at a reading of the clock. -/
def recordInbound (peer : Str) (event : Envelope) (digest : Str) (now : ℚ) : Tx X Unit := do
  let s ← peek
  let receipt : Receipt := ⟨peer, event.id, digest, event.sequence⟩
  if event.kind.isReadOnly then do
    let rows ← lift (insertReceipt s.inboxReads receipt)
    put { s with
      inboxReads := keepRecent rows peer
      registry := s.registry.update peer (fun p => { p with lastSeen := some now }) }
  else do
    let rows ← lift (insertReceipt s.inbox receipt)
    put { s with
      inbox := rows
      registry := s.registry.update peer (fun p => { p with lastSeen := some now }) }

/-- The checks of `_handle` before it records an event. The result says that the event
was handled before. -/
def isKnown (peer : Str) (event : Envelope) (digest : Str) : Tx X Bool := do
  let s ← peek
  match s.prior peer event.id with
  | some receipt => if receipt.digest ≠ digest then raise "event_id_conflict" else pure true
  | none =>
    if !event.kind.isReadOnly && inboxQuota ≤ (s.inbox.filter (fun r => r.peer = peer)).length then
      raise "inbox_quota"
    else if hasSequence s.inbox peer event.sequence || hasSequence s.inboxReads peer event.sequence
    then raise "sequence_conflict"
    else pure false

/-- `_handle`, with what is done for the event's kind. -/
def handleBody (body : Str → Envelope → Tx X (List Envelope)) (peer : Str) (event : Envelope)
    (digest : Str) (now : ℚ) : Tx X (List Envelope) := do
  trusted peer
  let known ← isKnown peer event digest
  if known then pending peer 0 100
  else do
    recordInbound peer event digest now
    body peer event

/-- `except ValidationError: raise PairingError(reason)`. -/
def addressed (reason : String) (x : Tx X (List Envelope)) : Tx X (List Envelope) := fun s =>
  match x s with
  | .error .validation s' => .error (.pairing reason) s'
  | result => result

def answerError (d : Desktop X) (peer : Str) (thread request : Option Str) (reason : String) :
    Tx X (List Envelope) :=
  addressed reason (do
    let event ← emit d peer thread request .error
      (errorPayload (refusal reason).1 (refusal reason).2)
    pure [event])

/-- `_refuse` of an event that has a digest. -/
def refuseBody (d : Desktop X) (peer : Str) (event : Envelope) (digest : Str) (reason : String)
    (now : ℚ) : Tx X (List Envelope) := do
  trusted peer
  if reason ∈ unrecorded then answerError d peer event.threadId event.requestId reason
  else do
    let s ← peek
    match s.prior peer event.id with
    | some _ => pending peer 0 100
    | none => do
      recordInbound peer event digest now
      answerError d peer event.threadId event.requestId reason

/-- `_refuse` of a record that is no event. -/
def refuseMalformed (d : Desktop X) (peer : Str) (answer : Option (Option Str × Option Str)) :
    Tx X (List Envelope) := do
  trusted peer
  match answer with
  | none => raise "invalid_application_event"
  | some (thread, request) => answerError d peer thread request "invalid_application_event"

def handle (d : Desktop X) (body : Str → Envelope → Tx X (List Envelope)) (s : Store X) (peer : Str)
    (received : Received) (now : ℚ) : Except Fault (List Envelope) × Store X :=
  match received with
  | .malformed answer => s.transaction (refuseMalformed d peer answer)
  | .event event =>
    match s.transaction (handleBody body peer event (d.digest event) now) with
    | (.error (.pairing code), s') =>
      if code ∈ sessionEnding then (.error (.pairing code), s')
      else s'.transaction (refuseBody d peer event (d.digest event) code now)
    | (.error .keyError, s') =>
      s'.transaction (refuseBody d peer event (d.digest event) "KeyError" now)
    | (.error .typeError, s') =>
      s'.transaction (refuseBody d peer event (d.digest event) "TypeError" now)
    | result => result

end Store

end Raticode.Device
