import Raticode.DeviceInbox

/-! The work that a desktop does for its peers: requests that are submitted, cancelled,
claimed for dispatch and completed. -/
namespace Raticode.Device
open PyDocument

/-- `bool(value)`. -/
def isTruthy : Value → Bool
  | .null => false
  | .bool b => b
  | .int z => z ≠ 0
  | .float (.finite _ magnitude) => magnitude ≠ 0
  | .float _ => true
  | .str s => !s.isEmpty
  | .list items => !items.isEmpty
  | .dict members => !members.isEmpty
  | .other => true

/-- `record.get(name)`. -/
def getValue (record : Record) (name : String) : Value := (member record name).getD .null

/-- `value in container`, of a dictionary or a list. -/
def isIn (value container : Value) : Bool :=
  match container with
  | .dict members => members.any (fun p => eqValue value (keyItem p.1))
  | .list items => items.any (eqValue value ·)
  | _ => false

def attachmentIds (payload : Record) : List Value :=
  match member payload "attachment_ids" with
  | some (.list items) => items
  | _ => []

/-- `payload.setdefault("text", payload.get("intent", ""))`. -/
def withText (payload : Record) : Record :=
  match member payload "text" with
  | some _ => payload
  | none => payload ++ [(.str (text "text"), (member payload "intent").getD (.str []))]

structure ChildThread (X : Type) where
  rest : X
  thread : Str
  context : Record
  payload : Record

structure Workbench (X : Type) extends Desktop X where
  /-- `delete_requested` of a shared thread. -/
  deleteRequested : X → Str → Str → Bool
  /-- `files.metadata`, as far as it goes into a message. -/
  metadata : X → Str → Str → Value → Except Fault Record
  nameFromMessage : X → Str → Str → Value → Except Fault X
  saveAttachments : X → Str → Str → List Record → Except Fault X
  attachment : X → Str → Str → Value → Except Fault Value
  history : Store X → Str → Str → Str → List Value
  transcript : Store X → Work → Str → X × Bool
  shareReply : Store X → Work → Except Fault (X × Option (Record × Record))
  childThread : Store X → Str → Record → Record → Except Fault (ChildThread X)
  sha256 : Record → Str
  deny : X → Str → Str → X
  /-- The deletions of `remove_peer` in the other tables. -/
  forget : X → Str → X

structure Claimed where
  peer : Str
  event : Envelope
  turn : Str
  context : Record
  messages : List Value
  attachments : List Value

namespace Store
open Attempt
variable {X : Type} (b : Workbench X)

/-- `if condition: …`. -/
def doIf (condition : Bool) (x : Tx X Unit) : Tx X Unit := if condition then x else pure ()

/-- `payload[name]`. -/
def needValue (record : Record) (name : String) : Tx X Value :=
  match member record name with
  | some value => pure value
  | none => fail .keyError

def jobPayload (job : Value) (state : Str) (revision : ℤ) (detail : String) (usage : Option Value) :
    Record :=
  [(.str (text "job_id"), job), (.str (text "state"), .str state),
    (.str (text "revision"), .int revision), (.str (text "detail"), .str (text detail))] ++
    (usage.map (fun u => (.str (text "usage"), u))).toList

def emitJob (peer : Str) (event : Envelope) (job : Value) (state : Str) (revision : ℤ)
    (detail : String) (usage : Option Value) : Tx X Envelope :=
  emit b.toDesktop peer event.threadId event.requestId .jobStatus
    (jobPayload job state revision detail usage)

def isOpen (w : Work) : Bool := w.state = .accepted || w.state = .running

def isRequest (peer request : Str) (w : Work) : Bool := w.peer = peer && w.request = request

/-- The branch of `_handle` for `job.get` and `job.cancel`. -/
def getJob (peer thread : Str) (event : Envelope) : Tx X (List Envelope) := do
  let job ← needValue event.payload "job_id"
  let s ← peek
  let row ← peerRow peer
  let found := (s.jobIds.find? (fun j => j.peer = peer && eqValue job (.str j.id))).bind
    (fun j => s.work.find? (fun w => isRequest peer j.request w && w.thread = thread))
  match found with
  | none => raise "job_unavailable"
  | some w =>
    if row.role ≠ text "desktop" then raise "job_unavailable"
    else if event.kind = .jobCancel && isOpen w then do
      put (s.setWork (isRequest peer w.request) .cancelled)
      let answer ← emitJob b peer event job (text "cancel_requested") 1 "Target desktop job state" none
      pure [answer]
    else do
      let answer ← emitJob b peer event job w.state.text 1 "Target desktop job state" none
      pure [answer]

/-- The branch of `_handle` for `request.cancel`. -/
def cancelRequest (peer thread request : Str) (event : Envelope) : Tx X (List Envelope) := do
  let s ← peek
  match s.work.find? (fun w => isRequest peer request w && w.thread = thread) with
  | none => raise "request_unavailable"
  | some w =>
    if isOpen w then do
      put (s.setWork (isRequest peer request) .cancelled)
      let answer ← status b.toDesktop peer event.threadId event.requestId "cancel_requested"
        "Cancellation requested on desktop"
      pure [answer]
    else pending peer 0 100

def contextOf (s : Store X) (peer thread : Str) : Record :=
  ((s.grantOf peer thread).map Grant.context).getD []

def jobAllowed (s : Store X) (row : Peer) (context payload : Record) : Bool :=
  row.role = text "desktop" &&
    eqValue (getValue payload "target_device_id") (.str s.registry.identity) &&
    eqValue (getValue payload "project_id") (getValue context "project_id") &&
    eqValue (getValue payload "expected_policy_revision")
      ((member context "policy_revision").getD (.int 1)) &&
    !isTruthy (getValue payload "resource_ids")

/-- The part of `_handle` for `job.submit` before what it shares with `chat.submit`. It
answers where the job is not to be dispatched. -/
def submitJob (peer thread request : Str) (event : Envelope) : Tx X (Option (List Envelope)) := do
  let s ← peek
  let row ← peerRow peer
  let job ← needValue event.payload "job_id"
  if !jobAllowed s row (s.contextOf peer thread) event.payload then do
    let answer ← emitJob b peer event job (text "rejected") 1 "Target desktop project grant required"
      none
    pure (some [answer])
  else
    let digest := b.jobDigest thread event.payload
    match s.jobIds.find? (fun j => j.peer = peer && eqValue job (.str j.id)) with
    | some known =>
      if known.digest ≠ digest then raise "job_id_conflict"
      else do
        let state := ((s.workOf peer known.request).map (fun w => w.state.text)).getD
          (text "outcome_unknown")
        let answer ← emitJob b peer event job state 1 "Existing job; not dispatched twice" none
        pure (some [answer])
    | none =>
      match job with
      | .str id => do
        put { s with jobIds := s.jobIds ++ [⟨peer, id, request, digest⟩] }
        pure none
      | _ => fail .integrity

def isAvailable (s : Store X) (peer thread : Str) : Bool :=
  match s.grantOf peer thread with
  | none => false
  | some grant =>
    !b.deleteRequested s.rest peer thread &&
      !(isTruthy (getValue grant.context "desktop_thread_id") &&
        (!isTruthy (getValue grant.context "project_path") ||
          !isIn (getValue grant.context "provider") (getValue grant.context "provider_permissions")))

def openCount (s : Store X) (peer : Str) : ℕ :=
  (s.work.filter (fun w => w.peer = peer && isOpen w)).length

/-- `INSERT INTO device_work`. -/
def insertWork (w : Work) : Tx X Unit := do
  let s ← peek
  if s.work.any (isRequest w.peer w.request) then fail .integrity
  else put { s with work := s.work ++ [w] }

def unauthorizedDetail : String :=
  "This thread has no available desktop project or provider. " ++
    "Refresh, then choose a scope and provider in Thread settings."

def nameThread (peer thread : Str) (event : Envelope) : Tx X Unit :=
  doIf (event.kind = .chatSubmit) (do
    let s ← peek
    let rest ← lift (b.nameFromMessage s.rest peer thread
      ((member event.payload "text").getD (.str [])))
    put { s with rest })

def keepAttachments (peer request : Str) (attachments : List Record) : Tx X Unit :=
  doIf (!attachments.isEmpty) (do
    let s ← peek
    let rest ← lift (b.saveAttachments s.rest peer request attachments)
    put { s with rest })

def answerAccepted (peer request : Str) (event : Envelope) : Tx X (List Envelope) :=
  if event.kind = .jobSubmit then do
    let job ← needValue event.payload "job_id"
    let answer ← emitJob b peer event job (text "accepted") 1 "Accepted by target desktop" none
    pure [answer]
  else do
    let answer ← emit b.toDesktop peer event.threadId event.requestId .chatAccepted
      [(.str (text "message_id"), .str request)]
    pure [answer]

/-- What `chat.submit` and `job.submit` share. -/
def submit (peer thread request : Str) (event : Envelope) : Tx X (List Envelope) := do
  let s ← peek
  if !s.isAvailable b peer thread then do
    let answer ← emit b.toDesktop peer event.threadId event.requestId .error
      (errorPayload "unauthorized" unauthorizedDetail)
    pure [answer]
  else
    match s.workOf peer request with
    | some old =>
      if old.event.threadId ≠ event.threadId ||
          !eqValue (.dict old.event.payload) (.dict event.payload) then
        raise "request_id_conflict"
      else pending peer 0 100
    | none => do
      let attachments ← lift
        ((attachmentIds event.payload).mapM (b.metadata s.rest peer thread))
      if 100 ≤ s.openCount peer then raise "work_quota"
      else do
        let turn ← draw b.toDesktop
        insertWork ⟨peer, request, thread, event, .accepted, turn⟩
        nameThread b peer thread event
        keepAttachments b peer request attachments
        answerAccepted b peer request event

/-- The branches of `_handle` that concern work. The schema requires a thread and a request
of these events. -/
def workBody (other : Str → Envelope → Tx X (List Envelope)) (peer : Str) (event : Envelope) :
    Tx X (List Envelope) :=
  match event.kind, event.threadId, event.requestId with
  | .jobGet, some thread, some _ | .jobCancel, some thread, some _ => getJob b peer thread event
  | .requestCancel, some thread, some request => cancelRequest b peer thread request event
  | .chatSubmit, some thread, some request => submit b peer thread request event
  | .jobSubmit, some thread, some request => do
    match ← submitJob b peer thread request event with
    | some answers => pure answers
    | none => submit b peer thread request event
  | _, _, _ => other peer event

/-! Dispatch. -/

def isActive (s : Store X) (peer : Str) : Bool :=
  s.registry.peers.any (fun p => p.deviceId = peer && p.state = .active)

/-- `EXISTS (SELECT 1 FROM device_work busy …)`. -/
def isBusy (s : Store X) (thread : Str) : Bool :=
  s.work.any (fun w => w.thread = thread && w.state = .running)

/-- The rows that the query of `claim` selects from, with their grants. -/
def isEligible (s : Store X) (w : Work) : Bool :=
  w.state = .accepted && s.isActive w.peer && (s.grantOf w.peer w.thread).isSome &&
    !s.isBusy w.thread

def selected (s : Store X) : Option Work := s.work.find? s.isEligible

def hasLocalTurn (context : Record) (jobs : Option (List Str)) : Bool :=
  match member context "desktop_thread_id", jobs with
  | some (.str native), some jobs => !native.isEmpty && jobs.contains native
  | _, _ => false

/-- `claim`, with the conversations that have a turn of their own, where the backend has
said how to ask for them. -/
def claim (jobs : Option (List Str)) : Tx X (Option Claimed) := do
  let s ← peek
  match s.selected with
  | none => pure none
  | some row =>
    let context := s.contextOf row.peer row.thread
    if hasLocalTurn context jobs then pure none
    else do
      put (s.setWork (isRequest row.peer row.request) .running)
      match (attachmentIds row.event.payload).mapM (b.attachment s.rest row.peer row.thread) with
      | .error (.pairing _) => do
        let s ← peek
        put (s.setWork (isRequest row.peer row.request) .failed)
        let _ ← status b.toDesktop row.peer row.event.threadId row.event.requestId "failed"
          "Attachment expired or unavailable"
        pure none
      | .error e => fail e
      | .ok attachments => do
        let event := { row.event with payload := withText row.event.payload }
        let _ ← status b.toDesktop row.peer event.threadId event.requestId "running"
          "Rem dispatch started"
        let s ← peek
        pure (some ⟨row.peer, event, row.turn, context,
          b.history s row.peer row.thread row.request, attachments⟩)

/-- `runnable`. -/
def isRunnable (s : Store X) (peer request : Str) : Bool :=
  s.work.any (fun w => isRequest peer request w && w.state = .running && s.isActive w.peer &&
    (s.grantOf w.peer w.thread).isSome)

def replyParts (reply : Str) : List (ℕ × Str × Bool) :=
  (List.range ((max 1 reply.length + 3999) / 4000)).map (fun i =>
    (4000 * i, (reply.drop (4000 * i)).take 4000, decide (reply.length ≤ 4000 * i + 4000)))

def messagePayload (request : Str) (part : ℕ × Str × Bool) : Record :=
  [(.str (text "message_id"), .str (b.uuid5 (text "raticode-message:reply-" ++ request ++
      text ":" ++ (toString part.1).toList.map Char.toNat))),
    (.str (text "text"), .str part.2.1), (.str (text "attachment_ids"), .list []),
    (.str (text "final"), .bool part.2.2)]

def emitParts (peer request : Str) (event : Envelope) : List (ℕ × Str × Bool) → Tx X Unit
  | [] => pure ()
  | part :: parts => do
    let _ ← emit b.toDesktop peer event.threadId event.requestId .chatMessage
      (messagePayload b request part)
    emitParts peer request event parts

def sendSnapshot (row : Work) : Option (Record × Record) → Tx X Unit
  | none => pure ()
  | some (context, snapshot) => do
    let s ← peek
    put { s with grants := s.grants.map (fun g =>
      if g.peer = row.peer && g.thread = row.thread then { g with context } else g) }
    let _ ← emit b.toDesktop row.peer row.event.threadId row.event.requestId .threadSnapshot snapshot
    pure ()

/-- The part of `complete` that shares a reply and sends it. -/
def sendReply (row : Work) (reply : Str) : Tx X Unit := do
  let s ← peek
  let shared ← lift (b.shareReply s row)
  put { s with rest := shared.1 }
  sendSnapshot b row shared.2
  emitParts b row.peer row.request row.event (replyParts reply)

def ending : Option String → WorkState × String
  | none => (.completed, "Rem completed")
  | some "provider_stopped" => (.cancelled, "Rem was stopped. You can send another message.")
  | some _ =>
    (.failed, "Rem could not finish. Check the provider and thread settings on desktop.")

def isManaged (row : Work) : Bool := isTruthy (getValue row.event.payload "organization")

/-- The state of a job, as `complete` reports it. -/
def reportJob (row : Work) (state : WorkState) (detail : String) (usage : Option Value) :
    Tx X Unit := do
  let job ← needValue row.event.payload "job_id"
  let _ ← emitJob b row.peer row.event job state.text 2 detail usage
  pure ()

/-- The part of `complete` for a request that was cancelled while it ran. -/
def finishCancelled (row : Work) (usage : Option Value) : Tx X Unit := do
  doIf (row.event.kind = .jobSubmit && isManaged row)
    (reportJob b row .cancelled "Managed job stopped after cancellation" usage)
  let _ ← status b.toDesktop row.peer row.event.threadId row.event.requestId "cancelled"
    "Rem stopped after cancellation"
  pure ()

def keepTranscript (row : Work) (reply : Str) : Option String → Tx X (Option String)
  | some error => pure (some error)
  | none => do
    let s ← peek
    put { s with rest := (b.transcript s row reply).1 }
    pure (if (b.transcript s row reply).2 then none else some "transcript_quota")

/-- The part of `complete` after the reply, for a request that ran. -/
def reportEnding (row : Work) (error : Option String) (usage : Option Value) : Tx X Unit := do
  doIf (row.event.kind = .jobSubmit)
    (reportJob b row (ending error).1 "Target Rem finished" (if isManaged row then usage else none))
  let _ ← emit b.toDesktop row.peer row.event.threadId row.event.requestId .requestStatus
    [(.str (text "status"), .str (ending error).1.text),
      (.str (text "detail"), .str (text (ending error).2))]
  pure ()

/-- The part of `complete` for a request that runs. -/
def finishRunning (row : Work) (reply : Str) (error : Option String) (usage : Option Value) :
    Tx X Unit := do
  let error ← keepTranscript b row reply error
  doIf error.isNone (sendReply b row reply)
  reportEnding b row error usage
  let s ← peek
  put (s.setWork (isRequest row.peer row.request) (ending error).1)

def complete (peer request reply : Str) (error : Option String) (usage : Option Value) :
    Tx X Unit := do
  trusted peer
  let s ← peek
  match s.workOf peer request with
  | none => raise "work_not_running"
  | some row =>
    if row.state = .cancelled then finishCancelled b row usage
    else if row.state ≠ .running then raise "work_not_running"
    else finishRunning b row reply error usage

def spawnThread (peer origin : Str) (action : Record) : Tx X Unit := do
  trusted peer
  let s ← peek
  if !s.isRunnable peer origin then raise "originating_request_not_authorized"
  else
    match s.workOf peer origin with
    | none => fail .typeError
    | some row =>
      let context := s.contextOf peer row.thread
      if !isTruthy (getValue context "desktop_parity") ||
          !isTruthy (getValue context "desktop_thread_id") then
        raise "workspace_sharing_required"
      else
        let request := b.uuid5 (text "raticode-child:" ++ origin)
        if s.threadRequests.any (fun r => r.peer = peer && r.request = request) then pure ()
        else do
          let child ← lift (b.childThread s peer context action)
          if 100 ≤ s.openCount peer then raise "work_quota"
          else if 10000 ≤ (s.grants.filter (fun g => g.peer = peer)).length then raise "thread_quota"
          else if (s.grantOf peer child.thread).isSome then fail .integrity
          else do
            put { s with
              rest := child.rest
              grants := s.grants ++ [⟨peer, child.thread, child.context⟩]
              threadRequests := s.threadRequests ++
                [⟨peer, request, b.sha256 child.payload, child.thread⟩] }
            let id ← draw b.toDesktop
            let turn ← draw b.toDesktop
            insertWork ⟨peer, request, child.thread,
              ⟨id, some child.thread, some request, 0, .chatSubmit, child.payload⟩, .accepted, turn⟩

/-! Local decisions. -/

def threadTree (s : Store X) (peer thread : Str) : List Str :=
  thread :: (s.grants.filter (fun g => g.peer = peer &&
    eqValue (getValue g.context "parent_thread") (.str thread))).map Grant.thread

def revokeThreadTree (peer thread : Str) : Tx X Unit := do
  let s ← peek
  let tree := s.threadTree peer thread
  let cancelled := s.setWork (fun w => w.peer = peer && tree.contains w.thread && isOpen w) .cancelled
  put { cancelled with grants := s.grants.filter (fun g => !(g.peer = peer && tree.contains g.thread)) }

def isStr : Option Value → Bool
  | some (.str _) => true
  | _ => false

def authorize (peer thread : Str) (context : Record) : Tx X Unit := do
  fromPairing (deviceId thread)
  if !isStr (member context "provider") || !isStr (member context "model") then
    raise "invalid_thread_context"
  else do
    trusted peer
    revokeThreadTree peer thread
    let s ← peek
    put { s with grants := s.grants.filter (fun g => !(g.peer = peer && g.thread = thread)) ++
      [⟨peer, thread, context⟩] }

def revokeGrant (peer thread : Str) : Tx X Unit := do
  let s ← peek
  put { s with rest := b.deny s.rest peer thread }
  revokeThreadTree peer thread

/-- `remove_peer`. Requests and the records of finished work stay. -/
def removePeer (peer : Str) (revokedOnly : Bool) : Tx X Unit := do
  let s ← peek
  let registry ← fromPairing (s.registry.removePeer peer revokedOnly)
  let s := s.setWork (fun w => w.peer = peer && isOpen w) .cancelled
  put { s with
    registry
    grants := s.grants.filter (fun g => g.peer ≠ peer)
    inbox := s.inbox.filter (fun r => r.peer ≠ peer)
    inboxReads := s.inboxReads.filter (fun r => r.peer ≠ peer)
    outbox := s.outbox.filter (fun p => p.peer ≠ peer)
    sequences := s.sequences.filter (fun p => p.1 ≠ peer)
    rest := b.forget s.rest peer }

def recoverAll : List Work → Tx X Unit
  | [] => pure ()
  | w :: rest => do
    let _ ← status b.toDesktop w.peer w.event.threadId w.event.requestId "outcome_unknown"
      "Desktop stopped during dispatch; review locally before retrying"
    recoverAll rest

/-- What `__init__` does about work that ran when the backend stopped. -/
def recover : Tx X Unit := do
  let s ← peek
  recoverAll b (s.work.filter (fun w => w.state = .running))
  let s ← peek
  put (s.setWork (fun w => w.state = .running) .outcomeUnknown)

end Store

end Raticode.Device
