import Mathlib.Data.List.Lex
import Raticode.DeviceRemote
import Raticode.OrderedDict
import Raticode.Scan

/-! `gofer.devices.workspace`: the conversations that a desktop shares with its phones, and
what it answers to a phone that reads, searches, organizes or configures them. -/
namespace Raticode.Device
open PyDocument Attempt OrderedDict

/-- `HIDDEN_KINDS`: what the desktop keeps for its providers and shows nobody. -/
def hiddenKinds : List Str := [text "memory", text "continuation-context"]

/-- The quota of `put`. -/
def historyBytes : ℕ := 64 * 1024 * 1024

def retainAcknowledged : ℕ := 400

/-- `record.get(name, default)`. -/
def getOr (record : Record) (name : String) (default : Value) : Value :=
  (member record name).getD default

def isName (name : Str) : Key → Bool
  | .str s => s = name
  | _ => false

/-- `record[name] = value`. -/
def setName (record : Record) (name : Str) (value : Value) : Record :=
  if record.any (fun p => isName name p.1) then
    record.map (fun p => if isName name p.1 then (p.1, value) else p)
  else record ++ [(.str name, value)]

def setMember (record : Record) (name : String) (value : Value) : Record :=
  setName record (text name) value

/-- `{**record, **other}`. -/
def update (record other : Record) : Record :=
  other.foldl (fun r p => match p.1 with
    | .str name => setName r name p.2
    | _ => r) record

/-- `value is True`. -/
def isTrue : Value → Bool
  | .bool b => b
  | _ => false

def strings : Value → List Str
  | .list items => items.filterMap (fun
    | .str s => some s
    | _ => none)
  | _ => []

def decimal (n : ℕ) : Str := text (toString n)

def find (needle w : Str) : Option ℕ :=
  (List.range (w.length + 1)).find? (fun i => needle.isPrefixOf (w.drop i))

structure Message where
  id : Str
  role : Str
  body : Str
  more : Record

namespace Message

def isHidden (m : Message) : Bool :=
  match member m.more "kind" with
  | some (.str kind) => hiddenKinds.contains kind
  | _ => false

/-- `{**message, name: value}`. -/
def put (m : Message) (name : String) (value : Value) : Message :=
  { m with more := setMember m.more name value }

end Message

structure SharedThread where
  metadata : Record
  messages : List Message
  revision : Value
  removedIds : List Str
  organization : Option Record
  deleteRequested : Bool
  contextModified : Bool
  resourcesModified : Bool
  more : Record

/-- A row of `device_workspace_threads`. -/
structure SharedRow where
  peer : Str
  thread : Str
  value : SharedThread

/-- A row of `device_transcript`. -/
structure Transcript where
  peer : Str
  request : Str
  text : Str

/-- A row of `device_message_attachments`. -/
structure Attached where
  peer : Str
  request : Str
  items : List Value

/-- The tables of the shared conversations; `others` are those of the other subsystems. -/
structure Workspace (Y : Type) where
  threads : List SharedRow
  /-- `device_workspace_versions`. -/
  versions : List ((Str × Str) × ℕ)
  /-- `device_workspace_peers`. -/
  enabled : List Str
  transcripts : List Transcript
  attachments : List Attached
  others : Y

/-- What the desktop says of the turns of its own conversations: `local_chat_jobs`. -/
structure Journal where
  /-- `project_device_turn`, of the events of a turn in a conversation: the turn, its request
  and its state. -/
  projected : Value → Str → Str → WorkState → List Message
  /-- The conversations of `active_snapshot`. -/
  active : List Str

structure Moment where
  now : ℚ
  journal : Option Journal
  /-- `configure_context`, with the providers there are. A `ValueError` or an `OSError` is its
  message. -/
  configure : Record → Record → Except Str Record
  /-- The `connection` of a snapshot, for a phone that knows of Tailscale or does not. -/
  connection : Bool → Record

structure Desk (Y : Type) where
  valid : Envelope → Bool
  size : Envelope → ℕ
  digest : Envelope → Str
  jobDigest : Str → Record → Str
  uuid4 : ℕ → Str
  uuid5 : Str → Str
  remoteRequests : Y → Str → ℕ
  /-- `len(json.dumps(value).encode())`. -/
  encodedSize : Value → ℕ
  /-- `len(self.app._encode(peer, value))`. -/
  valueSize : Str → SharedThread → ℕ
  str : Value → Str
  /-- `unicodedata.normalize("NFKC", text).lower()`. -/
  normalize : Str → Str
  /-- `isoformat()` of a time. -/
  stamp : ℚ → Str
  /-- `files.metadata`, where it raises no `PairingError`. -/
  metadata : Y → Str → Str → Value → Option Record
  resourceOptions : Record → List Record

variable {Y : Type}

def Desk.toDesktop (d : Desk Y) : Desktop (Workspace Y) :=
  { valid := d.valid, size := d.size, digest := d.digest, jobDigest := d.jobDigest,
    uuid4 := d.uuid4, uuid5 := d.uuid5, remoteRequests := fun w => d.remoteRequests w.others }

/-! What a phone is shown of a message. -/
namespace Message

/-- `value` where it is a string, and `str(value)` otherwise. -/
def attachmentMime (d : Desk Y) (item : Record) : Str :=
  let mime := getValue item "mime"
  let type := getValue item "type"
  (d.str (if isTruthy mime then mime else if isTruthy type then type
    else .str (text "application/octet-stream"))).take 120

/-- `int(value or 0)`, of a number. -/
def wholeNumber : Value → ℤ
  | .bool b => if b then 1 else 0
  | .int z => z
  | .float (.finite negative magnitude) => if negative then -magnitude.floor else magnitude.floor
  | _ => 0

def attachment (d : Desk Y) (item : Record) : Record :=
  [(.str (text "id"), .str ((d.str (getOr item "id" (.str []))).take 180)),
    (.str (text "name"), .str ((d.str (getOr item "name" (.str (text "Attachment")))).take 160)),
    (.str (text "size"), .int (max 0 (min 10485760 (wholeNumber (getValue item "size"))))),
    (.str (text "mime"), .str (attachmentMime d item))]

/-- `attachments`, for a phone. -/
def attachments (d : Desk Y) (m : Message) : List Value :=
  match member m.more "attachments" with
  | some (.list items) => (items.take 8).filterMap (fun
    | .dict item => some (.dict (attachment d item))
    | _ => none)
  | _ => []

def shownKinds : List Str :=
  [text "thought", text "turn-summary", text "error", text "final", text "system"]

def traceKeys : List String :=
  ["id", "kind", "title", "detail", "body", "input", "output", "category", "shell", "command",
    "status"]

def traceRecord (trace : List (String × Str)) : Record :=
  trace.map (fun p => (.str (text p.1), .str p.2))

def longest (d : Desk Y) : List (String × Str) → Option String
  | [] => none
  | p :: trace =>
    match (longest d trace).bind (fun key => trace.find? (fun q => q.1 = key)) with
    | some q => if d.encodedSize (.str p.2) < d.encodedSize (.str q.2) then some q.1 else some p.1
    | none => some p.1

/-- The loop of `presentation`: the longest entry is halved until the trace is short enough.
Each turn shortens an entry, so as many turns as there are characters are enough. -/
def shorten (d : Desk Y) : ℕ → List (String × Str) → List (String × Str)
  | 0, trace => trace
  | n + 1, trace =>
    if 12000 < d.encodedSize (.dict (traceRecord trace)) then
      shorten d n (trace.map (fun p =>
        if longest d trace = some p.1 then (p.1, p.2.take (p.2.length / 2)) else p))
    else trace

def shownTrace (d : Desk Y) (raw : Record) : Record × Bool :=
  let trace := traceKeys.filterMap (fun key =>
    match member raw key with
    | none | some .null => none
    | some value => some (key, (d.str value).take 4000))
  let short := shorten d (trace.map (fun p => p.2.length)).sum trace
  (traceRecord short, decide (12000 < d.encodedSize (.dict (traceRecord trace))) ||
    trace.any (fun p => 4000 < (d.str (getOr raw p.1 (.str []))).length))

def entry (name : String) (value : Value) : Record := [(.str (text name), value)]

/-- `startedAt` and `durationMs`. -/
def shownNumber (m : Message) (name : String) : Record :=
  match getValue m.more name with
  | .bool b => entry name (.int (if b then 1 else 0))
  | .int z => if 0 ≤ z ∧ z ≤ 9007199254740991 then entry name (.int z) else []
  | .float (.finite negative magnitude) =>
    if Double.toRat negative magnitude < 0 ∨ 9007199254740991 < Double.toRat negative magnitude then []
    else entry name (.int magnitude.floor)
  | _ => []

def presentation (d : Desk Y) (m : Message) : Record :=
  (match member m.more "kind" with
    | some (.str kind) => if shownKinds.contains kind then entry "kind" (.str kind) else []
    | _ => []) ++
  (match member m.more "groupId" with
    | some (.str group) => entry "groupId" (.str (group.take 180))
    | _ => []) ++
  (match member m.more "running" with
    | some (.bool running) => entry "running" (.bool running)
    | _ => []) ++
  m.shownNumber "startedAt" ++ m.shownNumber "durationMs" ++
  (match member m.more "completedAt" with
    | some (.str completed) => entry "completedAt" (.str (completed.take 80))
    | _ => []) ++
  (match member m.more "trace" with
    | some (.dict raw) =>
      (if (shownTrace d raw).2 then entry "truncated" (.bool true) else []) ++
        entry "trace" (.dict (shownTrace d raw).1)
    | _ => [])

def partId (d : Desk Y) (m : Message) (offset : ℕ) : Str :=
  if m.role = text "user" ∧ offset = 0 then m.id
  else d.uuid5 (text "raticode-message:" ++ m.id ++ text ":" ++ decimal offset)

def parts (d : Desk Y) (rich : Bool) (m : Message) : List (Str × Record) :=
  (List.range ((max 1 m.body.length + 3999) / 4000)).map (fun i =>
    let offset := 4000 * i
    let id := m.partId d offset
    (id, [(.str (text "id"), .str id), (.str (text "role"), .str m.role),
      (.str (text "text"), .str ((m.body.drop offset).take 4000))] ++
      if rich then
        [(.str (text "source_id"), .str m.id), (.str (text "offset"), .int offset),
          (.str (text "presentation"), .dict (m.presentation d)),
          (.str (text "attachments"), .list (if offset = 0 then m.attachments d else []))]
      else []))

end Message

/-! The conversations. -/
namespace Workspace

def isThread (peer thread : Str) (row : SharedRow) : Bool :=
  row.peer = peer && row.thread = thread

def value (w : Workspace Y) (peer thread : Str) : Option SharedThread :=
  (w.threads.find? (isThread peer thread)).map SharedRow.value

def used (d : Desk Y) (w : Workspace Y) (peer thread : Str) : ℕ :=
  ((w.threads.filter (fun row => row.peer = peer && row.thread ≠ thread)).map
    (fun row => d.valueSize row.peer row.value)).sum

def hasRoom (d : Desk Y) (w : Workspace Y) (peer thread : Str) (value : SharedThread) : Bool :=
  w.used d peer thread + d.valueSize peer value ≤ historyBytes

def stored (w : Workspace Y) (peer thread : Str) (value : SharedThread) : Workspace Y :=
  { w with
    threads := w.threads.filter (fun row => !isThread peer thread row) ++ [⟨peer, thread, value⟩]
    versions :=
      if w.versions.any (fun p => p.1 = (peer, thread)) then
        w.versions.map (fun p => if p.1 = (peer, thread) then (p.1, p.2 + 1) else p)
      else w.versions ++ [((peer, thread), 1)] }

end Workspace

namespace Store
variable (d : Desk Y) (s : Store (Workspace Y)) (peer thread : Str)

abbrev shared : Option SharedThread := s.rest.value peer thread

def turns : List Work := s.work.filter (fun w => w.peer = peer && w.thread = thread)

/-- What `messages` leaves out: `for_dispatch` is set while a turn is prepared, and
`through_request` where a turn is read up to a request. -/
def removedIds (dispatch : Bool) (through : Option Str) : List Str :=
  let future := match through with
    | none => []
    | some request =>
      -- No row is later than the row of a request that is not there.
      ((s.work.dropWhile (fun w => !isRequest peer request w)).drop 1).filterMap (fun w =>
        if w.peer = peer ∧ w.thread = thread then some w.request else none)
  ((s.shared peer thread).map SharedThread.removedIds).getD [] ++
    (if dispatch then ((s.turns peer thread).filter (fun w => w.state = .accepted)).map Work.request
      else []) ++
    future ++ future.map (fun id => text "reply-" ++ id)

def recovered (id : Value) : Record :=
  (d.metadata s.rest.others peer thread id).getD
    [(.str (text "name"), .str (text "Attachment")), (.str (text "size"), .int 0),
      (.str (text "mime"), .str (text "application/octet-stream"))]

def payloadText (payload : Record) : Str :=
  match member payload "text" with
  | some (.str s) => s
  | _ => []

def withAttachments (w : Work) (m : Message) : Message :=
  match s.rest.attachments.find? (fun a => a.peer = peer && a.request = w.request) with
  | some stored => m.put "attachments" (.list stored.items)
  | none =>
    let ids := attachmentIds w.event.payload
    if !ids.isEmpty && !isTruthy (getValue m.more "attachments") then
      m.put "attachments"
        (.list (ids.map (fun id => .dict ((.str (text "id"), id) :: s.recovered d peer thread id))))
    else m

def addRequest (removed : List Str) (result : Dict Str Message) (w : Work) : Dict Str Message :=
  if removed.contains w.request then result
  else result.setDefault w.request ⟨w.request, text "user", payloadText w.event.payload, []⟩

def addAttachments (result : Dict Str Message) (w : Work) : Dict Str Message :=
  match result.get w.request with
  | some m => result.set w.request (s.withAttachments d peer thread w m)
  | none => result

def addReply (removed : List Str) (result : Dict Str Message) (w : Work) : Dict Str Message :=
  let id := text "reply-" ++ w.request
  match s.rest.transcripts.find? (fun t => t.peer = peer && t.request = w.request) with
  | some transcript =>
    if removed.contains id then result
    else result.setDefault id ⟨id, text "assistant", transcript.text, []⟩
  | none => result

/-- One row of `device_work` in `messages`: its request and its reply. -/
def addTurn (removed : List Str) (result : Dict Str Message) (w : Work) : Dict Str Message :=
  s.addReply peer removed (s.addAttachments d peer thread (addRequest removed result w) w) w

/-- `{m["id"]: m for m in …}`. -/
def byId (messages : List Message) : Dict Str Message :=
  messages.foldl (fun result m => result.set m.id m) []

def dispatchKinds : List Str := [text "thought", text "turn-summary", text "error"]

def messages (dispatch : Bool) (through : Option Str) : List Message :=
  let removed := s.removedIds peer thread dispatch through
  let stored := ((s.shared peer thread).map SharedThread.messages).getD []
  let result := ((s.turns peer thread).filter (fun w => !(dispatch && w.state = .accepted))).foldl
    (s.addTurn d peer thread removed) (byId (stored.filter (fun m => !removed.contains m.id)))
  result.values.filter (fun m => !dispatch || match member m.more "kind" with
    | some (.str kind) => !dispatchKinds.contains kind
    | _ => true)

def insertTurn (request : Str) (projected messages : List Message) : List Message :=
  let messages := messages.filter (fun m => !(projected.map Message.id).contains m.id)
  let index := match messages.findIdx? (fun m => m.id = request) with
    | some i => i + 1
    | none => messages.length
  messages.take index ++ projected ++ messages.drop index

/-- One turn in `desktop_messages`. -/
def showTurn (journal : Option Journal) (messages : List Message) (w : Work) : List Message :=
  let messages := messages.map (fun m =>
    if m.id = w.request then m.put "origin" (.str (text "phone")) else m)
  let native := ((s.shared peer thread).map (fun v => getValue v.metadata "id")).getD .null
  match journal with
  | some journal =>
    if !isTruthy native || !messages.any (fun m => m.id = w.request) then messages
    else
      let removed := ((s.shared peer thread).map SharedThread.removedIds).getD []
      let projected := (journal.projected native w.turn w.request w.state).filter
        (fun m => !removed.contains m.id)
      if projected.isEmpty then messages else insertTurn w.request projected messages
  | none => messages

def desktopMessages (journal : Option Journal) : List Message :=
  (s.turns peer thread).foldl (s.showTurn peer thread journal) (s.messages d peer thread false none)

/-! The answers to a phone. -/

/-- `enabled`, of a peer. -/
def isEnabled : Bool := s.rest.enabled.contains peer && s.isActive peer

def enabledResources (context : Record) : Value :=
  if isTruthy (getValue context "desktop_parity") then
    .list (((d.resourceOptions context).filter (fun o => isTruthy (getValue o "enabled"))).map
      (fun o => getValue o "id"))
  else getOr context "resource_ids" (.list [])

def isRunning (journal : Option Journal) (context : Record) : Bool :=
  s.work.any (fun w => w.peer = peer && w.thread = thread && isOpen w) ||
    match journal with
    | some journal => journal.active.any (fun id => eqValue (.str id) (getValue context "desktop_thread_id"))
    | none => false

def groupOf (place : Record) : Value :=
  getOr place "mobileGroup" (.str (text (if isTruthy (getValue place "pinned") then "pinned"
    else if isTruthy (getValue place "archived") then "archived" else "active")))

def orEmpty (value : Value) : Value := if isTruthy value then value else .str []

def details (journal : Option Journal) (context : Record) (resources activity : Bool) : Record :=
  let value := s.shared peer thread
  let place := update ((value.map SharedThread.metadata).getD [])
    ((value.bind SharedThread.organization).getD [])
  (if isTruthy (getValue context "desktop_parity") then
    (if resources then
      [(.str (text "resources"), .list ((d.resourceOptions context).map Value.dict))] else []) ++
    [(.str (text "resource_ids"), enabledResources d context)] else []) ++
  [(.str (text "can_manage"), .bool (value.isSome && s.isEnabled peer)),
    (.str (text "delete_pending"), .bool ((value.map SharedThread.deleteRequested).getD false)),
    (.str (text "effort"), orEmpty (getValue context "effort")),
    (.str (text "permission_mode"), orEmpty (getValue context "permission_mode")),
    (.str (text "running"), .bool (s.isRunning peer thread journal context)),
    (.str (text "group"), groupOf place),
    (.str (text "updated_at"), .str ((d.str (orEmpty (getValue place "updatedAt"))).take 80))] ++
  if activity then
    [(.str (text "unread"), .bool (isTrue (getValue place "unread"))),
      (.str (text "read_at"), .str ((d.str (orEmpty (getValue place "readAt"))).take 80))] else []

/-- `put`. -/
def putShared (value : SharedThread) : Tx (Workspace Y) Unit := do
  let s ← peek
  if !s.rest.hasRoom d peer thread value then raise "workspace_history_quota"
  else put { s with rest := s.rest.stored peer thread value }

/-- `INSERT OR REPLACE INTO device_grants`. -/
def putGrant (context : Record) : Tx (Workspace Y) Unit := do
  let s ← peek
  put { s with grants := s.grants.filter (fun g => !(g.peer = peer && g.thread = thread)) ++
    [⟨peer, thread, context⟩] }

def reject (event : Envelope) (code : String) (detail : Str) : Tx (Workspace Y) (List Envelope) := do
  let answer ← emit d.toDesktop peer event.threadId event.requestId .error
    (RemoteControl.rejection code detail)
  pure [answer]

/-! A page of the history. -/

/-- Where a page starts that ends behind the first `n` parts: it takes them from the last one
on, as many as are asked for and as fit. -/
def pageStart (sizes : List ℕ) (limit : ℕ) : ℕ → ℕ → ℕ → ℕ
  | 0, _, _ => 0
  | start + 1, used, taken =>
    if limit ≤ taken then start + 1
    else
      let size := sizes.getD start 0
      if pageBytes < used + size then start + 1
      else pageStart sizes limit start (used + size) (taken + 1)

def pageEnd (payload : Record) (parts : List (Str × Record)) : ℕ :=
  let target := match getValue payload "message_id" with
    | .str id => if id = [] then none else parts.findIdx? (fun p => p.1 = id)
    | _ => none
  match target with
  | some i => i + 1
  | none => match getValue payload "before" with
    | .int before => min before.toNat parts.length
    | _ => parts.length

def pageLimit (payload : Record) : ℕ :=
  match member payload "limit" with
  | some (.int limit) => limit.toNat
  | _ => 40

/-- The payload of a `thread.history.snapshot`, from the messages that it is taken of. -/
def historyPage (payload context : Record) (rich : Bool) (history : List Message) : Record :=
  let parts := (history.filter (fun m => !m.isHidden)).flatMap (Message.parts d rich)
  let stop := pageEnd payload parts
  let start := pageStart (parts.map (fun p => d.encodedSize (.dict p.2))) (pageLimit payload) stop 0 0
  [(.str (text "messages"), .list (((parts.take stop).drop start).map (fun p => .dict p.2))),
    (.str (text "before"), .int start), (.str (text "has_more"), .bool (0 < start))] ++
  (if rich then [(.str (text "total"), .int parts.length)] else []) ++
  if rich && isTruthy (getValue context "desktop_parity") then
    [(.str (text "resources"), .list ((d.resourceOptions context).map Value.dict)),
      (.str (text "resource_ids"), enabledResources d context)] else []

/-- The branch for `thread.history.request`. -/
def readHistory (journal : Option Journal) (event : Envelope) (context : Record) :
    Tx (Workspace Y) (List Envelope) := do
  let s ← peek
  let rich := isTruthy (getValue event.payload "include_presentation")
  let history := if rich then s.desktopMessages d peer thread journal
    else s.messages d peer thread false none
  let answer ← emit d.toDesktop peer event.threadId event.requestId .threadHistorySnapshot
    (historyPage d event.payload context rich history)
  pure [answer]

/-! Search. -/

def firstMatch (needle : Str) (messages : List Message) : Option Message :=
  messages.find? (fun m => (find needle (d.normalize m.body)).isSome)

def messageMatch (needle title : Str) (m : Message) : Record :=
  let position := (find needle (d.normalize m.body)).getD 0
  [(.str (text "thread_id"), .str thread), (.str (text "title"), .str title),
    (.str (text "snippet"),
      .str (((m.body.take (position + needle.length + 100)).drop (position - 45)).take 500)),
    (.str (text "message_id"), .str (m.partId d (position / 4000 * 4000)))]

def threadMatch (needle : Str) (grant : Grant) : Option Record :=
  let title := match getOr grant.context "title" (.str (text "Remote Rem")) with
    | .str title => title
    | _ => []
  match firstMatch d needle (s.messages d peer grant.thread false none) with
  | some m => some (messageMatch d grant.thread needle title m)
  | none =>
    if (find needle (d.normalize title)).isSome then
      some [(.str (text "thread_id"), .str grant.thread), (.str (text "title"), .str title),
        (.str (text "snippet"), .str (text "Title match")), (.str (text "message_id"), .null)]
    else none

def needle (payload : Record) : Str :=
  Scan.trim (fun n => PyText.isSpace (Char.ofNat n)) (d.normalize (match getValue payload "query" with
    | .str query => query
    | _ => []))

def updatedAt : Str :=
  d.str (((s.shared peer thread).map (fun v => getOr v.metadata "updatedAt" (.str []))).getD (.str []))

def grantsOf : List Grant := s.grants.filter (fun g => g.peer = peer)

def search (payload : Record) : Record :=
  let needle := needle d payload
  let matched := if needle = [] then [] else (s.grantsOf peer).filterMap (fun g =>
    (s.threadMatch d peer needle g).map (fun found => (s.updatedAt d peer g.thread, found)))
  -- The latest first, and in the order of the rows where the times are the same.
  let sorted := matched.mergeSort (fun a b => decide (b.1 ≤ a.1))
  let offset := match getOr payload "offset" (.int 0) with
    | .int offset => offset.toNat
    | _ => 0
  let page := (sorted.drop offset).take 30
  [(.str (text "query"), getValue payload "query"), (.str (text "offset"), .int offset),
    (.str (text "results"), .list (page.map (fun p => .dict p.2))),
    (.str (text "has_more"), .bool (offset + page.length < sorted.length))]

/-- The branch for `thread.search.request`. -/
def answerSearch (event : Envelope) : Tx (Workspace Y) (List Envelope) := do
  let s ← peek
  let answer ← emit d.toDesktop peer event.threadId event.requestId .threadSearchSnapshot
    (s.search d peer event.payload)
  pure [answer]

/-! Changes to a conversation. -/

def isReading (action : Str) : Bool := action = text "read" || action = text "unread"

def readState (r : Record) : Record :=
  (match member r "unread" with
    | some value => [(.str (text "unread"), value)]
    | none => []) ++
  (match member r "readAt" with
    | some value => [(.str (text "readAt"), value)]
    | none => [])

def placement (r : Record) : Record :=
  r.filter (fun p => !isName (text "unread") p.1 && !isName (text "readAt") p.1)

def readNow (stamp : Str) : Record :=
  [(.str (text "unread"), .bool false), (.str (text "readAt"), .str stamp)]

/-- The conversation after an action of `thread.manage`. -/
def organize (stamp action : Str) (value : SharedThread) : SharedThread :=
  let previous := value.organization.getD []
  if action = text "delete" then { value with deleteRequested := true }
  else if isReading action then
    { value with organization := some (update (placement previous)
        (if action = text "read" then readNow stamp else [(.str (text "unread"), .bool true)])) }
  else
    let pinned := action = text "pin"
    let archived := action = text "archive"
    { value with organization := some ([(.str (text "pinned"), .bool pinned),
        (.str (text "archived"), .bool archived),
        (.str (text "mobileGroup"), .str (text (if pinned then "pinned" else if archived then "archived"
          else "active"))),
        (.str (text "updatedAt"), .str stamp)] ++
        if archived then readNow stamp else readState previous) }

/-- `value + 1`, of a revision. -/
def nextRevision : Value → Except Fault Value
  | .int z => .ok (.int (z + 1))
  | .bool b => .ok (.int (if b then 2 else 1))
  | .float (.finite negative magnitude) =>
    let q := Double.toRat negative magnitude + 1
    .ok (.float (.finite (q < 0) |q|))
  | .float x => .ok (.float x)
  | _ => .error .typeError

def revisionOf (context : Record) : Value := getOr context "revision" (.int 1)

def managedContext (context : Record) (action : Str) : Except Fault Record :=
  if isReading action then .ok context
  else (nextRevision (revisionOf context)).map (setMember context "revision")

/-- The conversation that `thread.manage` stores. -/
def managed (stamp action : Str) (context : Record) (value : SharedThread) : SharedThread :=
  { organize stamp action value with revision := revisionOf context }

def snapshotKeys : List String :=
  ["title", "project_id", "resource_ids", "provider", "model", "revision"]

def threadSnapshot (context details : Record) : Record :=
  update (snapshotKeys.map (fun key => (.str (text key),
    getOr context key (if key = "resource_ids" then .list [] else .null)))) details

def conflictDetail : Str := text "Thread settings changed. Refresh and choose again."

def deletionDetail : Str :=
  text "Deletion is waiting for the desktop archive. Try again shortly."

def unsharedDetail : Str := text "Only shared desktop threads can be organized here."

def choosesResources (event : Envelope) (context : Record) : Bool :=
  event.kind = .threadContextUpdate && isTrue (getValue event.payload "set_resources") &&
    !(strings (getValue event.payload "resource_ids")).isPerm (strings (enabledResources d context))

def adopted (event : Envelope) (previous : Record) (revision : Value) (value : SharedThread) :
    SharedThread :=
  { value with
    resourcesModified := value.resourcesModified || choosesResources d event previous
    revision := revision
    contextModified := value.contextModified || event.kind = .threadContextUpdate }

/-- What `thread.manage` and `thread.context.update` end with. -/
def applyContext (m : Moment) (event : Envelope) (previous context : Record) :
    Tx (Workspace Y) (List Envelope) := do
  putGrant peer thread context
  let s ← peek
  match s.shared peer thread with
  | some value => do
    let revision ← needValue context "revision"
    putShared d peer thread (adopted d event previous revision value)
  | none => pure ()
  let s ← peek
  let answer ← emit d.toDesktop peer event.threadId event.requestId .threadSnapshot
    (threadSnapshot context (s.details d peer thread m.journal context true false))
  pure [answer]

/-- The branch for `thread.manage`. -/
def manage (m : Moment) (event : Envelope) (action : Str) (context : Record) :
    Tx (Workspace Y) (List Envelope) := do
  let s ← peek
  match s.shared peer thread with
  | none => reject d peer event "unauthorized" unsharedDetail
  | some value =>
    if !s.isEnabled peer then reject d peer event "unauthorized" unsharedDetail
    else do
      let next ← lift (managedContext context action)
      putShared d peer thread (managed (d.stamp m.now) action next value)
      applyContext d peer thread m event context next

/-- The branch for `thread.context.update`. -/
def updateContext (m : Moment) (event : Envelope) (context : Record) :
    Tx (Workspace Y) (List Envelope) :=
  match m.configure context event.payload with
  | .error message => reject d peer event "invalid_request" message
  | .ok next => applyContext d peer thread m event context next

def actionOf (event : Envelope) : Str :=
  match getValue event.payload "action" with
  | .str action => action
  | _ => []

def isOutdated (event : Envelope) (context : Record) : Bool :=
  !(event.kind = .threadManage && isReading (actionOf event)) &&
    !eqValue (getValue event.payload "expected_revision") (revisionOf context)

def change (m : Moment) (event : Envelope) (context : Record) : Tx (Workspace Y) (List Envelope) := do
  let s ← peek
  if isOutdated event context then reject d peer event "conflict" conflictDetail
  else if ((s.shared peer thread).map SharedThread.deleteRequested).getD false then
    reject d peer event "conflict" deletionDetail
  else if event.kind = .threadManage then manage d peer thread m event (actionOf event) context
  else updateContext d peer thread m event context

def revokedDetail : Str := text "Thread access was revoked on desktop."

/-- The branches of `DeviceWorkspace.handle` for one conversation. -/
def handleThread (m : Moment) (event : Envelope) : Tx (Workspace Y) (List Envelope) := do
  let s ← peek
  match event.threadId.bind (s.grantOf peer) with
  | none => reject d peer event "unauthorized" revokedDetail
  | some grant =>
    if event.kind = .threadHistoryRequest then
      readHistory d peer grant.thread m.journal event grant.context
    else change d peer grant.thread m event grant.context

/-! Synchronization. -/

/-- `_prune_acknowledged`, of the outbox. -/
def pruneAcknowledged (cursor : ℤ) : Store (Workspace Y) :=
  let kept := (((s.ofPeer peer).map Posted.sequence).mergeSort (fun a b => b ≤ a)).take
    retainAcknowledged
  { s with outbox := s.outbox.filter (fun p =>
      p.peer ≠ peer || cursor < p.sequence || kept.contains p.sequence) }

def syncThread (m : Moment) (payload : Record) (grant : Grant) : Except Fault Record := do
  let context := grant.context
  let provider ← (member context "provider").elim (.error .keyError) .ok
  let model ← (member context "model").elim (.error .keyError) .ok
  pure (update
    [(.str (text "thread_id"), .str grant.thread),
      (.str (text "title"), getOr context "title" (.str (text "Remote Rem"))),
      (.str (text "revision"), revisionOf context),
      (.str (text "project_id"), getValue context "project_id"),
      (.str (text "resource_ids"), getOr context "resource_ids" (.list [])),
      (.str (text "provider"), provider), (.str (text "model"), model)]
    ((if isTruthy (getValue payload "include_thread_details") then
        s.details d peer grant.thread m.journal context false
          (isTrue (getValue payload "include_activity")) else []) ++
      if isTruthy (getValue payload "include_connection") then
        [(.str (text "can_create"), .bool (isTrue (getValue context "allow_thread_create")))] else []))

def threadPage : ℕ → List Record → List Record
  | _, [] => []
  | used, thread :: threads =>
    let size := d.encodedSize (.dict thread)
    if pageBytes < used + size then [] else thread :: threadPage (used + size) threads

def intOr (default : ℤ) : Value → ℤ
  | .int z => z
  | _ => default

/-- The payload of a `sync.snapshot`. -/
def syncSnapshot (m : Moment) (payload : Record) (events : List Envelope) (threads : List Record) :
    Record :=
  let offset := (intOr 0 (getValue payload "threads_offset")).toNat
  let page := threadPage d 0 ((threads.drop offset).take 50)
  let next := offset + page.length
  [(.str (text "revision"), .int 1),
    (.str (text "through_sequence"), .int ((events.getLast?.map Envelope.sequence).getD 0)),
    (.str (text "threads"), .list (page.map Value.dict))] ++
  (match member payload "threads_offset" with
    | some given => [(.str (text "threads_offset"), given),
        (.str (text "next_threads_offset"), if next < threads.length then .int next else .null)]
    | none => []) ++
  if isTruthy (getValue payload "include_connection") then
    [(.str (text "connection"),
      .dict (m.connection (isTrue (getValue payload "include_tailnet_endpoint"))))] else []

/-- The branch of `_handle` for `sync.request`. -/
def sync (m : Moment) (event : Envelope) : Tx (Workspace Y) (List Envelope) := do
  let s ← peek
  match getValue event.payload "after_sequence" with
  | .int cursor => put (s.pruneAcknowledged peer cursor)
  | _ => pure ()
  let events ← pending peer (intOr 0 (getValue event.payload "after_sequence"))
    (intOr 100 (getValue event.payload "limit")).toNat
  let s ← peek
  let threads ← lift (((s.grantsOf peer).mergeSort (fun g h => decide (g.thread ≤ h.thread))).mapM
    (s.syncThread d peer m event.payload))
  let answer ← emit d.toDesktop peer event.threadId event.requestId .syncSnapshot
    (syncSnapshot d m event.payload events threads)
  pure (events ++ [answer])

/-- `_handle`, for the requests of a phone that concern the conversations. -/
def workspaceBody (m : Moment) (other : Str → Envelope → Tx (Workspace Y) (List Envelope)) (peer : Str)
    (event : Envelope) : Tx (Workspace Y) (List Envelope) :=
  match event.kind with
  | .threadSearchRequest => answerSearch d peer event
  | .threadHistoryRequest | .threadManage | .threadContextUpdate => handleThread d peer m event
  | .syncRequest => sync d peer m event
  | _ => other peer event

end Store

end Raticode.Device
