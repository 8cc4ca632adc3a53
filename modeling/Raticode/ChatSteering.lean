import Raticode.DeviceChat

/-! `gofer.ui.chat_steering`: a turn of a conversation, whose stream starts a generation after the
other while instructions come in between its steps. What is done under the lock is one step, and
every receipt is saved. -/
namespace Raticode.Steering
open PyDocument

inductive Refusal where
  /-- `ChatSteeringConflict`. -/
  | conflict (message : Str)
  /-- `ValueError`. -/
  | invalid (message : Str)
  deriving DecidableEq

inductive Status where
  | interrupting | delivered | cancelled | failed
  deriving DecidableEq, Repr

inductive Ending where
  | cancelled | failed
  deriving DecidableEq, Repr

def Ending.status : Ending → Status
  | .cancelled => .cancelled
  | .failed => .failed

structure Receipt (A R : Type) where
  turnId : Str
  requestId : Str
  text : Str
  attachments : List A
  resources : Option R
  provider : Str
  model : Str
  generation : ℕ
  status : Status
  error : Option Str := none
  deriving DecidableEq

structure ChatTurn where
  turnId : Str
  provider : Str
  model : Str
  generation : ℕ := 0
  cancel : Bool := false
  stopped : Bool := false
  pending : List Str := []
  delivering : List Str := []

structure Message (A : Type) where
  role : Str
  body : Str
  attachments : List A
  deriving DecidableEq

structure Event where
  type : Str
  text : Str := []
  traceKind : Str := []
  traceBody : Str := []
  /-- `event["message"]["body"]`. -/
  body : Str := []
  deriving DecidableEq

inductive Output (A R : Type) where
  | turn (generation : ℕ) (provider model : Str)
  | steering (receipt : Receipt A R)
  | event (event : Event) (generation : ℕ)
  | interrupted (generation : ℕ) (terminal : Option Event) (messages : List (Message A))
  | stopped

inductive Stage (A R : Type) where
  | fresh
  | announced
  | starting
  /-- A generation is under way, of which `texts` has been seen. -/
  | running (texts : List Str)
  | handling (event : Event) (texts : List Str) (receipts : List (Receipt A R))
  | closing (terminal : Option Event) (texts : List Str)
  | settling (receipts : List (Receipt A R)) (restart : Bool) (terminal : Option Event)
  | looping
  | last
  | finishing
  | ended
  | dropped

structure Round where
  answer : Option Str
  ids : List Str
  deriving DecidableEq

structure Start (A : Type) where
  messages : List (Message A)
  rounds : List Round

structure History (A R : Type) where
  accepted : List Str := []
  rounds : List Round := []
  starts : List (Start A) := []
  spoke : List ℕ := []
  outputs : List (Output A R) := []

structure World (A R : Type) where
  records : List (Receipt A R)
  turnIds : List Str
  ended : Str → Option Ending
  turn : ChatTurn
  isActive : Bool
  stage : Stage A R
  messages : List (Message A)
  history : History A R

/-- What a request says. A text is `none` where the value is none. -/
structure Body (A R : Type) where
  turnId : Option Str
  requestId : Option Str
  text : Option Str
  /-- `none` where it is no list. -/
  attachments : Option (List A)
  /-- `AgentResources.model_validate`, where there are resources, or the text of what it raises. -/
  resources : Option (Except Str R)

structure Files (A : Type) where
  isReference : A → Bool
  /-- `resolve_chat_attachment`, with the text of what it raises. -/
  resolve : A → Except Str Unit
  /-- Its type starts with `image/`. -/
  isImage : A → Bool

def identifier (value : Option Str) (name : String) : Except Refusal Str :=
  match value.filter Device.isIdentifier with
  | some value => .ok value
  | none => .error (.invalid (text (name ++ " must be 1-128 letters, digits, underscores or hyphens")))

def stale : Refusal := .conflict (text "The requested Rem turn is no longer active")

def imageAttachmentProviders : List Str :=
  [text "codex", text "claude_code", text "cursor", text "copilot", text "opencode", text "grok"]

def chatAttachmentMaxCount : ℕ := 5

/-- `value or default`. -/
def orElse (value default : Str) : Str := if value = [] then default else value

section
variable {A R : Type}

def find (records : List (Receipt A R)) (id : Str) : Option (Receipt A R) :=
  records.find? (fun r => r.requestId = id)

def Receipt.settle (r : Receipt A R) (status : Status) (generation : ℕ) : Receipt A R :=
  { r with status, generation := if status = .delivered then generation else r.generation }

namespace World

def emit (w : World A R) (output : Output A R) : World A R :=
  { w with history := { w.history with outputs := w.history.outputs ++ [output] } }

def isOrphan (w : World A R) (r : Receipt A R) : Bool :=
  r.status = .interrupting && (!w.isActive || r.turnId ≠ w.turn.turnId || w.turn.stopped)

def reconcile (w : World A R) : World A R :=
  let ending := if w.isActive && w.turn.stopped then Ending.cancelled else .failed
  { w with records := w.records.map (fun r =>
      if w.isOrphan r then
        { r with
          status := ((w.ended r.turnId).getD ending).status
          error := some (text "Turn ended before delivery was confirmed; review before retry") }
      else r) }

/-- `_transition`, for ids without repetition: the world, and the receipts that have changed. -/
def transition (w : World A R) (ids : List Str) (status : Status) : World A R × List (Receipt A R) :=
  ({ w with records := w.records.map (fun r =>
      if r.requestId ∈ ids && r.status = .interrupting then r.settle status w.turn.generation else r) },
    ((ids.filterMap (find w.records)).filter (fun r => r.status = .interrupting)).map
      (fun r => r.settle status w.turn.generation))

def isAbout (w : World A R) (turnId : Str) : Bool := w.isActive && w.turn.turnId = turnId

/-- What `steer` checks of the attachments, one after the other. -/
def checkAttachments (files : Files A) (provider : Str) : List A → Except Refusal Unit
  | [] => .ok ()
  | attachment :: rest =>
    if !files.isReference attachment then
      .error (.invalid (text "Each steering attachment must be a file reference"))
    else match files.resolve attachment with
      | .error message => .error (.invalid message)
      | .ok () =>
        if files.isImage attachment && provider ∉ imageAttachmentProviders then
          .error (.invalid (provider ++ text " image attachments are not supported by this adapter"))
        else checkAttachments files provider rest

def accept (w : World A R) (requestId message : Str) (attachments : List A) (resources : Option R) :
    Receipt A R × World A R :=
  let receipt : Receipt A R :=
    { turnId := w.turn.turnId, requestId, text := message, attachments, resources,
      provider := w.turn.provider, model := w.turn.model, generation := w.turn.generation + 1,
      status := .interrupting }
  (receipt,
    { w with
      records := w.records ++ [receipt]
      turn := { w.turn with pending := w.turn.pending ++ [requestId], cancel := true }
      history := { w.history with accepted := w.history.accepted ++ [requestId] } })

/-- What `steer` does under the lock. -/
def steerLocked [DecidableEq A] [DecidableEq R] (w : World A R) (files : Files A) (turnId requestId message : Str)
    (attachments : List A) (resources : Option R) : Except Refusal (Receipt A R) × World A R :=
  let w := w.reconcile
  match find w.records requestId with
  | some old =>
    if old.text ≠ message || old.turnId ≠ turnId || old.attachments ≠ attachments ||
        old.resources ≠ resources then
      (.error (.conflict (text "requestId was already used for a different instruction")), w)
    else (.ok old, w)
  | none =>
    if !w.isAbout turnId || w.turn.stopped then (.error stale, w)
    else match checkAttachments files w.turn.provider attachments with
      | .error refusal => (.error refusal, w)
      | .ok () =>
        let accepted := w.accept requestId message attachments resources
        (.ok accepted.1, accepted.2)

/-- What `steer` checks before that. -/
def readBody [DecidableEq A] (body : Body A R) : Except Refusal (Str × Str × Str × List A × Option R) := do
  let turnId ← identifier body.turnId "turnId"
  let requestId ← identifier body.requestId "requestId"
  let resources ← match body.resources with
    | none => .ok none
    | some (.ok resources) => .ok (some resources)
    | some (.error message) => .error (.invalid message)
  let attachments ← match body.attachments.filter (fun list => list.length ≤ chatAttachmentMaxCount) with
    | some attachments => .ok attachments
    | none => .error (.invalid (text "Steering accepts up to five attachments"))
  match body.text.filter (fun message => message.length ≤ 100000 &&
      (message.any (fun n => !PyText.isSpace (Char.ofNat n)) || attachments ≠ [])) with
  | some message => .ok (turnId, requestId, message, attachments, resources)
  | none =>
    .error (.invalid (text "Steering needs text or attachments, with at most 100000 characters"))

def steer [DecidableEq A] [DecidableEq R] (w : World A R) (files : Files A) (body : Body A R) :
    Except Refusal (Receipt A R) × World A R :=
  match readBody body with
  | .error refusal => (.error refusal, w)
  | .ok (turnId, requestId, message, attachments, resources) =>
    w.steerLocked files turnId requestId message attachments resources

def halt (w : World A R) : World A R := { w with turn := { w.turn with stopped := true, cancel := true } }

def stop (w : World A R) (turnId : Option Str) : Except Refusal Unit × World A R :=
  match identifier turnId "turnId" with
  | .error refusal => (.error refusal, w)
  | .ok turnId =>
    if !w.isAbout turnId then (.error stale, w)
    else (.ok (), (w.transition (w.turn.pending ++ w.turn.delivering) .cancelled).1.halt)

def receipts (w : World A R) : List (Receipt A R) × World A R := (w.reconcile.records, w.reconcile)

end World

def startMessage : Str := text ("The previous process was interrupted. Continue the same task " ++
  "using the following steering instructions. Completed tool " ++
  "effects remain in the workspace; inspect before repeating.")

def instruction (records : List (Receipt A R)) (id : Str) : Option (Message A) :=
  (find records id).map (fun r => ⟨text "user", r.text, r.attachments⟩)

def continuation (records : List (Receipt A R)) (round : Round) : List (Message A) :=
  (match round.answer with
    | some answer => [⟨text "assistant", answer, []⟩]
    | none => []) ++
  [⟨text "system", startMessage, []⟩] ++ round.ids.filterMap (instruction records)

def answer (terminal : Option Event) (texts : List Str) : Option Str :=
  let final := (terminal.map Event.body).getD []
  if final ≠ [] then some final
  else if texts ≠ [] then some (List.intercalate (text "\n") texts)
  else none

def Event.isFinal (e : Event) : Bool := e.type = PyDocument.text "final"

def Event.isThought (e : Event) : Bool := e.type = PyDocument.text "thought"

def Event.isTerminal (e : Event) : Bool := e.isFinal || e.type = PyDocument.text "error"

def Event.addTo (e : Event) (texts : List Str) : List Str :=
  if e.isThought && (e.traceKind = PyDocument.text "message" || e.traceKind = PyDocument.text "summary") then
    texts ++ [orElse e.traceBody e.text]
  else texts

namespace World

def restarting (w : World A R) : Bool := w.turn.pending ≠ [] || w.turn.stopped

def speak (w : World A R) : World A R :=
  { w with history := { w.history with spoke := w.history.spoke ++ [w.turn.generation] } }

def deliver (w : World A R) (e : Event) (texts : List Str) : World A R :=
  if w.restarting then { w with stage := .handling e texts [] }
  else
    let changed := w.transition w.turn.delivering .delivered
    { changed.1 with stage := .handling e texts changed.2 }

def receive (w : World A R) (e : Event) (texts : List Str) : World A R :=
  if e.isThought || e.isFinal then w.speak.deliver e texts
  else { w with stage := .handling e texts [] }

def handled (w : World A R) (e : Event) (texts : List Str) : World A R :=
  if e.isTerminal then { w with stage := .closing (some e) texts }
  else
    let w := if w.restarting then w else w.emit (.event e w.turn.generation)
    { w with stage := .running (e.addTo texts) }

def restart (w : World A R) (terminal : Option Event) (texts : List Str) : World A R :=
  let round : Round := ⟨answer terminal texts, w.turn.pending⟩
  { w with
    turn := { w.turn with
      delivering := w.turn.delivering ++ w.turn.pending
      pending := []
      generation := w.turn.generation + 1
      cancel := false }
    messages := w.messages ++ continuation w.records round
    history := { w.history with rounds := w.history.rounds ++ [round] }
    stage := .settling [] true terminal }

def settle (w : World A R) (terminal : Option Event) (texts : List Str) : World A R :=
  if w.turn.stopped then
    let changed := w.transition (w.turn.pending ++ w.turn.delivering) .cancelled
    { changed.1 with isActive := false, stage := .settling changed.2 false terminal }
  else if w.turn.pending ≠ [] then w.restart terminal texts
  else
    let changed := w.transition w.turn.delivering .failed
    { changed.1 with isActive := false, stage := .settling changed.2 false terminal }

def conclude (w : World A R) (terminal : Option Event) : World A R :=
  if w.turn.stopped then { w.emit .stopped with stage := .last }
  else match terminal with
    | some e => { w.emit (.event e w.turn.generation) with stage := .last }
    | none => { w with stage := .finishing }

def finish (w : World A R) : World A R :=
  let ending := if w.turn.stopped then Ending.cancelled else .failed
  let w := { w with
    turn := { w.turn with cancel := true }
    ended := Function.update w.ended w.turn.turnId (some ending)
    isActive := false }
  { (w.transition (w.turn.pending ++ w.turn.delivering) ending.status).1 with stage := .ended }

def announce (w : World A R) : World A R :=
  { w.emit (.turn w.turn.generation w.turn.provider w.turn.model) with stage := .announced }

def proceed (w : World A R) : World A R :=
  match w.stage with
  | .fresh => w.announce
  | .announced =>
    if w.turn.stopped then { w.emit .stopped with stage := .last } else { w with stage := .starting }
  | .starting =>
    { w with
      history := { w.history with starts := w.history.starts ++ [⟨w.messages, w.history.rounds⟩] }
      stage := .running [] }
  | .running _ => w
  | .handling e texts (receipt :: receipts) =>
    { w.emit (.steering receipt) with stage := .handling e texts receipts }
  | .handling e texts [] => w.handled e texts
  | .closing terminal texts => w.settle terminal texts
  | .settling (receipt :: receipts) restart terminal =>
    { w.emit (.steering receipt) with stage := .settling receipts restart terminal }
  | .settling [] true terminal =>
    { w.emit (.interrupted (w.turn.generation - 1) terminal w.messages) with stage := .looping }
  | .settling [] false terminal => w.conclude terminal
  | .looping => w.announce
  | .last => { w with stage := .finishing }
  | .finishing => w.finish
  | .ended => w
  | .dropped => w

def produce (w : World A R) (event : Option Event) : World A R :=
  match w.stage, event with
  | .running texts, some e => w.receive e texts
  | .running texts, none => { w with stage := .closing none texts }
  | _, _ => w

def breaks (w : World A R) : World A R :=
  match w.stage with
  | .fresh => { w with stage := .dropped }
  | .ended => w
  | .dropped => w
  | _ => { w with stage := .finishing }

end World

inductive Act (A R : Type) where
  | steer (body : Body A R)
  | stop (turnId : Option Str)
  | receipts
  /-- `close`, or the end of the request that has started the turn. -/
  | halts
  | proceeds
  | produces (event : Option Event)
  | breaks

namespace World

def act [DecidableEq A] [DecidableEq R] (files : Files A) (w : World A R) : Act A R → World A R
  | .steer body => (w.steer files body).2
  | .stop turnId => (w.stop turnId).2
  | .receipts => w.receipts.2
  | .halts => w.halt
  | .proceeds => w.proceed
  | .produces event => w.produce event
  | .breaks => w.breaks

def run [DecidableEq A] [DecidableEq R] (files : Files A) (w : World A R) (acts : List (Act A R)) :
    World A R := acts.foldl (act files) w

end World

structure Conversation (A R : Type) where
  records : List (Receipt A R)
  turnIds : List Str
  ended : Str → Option Ending

/-- `begin`, where no turn of the conversation is active, and the stream of the turn. -/
def Conversation.begin (c : Conversation A R) (turnId provider model : Str) (messages : List (Message A)) :
    Except Refusal (World A R) :=
  match identifier (some turnId) "turnId" with
  | .error refusal => .error refusal
  | .ok turnId =>
    if turnId ∈ c.turnIds then
      .error (.conflict (text "turnId has already been used; start with a fresh ID"))
    else .ok
      { records := c.records, turnIds := c.turnIds ++ [turnId], ended := c.ended
        turn := { turnId, provider, model }, isActive := true, stage := .fresh, messages
        history := {} }

def World.conversation (w : World A R) : Conversation A R := ⟨w.records, w.turnIds, w.ended⟩

end

end Raticode.Steering
