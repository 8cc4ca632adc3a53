import Raticode.DeviceClaim
import Raticode.Guarded

/-! `gofer.devices.remote_control`, and what a second delivery of an event does. An action on
the desktop is no part of the transaction that records the event which asked for it. -/
namespace Raticode.Device
open PyDocument Attempt

/-- `REMOTE_KINDS`. -/
def Kind.isRemote : Kind → Bool
  | approvalRequest | approvalResolve | swarmRequest | swarmControl | swarmMessage => true
  | _ => false

def Kind.isRemoteAction : Kind → Bool
  | approvalResolve | swarmControl | swarmMessage => true
  | _ => false

def pageBytes : ℕ := 45000

/-- What the services of the desktop answer while an event is handled. A `ValueError` or an
`OSError` is its message. -/
structure Services where
  /-- `_swarm`, or the checks of `_resolve`. -/
  target : Except Str Unit
  outcome : Except Str Unit
  approvals : Except Str (List Value)
  /-- `swarm_list`. -/
  swarms : Except Str (List Value)

structure RemoteControl (X : Type) extends Workbench X where
  allowed : X → Str → Bool
  /-- `len(json.dumps(item).encode())`. -/
  encodedSize : Value → ℕ

def swarmPage (size : Value → ℕ) : ℕ → List Value → List Value
  | _, [] => []
  | used, item :: items =>
    if pageBytes < used + size item then [] else item :: swarmPage size (used + size item) items

namespace RemoteControl
variable {X : Type} (r : RemoteControl X)

def snapshotKind (kind : Kind) : Kind :=
  if kind = .approvalRequest || kind = .approvalResolve then .approvalSnapshot else .swarmSnapshot

def snapshotThread (event : Envelope) : Option Str :=
  if snapshotKind event.kind = .approvalSnapshot then event.threadId else none

/-- The payload of `_snapshot`. -/
def snapshot (v : Services) (s : Store X) (peer : Str) (kind : Kind) : Except Str Record :=
  let allowed := r.allowed s.rest peer
  if snapshotKind kind = .approvalSnapshot then do
    let approvals ← if allowed then v.approvals else pure []
    pure [(.str (text "remote_allowed"), .bool allowed), (.str (text "approvals"), .list approvals)]
  else do
    let swarms ← if allowed then v.swarms else pure []
    pure [(.str (text "revision"), .int 1), (.str (text "remote_allowed"), .bool allowed),
      (.str (text "swarms"), .list (swarmPage r.encodedSize 0 swarms))]

/-- `str(exc)[:1000] or …`. -/
def conflictDetail (message : Str) : Str :=
  if message = [] then text "The desktop could not apply this action." else message.take 1000

def rejection (code : String) (detail : Str) : Record :=
  [(.str (text "code"), .str (text code)), (.str (text "retryable"), .bool false),
    (.str (text "detail"), .str detail)]

def reject (peer : Str) (event : Envelope) (code : String) (detail : Str) : Tx X Envelope :=
  Store.emit r.toDesktop peer event.threadId event.requestId .error (rejection code detail)

def unauthorizedDetail : Str :=
  text "Allow approvals and swarm controls for this phone in desktop Paired devices."

/-- `except (ValueError, OSError)`, around the snapshot: a `PairingError` is a `ValueError`. -/
def orReject (peer : Str) (event : Envelope) (x : Tx X Envelope) : Tx X Envelope := fun s =>
  match x s with
  | .error (.pairing code) s' => r.reject peer event "conflict" (text code) s'
  | result => result

def answer (v : Services) (peer : Str) (event : Envelope) : Tx X Envelope := do
  let s ← peek
  match v.outcome, r.snapshot v s peer event.kind with
  | .error message, _ => r.reject peer event "conflict" (conflictDetail message)
  | .ok (), .error message => r.reject peer event "conflict" (conflictDetail message)
  | .ok (), .ok payload =>
    r.orReject peer event (Store.emit r.toDesktop peer (snapshotThread event) event.requestId
      (snapshotKind event.kind) payload)

/-- The branch of `RemoteControl.handle` for an action. -/
def control (v : Services) (peer : Str) (event : Envelope) : Tx X Envelope := do
  let s ← peek
  if !r.allowed s.rest peer then r.reject peer event "unauthorized" unauthorizedDetail
  else
    match v.target with
    | .error message => r.reject peer event "conflict" (conflictDetail message)
    | .ok () => do
      put { s with performed := s.performed ++ [(peer, event)] }
      r.answer v peer event

def shows (v : Services) (peer : Str) (event : Envelope) : Tx X Envelope := do
  let s ← peek
  match r.snapshot v s peer event.kind with
  | .error _ => fail .os
  | .ok payload =>
    Store.emit r.toDesktop peer (snapshotThread event) event.requestId (snapshotKind event.kind)
      payload

/-- `RemoteControl.handle`, and the other branches of `_handle` for the kinds it leaves. -/
def body (v : Services) (other : Str → Envelope → Tx X (List Envelope)) (peer : Str)
    (event : Envelope) : Tx X (List Envelope) :=
  if event.kind.isRemoteAction then do
    let event ← r.control v peer event
    pure [event]
  else if event.kind.isRemote then do
    let event ← r.shows v peer event
    pure [event]
  else Store.workBody r.toWorkbench other peer event

end RemoteControl

/-! Runs. -/

namespace Store
variable {X : Type}

def receipts (s : Store X) : List Receipt × List Receipt × List (Str × Envelope) :=
  (s.inbox, s.inboxReads, s.performed)

def performedCount (s : Store X) (peer id : Str) : ℕ :=
  (s.performed.filter (fun p => p.1 = peer && p.2.id = id)).length

def receiptOf (s : Store X) (peer id : Str) : Option Receipt :=
  s.inbox.find? (fun q => q.peer = peer && q.id = id)

def Recorded (d : Desktop X) (s : Store X) (peer : Str) (event : Envelope) : Prop :=
  ∃ receipt, s.receiptOf peer event.id = some receipt ∧ receipt.digest = d.digest event

def Conflicts (d : Desktop X) (s : Store X) (peer : Str) (event : Envelope) : Prop :=
  (∃ receipt, s.prior peer event.id = some receipt ∧ receipt.digest ≠ d.digest event) ∨
  s.prior peer event.id = none ∧
    (hasSequence s.inbox peer event.sequence || hasSequence s.inboxReads peer event.sequence) = true

def AnswersOnly (s t : Store X) : Prop :=
  ∃ drawn sequences outbox, t = { s with drawn, sequences, outbox }

def isRefused : Except Fault (List Envelope) → Prop
  | .error _ => True
  | .ok answers => ∀ a ∈ answers, a.kind = .error

end Store

structure Others (X : Type) where
  handle : Str → Envelope → Tx X (List Envelope)
  keeps : ∀ peer event k, Preserves (fun s : Store X => s.receipts = k) (handle peer event)

inductive InboxAct (X : Type) where
  | delivers (peer : Str) (received : Received) (now : ℚ) (services : Services)
  | removes (peer : Str) (revokedOnly : Bool)
  | works (tables : Store X)

namespace Inbox
variable {X : Type} (r : RemoteControl X) (other : Others X)

def deliver (s : Store X) (peer : Str) (received : Received) (now : ℚ) (services : Services) :
    Except Fault (List Envelope) × Store X :=
  s.handle r.toDesktop (r.body services other.handle) peer received now

def act (s : Store X) : InboxAct X → Store X
  | .delivers peer received now services => (deliver r other s peer received now services).2
  | .removes peer revokedOnly => (s.transaction (Store.removePeer r.toWorkbench peer revokedOnly)).2
  | .works tables =>
    { tables with inbox := s.inbox, inboxReads := s.inboxReads, performed := s.performed }

def run (identity : Str) (rest : X) (acts : List (InboxAct X)) : Store X :=
  acts.foldl (act r other) (.empty identity rest)

def hasRoom (s : Store X) (peer : Str) (event : Envelope) (detail : Str) : Bool :=
  s.fits r.toDesktop peer event.threadId event.requestId .error
    (RemoteControl.rejection "conflict" detail)

def canAnswer (s : Store X) (peer : Str) (event : Envelope) (v : Services) : Bool :=
  match v.outcome, r.snapshot v s peer event.kind with
  | .error message, _ => hasRoom r s peer event (RemoteControl.conflictDetail message)
  | .ok (), .error message => hasRoom r s peer event (RemoteControl.conflictDetail message)
  | .ok (), .ok payload =>
    let thread := RemoteControl.snapshotThread event
    let kind := RemoteControl.snapshotKind event.kind
    s.fits r.toDesktop peer thread event.requestId kind payload ||
      ((s.ofPeer peer).length < outboxEvents &&
        r.valid (s.nextEvent r.toDesktop peer thread event.requestId kind payload) &&
        hasRoom r (s.spent r.toDesktop peer) peer event (text "outbox_byte_quota"))

def performs (s : Store X) (peer : Str) (event : Envelope) (v : Services) : Bool :=
  event.kind.isRemoteAction && r.allowed s.rest peer && v.target.isOk

def admits (peer : Str) (s : Store X) : InboxAct X → Bool
  | .delivers p (.event event) _ v =>
    p ≠ peer || !performs r s p event v || (s.receiptOf p event.id).isSome || canAnswer r s p event v
  | .delivers .. => true
  | .removes p _ => p ≠ peer
  | .works _ => true

end Inbox

/-! What the handling of an event keeps. -/
section Keeping
open Store
variable {X : Type} {P : Store X → Prop} {k : List Receipt × List Receipt × List (Str × Envelope)}

def Silent (P : Store X → Prop) : Prop :=
  ∀ s drawn sequences outbox, P s → P { s with drawn, sequences, outbox }

theorem preserves_emit (hP : Silent P) (d : Desktop X) (peer : Str) (thread request : Option Str)
    (kind : Kind) (payload : Record) : Preserves P (emit d peer thread request kind payload) := by
  intro s hs
  unfold Wp
  rw [emit_eq]
  split_ifs
  · exact hs
  · exact hP s _ _ _ hs
  · exact hP s _ _ _ hs
  · exact hP s _ _ _ hs

theorem preserves_status (hP : Silent P) (d : Desktop X) (peer : Str) (thread request : Option Str)
    (state detail : String) : Preserves P (status d peer thread request state detail) :=
  preserves_emit hP d peer thread request _ _

theorem preserves_peerRow (peer : Str) : Preserves P (peerRow peer : Tx X Peer) :=
  .peek (fun _ _ => .lift _)

theorem preserves_trusted (peer : Str) : Preserves P (trusted peer : Tx X Unit) := by
  refine (preserves_peerRow peer).bind (fun row => ?_)
  split
  · exact .fail _
  · exact .pure _

theorem preserves_pending (peer : Str) (after : ℤ) (limit : ℕ) :
    Preserves P (pending peer after limit : Tx X (List Envelope)) :=
  (preserves_trusted peer).bind (fun _ => .peek (fun _ _ => .pure _))

theorem preserves_needValue (record : Record) (name : String) :
    Preserves P (needValue record name : Tx X Value) := by
  unfold needValue
  split
  · exact .pure _
  · exact .fail _

theorem silent_receipts : Silent (fun s : Store X => s.receipts = k) := fun _ _ _ _ h => h

variable {b : Workbench X}

theorem preserves_emitJob (hP : Silent P) (peer : Str) (event : Envelope) (job : Value) (state : Str)
    (revision : ℤ) (detail : String) (usage : Option Value) :
    Preserves P (emitJob b peer event job state revision detail usage) :=
  preserves_emit hP _ _ _ _ _ _

/-- Conditions that neither an outgoing event nor a work row can change. -/
structure Detached (P : Store X → Prop) : Prop where
  silent : Silent P
  work : ∀ s work jobIds, P s → P { s with work, jobIds }

theorem detached_receipts : Detached (fun s : Store X => s.receipts = k) :=
  ⟨silent_receipts, fun _ _ _ h => h⟩

theorem preserves_getJob (hP : Detached P) (peer thread : Str) (event : Envelope) :
    Preserves P (getJob b peer thread event) := by
  have hemit := fun job state detail => preserves_emitJob (b := b) hP.silent peer event job state 1 detail none
  refine (preserves_needValue _ _).bind (fun job => .peek (fun s hs => ?_))
  refine (preserves_peerRow _).bind (fun row => ?_)
  dsimp only
  split
  · exact .fail _
  · split_ifs
    · exact .fail _
    · refine (Preserves.put ?_).bind (fun _ => (hemit _ _ _).bind (fun _ => .pure _))
      exact hP.work _ _ _ hs
    · exact (hemit _ _ _).bind (fun _ => .pure _)

theorem preserves_cancelRequest (hP : Detached P) (peer thread request : Str) (event : Envelope) :
    Preserves P (cancelRequest b peer thread request event) := by
  refine .peek (fun s hs => ?_)
  split
  · exact .fail _
  · split
    · refine (Preserves.put ?_).bind (fun _ =>
        (preserves_status hP.silent _ _ _ _ _ _).bind (fun _ => .pure _))
      exact hP.work _ _ _ hs
    · exact preserves_pending _ _ _

theorem preserves_submitJob (hP : Detached P) (peer thread request : Str) (event : Envelope) :
    Preserves P (submitJob b peer thread request event) := by
  have hemit := fun job state detail => preserves_emitJob (b := b) hP.silent peer event job state 1 detail none
  refine .peek (fun s hs => (preserves_peerRow _).bind (fun row =>
    (preserves_needValue _ _).bind (fun job => ?_)))
  split
  · exact (hemit _ _ _).bind (fun _ => .pure _)
  dsimp only
  split
  · split
    · exact .fail _
    · exact (hemit _ _ _).bind (fun _ => .pure _)
  · split
    · refine (Preserves.put ?_).bind (fun _ => .pure _)
      exact hP.work _ _ _ hs
    · exact .fail _

theorem preserves_replaced (condition : Bool) {f : Store X → Except Fault X}
    (hf : ∀ s rest, P s → f s = .ok rest → P { s with rest }) :
    Preserves P (doIf condition (do
      let s ← peek
      let rest ← lift (f s)
      put { s with rest } : Tx X Unit)) := by
  unfold doIf
  split
  · intro s hs
    rw [wp_bind, wp_peek, wp_bind, wp_lift]
    exact ⟨fun rest hrest => hf s rest hs hrest, fun _ _ => hs⟩
  · exact .pure _

theorem preserves_insertWork (hP : Detached P) (w : Work) : Preserves P (insertWork w : Tx X Unit) := by
  refine .peek (fun s hs => ?_)
  split
  · exact .fail _
  · exact .put (hP.work _ _ _ hs)

theorem preserves_submit (hP : Detached P)
    (hname : ∀ s rest peer thread value, P s → b.nameFromMessage s.rest peer thread value = .ok rest →
      P { s with rest })
    (hattachments : ∀ s rest peer request items, P s →
      b.saveAttachments s.rest peer request items = .ok rest → P { s with rest })
    (peer thread request : Str) (event : Envelope) :
    Preserves P (submit b peer thread request event) := by
  have hemit := fun kind payload => preserves_emit hP.silent b.toDesktop peer event.threadId
    event.requestId kind payload
  refine .peek (fun s hs => ?_)
  split
  · exact (hemit _ _).bind (fun _ => .pure _)
  split
  · split
    · exact .fail _
    · exact preserves_pending _ _ _
  refine (Preserves.lift _).bind (fun attachments => ?_)
  split
  · exact .fail _
  have hdraw : Preserves P (draw b.toDesktop) := by
    refine .peek (fun s hs => (Preserves.put ?_).bind (fun _ => .pure _))
    exact hP.silent _ _ _ _ hs
  have hnamed : Preserves P (nameThread b peer thread event) :=
    preserves_replaced _ (fun s rest hs hrest => hname s rest _ _ _ hs hrest)
  have hkept : Preserves P (keepAttachments b peer request attachments) :=
    preserves_replaced _ (fun s rest hs hrest => hattachments s rest _ _ _ hs hrest)
  refine hdraw.bind (fun turn => (preserves_insertWork hP _).bind (fun _ =>
    hnamed.bind (fun _ => hkept.bind (fun _ => ?_))))
  unfold answerAccepted
  split
  · exact (preserves_needValue _ _).bind (fun job =>
      (preserves_emitJob hP.silent _ _ _ _ _ _ _).bind (fun _ => .pure _))
  · exact (hemit _ _).bind (fun _ => .pure _)

theorem receipts_workBody (other : Others X) (peer : Str) (event : Envelope) :
    Preserves (fun s : Store X => s.receipts = k) (workBody b other.handle peer event) := by
  have hP := detached_receipts (X := X) (k := k)
  have hsubmit := fun thread request => preserves_submit (b := b) hP (fun _ _ _ _ _ hs _ => hs)
    (fun _ _ _ _ _ hs _ => hs) peer thread request event
  unfold workBody
  split
  · exact preserves_getJob hP _ _ _
  · exact preserves_getJob hP _ _ _
  · exact preserves_cancelRequest hP _ _ _ _
  · exact hsubmit _ _
  · refine (preserves_submitJob hP _ _ _ _).bind (fun answers => ?_)
    split
    · exact .pure _
    · exact hsubmit _ _
  · exact other.keeps peer event k

end Keeping

/-! What one delivery does. -/
section Delivery
open Store
variable {X : Type} {r : RemoteControl X} {other : Others X} {v : Services} {s : Store X}
  {peer : Str} {event : Envelope} {now : ℚ}

theorem emit_ok_of_fits {d : Desktop X} {thread request : Option Str} {kind : Kind} {payload : Record}
    (h : s.fits d peer thread request kind payload = true) :
    ∃ e t, emit d peer thread request kind payload s = .ok e t := by
  rcases emit_cases d s peer thread request kind payload with ⟨-, e, t, he, -⟩ | ⟨hf, -⟩
  · exact ⟨e, t, he⟩
  · rw [h] at hf
    cases hf

theorem answer_ok (h : Inbox.canAnswer r s peer event v = true) :
    ∃ e t, r.answer v peer event s = .ok e t := by
  unfold Inbox.canAnswer at h
  unfold RemoteControl.answer
  change ∃ e t, (match v.outcome, r.snapshot v s peer event.kind with
    | .error message, _ => _
    | .ok (), .error message => _
    | .ok (), .ok payload => _ : Tx X Envelope) s = .ok e t
  generalize v.outcome = outcome at h ⊢
  generalize r.snapshot v s peer event.kind = snapshot at h ⊢
  cases outcome with
  | error message => exact emit_ok_of_fits h
  | ok u =>
    cases snapshot with
    | error message => exact emit_ok_of_fits h
    | ok payload =>
      simp only at h ⊢
      unfold RemoteControl.orReject
      rcases Bool.or_eq_true_iff.mp h with hfits | hlong
      · obtain ⟨e, t, he⟩ := emit_ok_of_fits hfits
        exact ⟨e, t, by rw [he]⟩
      · -- The snapshot is too long, and the rejection is sent under the next number.
        simp only [Bool.and_eq_true, decide_eq_true_eq] at hlong
        obtain ⟨⟨hcount, hvalid⟩, hroom⟩ := hlong
        rw [emit_eq, if_neg (Nat.not_le.mpr hcount)]
        split_ifs with hinvalid
        · rw [hvalid] at hinvalid
          cases hinvalid
        · exact emit_ok_of_fits hroom
        · exact ⟨_, _, rfl⟩

theorem receipts_answer {k : List Receipt × List Receipt × List (Str × Envelope)} :
    Preserves (fun s : Store X => s.receipts = k) (r.answer v peer event) := by
  have hemit := fun thread kind payload => preserves_emit (silent_receipts (X := X) (k := k))
    r.toDesktop peer thread event.requestId kind payload
  refine .peek (fun s hs => ?_)
  split
  · exact hemit _ _ _
  · exact hemit _ _ _
  next payload _ _ =>
      intro t ht
      unfold RemoteControl.orReject Wp
      have hsent := hemit (RemoteControl.snapshotThread event)
        (RemoteControl.snapshotKind event.kind) payload t ht
      unfold Wp at hsent
      cases hr : emit r.toDesktop peer (RemoteControl.snapshotThread event) event.requestId
        (RemoteControl.snapshotKind event.kind) payload t with
      | ok e u =>
        rw [hr] at hsent
        simp only [hr]
        exact hsent
      | error f u =>
        rw [hr] at hsent
        simp only [hr]
        cases f with
        | pairing code => exact hemit _ _ _ u hsent
        | _ => exact hsent

theorem body_spec (r : RemoteControl X) (other : Others X) (v : Services) (peer : Str)
    (event : Envelope) (s : Store X) :
    Wp (r.body v other.handle peer event)
      (fun _ t => t.inbox = s.inbox ∧ (t.performed = s.performed ∨
        Inbox.performs r s peer event v = true ∧ t.performed = s.performed ++ [(peer, event)]))
      (fun _ t => t.performed = s.performed ∨ Inbox.performs r s peer event v = true ∧
        Inbox.canAnswer r s peer event v = false ∧ t.performed = s.performed ++ [(peer, event)]) s := by
  -- What keeps the receipts performs nothing.
  have hsame : ∀ {α : Type} {x : Tx X α}, Preserves (fun t : Store X => t.receipts = s.receipts) x →
      Wp x (fun _ t => t.inbox = s.inbox ∧ (t.performed = s.performed ∨
        Inbox.performs r s peer event v = true ∧ t.performed = s.performed ++ [(peer, event)]))
      (fun _ t => t.performed = s.performed ∨ Inbox.performs r s peer event v = true ∧
        Inbox.canAnswer r s peer event v = false ∧ t.performed = s.performed ++ [(peer, event)]) s := by
    intro α x hx
    refine (hx s rfl).mono (fun _ t ht => ?_) (fun _ t ht => ?_)
    · simp only [receipts, Prod.mk.injEq] at ht
      exact ⟨ht.1, .inl ht.2.2⟩
    · simp only [receipts, Prod.mk.injEq] at ht
      exact .inl ht.2.2
  have hemit := fun thread kind payload => preserves_emit
    (silent_receipts (X := X) (k := s.receipts)) r.toDesktop peer thread event.requestId kind payload
  unfold RemoteControl.body
  split_ifs with haction hremote
  · rw [wp_bind]
    unfold RemoteControl.control
    rw [wp_bind, wp_peek]
    split_ifs with hallowed
    · exact hsame (hemit _ _ _)
    · cases htarget : v.target with
      | error message => exact hsame (hemit _ _ _)
      | ok u =>
        have hperforms : Inbox.performs r s peer event v = true := by
          unfold Inbox.performs
          rw [haction, htarget]
          simpa [Except.isOk, Except.toBool] using hallowed
        simp only
        rw [wp_bind, wp_put]
        have hanswer : Preserves (fun t : Store X => t.receipts =
            { s with performed := s.performed ++ [(peer, event)] }.receipts) (r.answer v peer event) :=
          receipts_answer
        have hkeeps := hanswer _ rfl
        unfold Wp at hkeeps ⊢
        cases hr : r.answer v peer event { s with performed := s.performed ++ [(peer, event)] } with
        | ok e t =>
          rw [hr] at hkeeps
          simp only [receipts, Prod.mk.injEq] at hkeeps
          exact ⟨hkeeps.1, .inr ⟨hperforms, hkeeps.2.2⟩⟩
        | error f t =>
          rw [hr] at hkeeps
          simp only [receipts, Prod.mk.injEq] at hkeeps
          refine .inr ⟨hperforms, ?_, hkeeps.2.2⟩
          by_contra hc
          rw [Bool.not_eq_false] at hc
          obtain ⟨e', t', hok⟩ := answer_ok
            (s := { s with performed := s.performed ++ [(peer, event)] }) hc
          rw [hok] at hr
          cases hr
  · refine hsame (Preserves.bind ?_ (fun _ => .pure _))
    refine .peek (fun t ht => ?_)
    split
    · exact .fail _
    · exact hemit _ _ _
  · exact hsame (receipts_workBody _ _ _)

/-- The reason under which an error of `_handle` is refused, where it does not end the
session. -/
def refusalReason : Fault → Option String
  | .pairing code => if code ∈ sessionEnding then none else some code
  | .keyError => some "KeyError"
  | .typeError => some "TypeError"
  | _ => none

theorem handle_event (d : Desktop X) (body : Str → Envelope → Tx X (List Envelope)) :
    s.handle d body peer (.event event) now =
      match s.transaction (handleBody body peer event (d.digest event) now) with
      | (.ok answers, t) => (.ok answers, t)
      | (.error f, t) =>
        match refusalReason f with
        | none => (.error f, t)
        | some reason => t.transaction (refuseBody d peer event (d.digest event) reason now) := by
  unfold handle
  simp only
  generalize s.transaction (handleBody body peer event (d.digest event) now) = result
  obtain ⟨answers | f, t⟩ := result
  · cases answers with
    | pairing code =>
      simp only [refusalReason]
      by_cases hc : code ∈ sessionEnding
      · rw [if_pos hc, if_pos hc]
      · rw [if_neg hc, if_neg hc]
    | _ => rfl
  · rfl

theorem trusted_cases (s : Store X) (peer : Str) :
    trusted peer s = .ok () s ∨ ∃ f, trusted peer s = .error f s := by
  have h : Wp (trusted peer) (fun _ t => t = s) (fun _ t => t = s) s :=
    preserves_trusted (P := fun t => t = s) peer s rfl
  unfold Wp at h
  cases hr : trusted peer s with
  | ok u t =>
    rw [hr] at h
    exact .inl (by rw [h])
  | error f t =>
    rw [hr] at h
    exact .inr ⟨f, by rw [h]⟩

theorem handle_untrusted {d : Desktop X} {body : Str → Envelope → Tx X (List Envelope)} {f : Fault}
    (h : trusted peer s = .error f s) : s.handle d body peer (.event event) now = (.error f, s) := by
  have hbody : s.transaction (handleBody body peer event (d.digest event) now) = (.error f, s) := by
    unfold transaction handleBody
    rw [run_bind_error h]
  have hrefuse : ∀ reason, s.transaction (refuseBody d peer event (d.digest event) reason now) =
      (.error f, s) := by
    intro reason
    unfold transaction refuseBody
    rw [run_bind_error h]
  rw [handle_event, hbody]
  simp only
  cases refusalReason f with
  | none => rfl
  | some reason => exact hrefuse reason

theorem prior_of_receiptOf {receipt : Receipt} (h : s.receiptOf peer event.id = some receipt) :
    s.prior peer event.id = some receipt := by
  unfold receiptOf at h
  unfold prior
  rw [h]
  rfl

theorem isKnown_cases (s : Store X) (peer : Str) (event : Envelope) (digest : Str) :
    ((∃ receipt, s.prior peer event.id = some receipt ∧ receipt.digest = digest) ∧
      isKnown peer event digest s = .ok true s) ∨
    (∃ reason, reason ∈ unrecorded ∧ reason ∉ sessionEnding ∧
      isKnown peer event digest s = .error (.pairing reason) s) ∨
    s.prior peer event.id = none ∧ hasSequence s.inbox peer event.sequence = false ∧
      hasSequence s.inboxReads peer event.sequence = false ∧
      isKnown peer event digest s = .ok false s := by
  unfold isKnown
  rw [run_bind_ok (x := peek) rfl]
  cases hprior : s.prior peer event.id with
  | some receipt =>
    by_cases hdigest : receipt.digest = digest
    · refine .inl ⟨⟨receipt, rfl, hdigest⟩, ?_⟩
      simp only [hdigest, ne_eq, not_true_eq_false, if_false]
      rfl
    · refine .inr (.inl ⟨"event_id_conflict", by decide, by decide, ?_⟩)
      simp only [ne_eq, hdigest, not_false_iff, if_true]
      rfl
  | none =>
    simp only
    split_ifs with hquota hsequence
    · exact .inr (.inl ⟨"inbox_quota", by decide, by decide, rfl⟩)
    · exact .inr (.inl ⟨"sequence_conflict", by decide, by decide, rfl⟩)
    · simp only [Bool.or_eq_true, not_or, Bool.not_eq_true] at hsequence
      exact .inr (.inr ⟨trivial, hsequence.1, hsequence.2, rfl⟩)

theorem handle_known {d : Desktop X} {body : Str → Envelope → Tx X (List Envelope)}
    (htrusted : trusted peer s = .ok () s)
    (hknown : isKnown peer event (d.digest event) s = .ok true s) :
    (s.handle d body peer (.event event) now).2 = s := by
  have hbody : s.transaction (handleBody body peer event (d.digest event) now) =
      (.ok (s.pendingRows peer 0 100), s) := by
    unfold transaction handleBody
    rw [run_bind_ok htrusted, run_bind_ok hknown, if_pos rfl]
    unfold pending
    rw [run_bind_ok htrusted]
    rfl
  rw [handle_event, hbody]

theorem handle_recorded {d : Desktop X} {body : Str → Envelope → Tx X (List Envelope)}
    (h : s.Recorded d peer event) : (s.handle d body peer (.event event) now).2 = s := by
  obtain ⟨receipt, hreceipt, hdigest⟩ := h
  have hprior := prior_of_receiptOf hreceipt
  rcases trusted_cases s peer with htrusted | ⟨f, huntrusted⟩
  · apply handle_known htrusted
    unfold isKnown
    rw [run_bind_ok (x := peek) rfl, hprior]
    simp only [hdigest, ne_eq, not_true_eq_false, if_false]
    rfl
  · rw [handle_untrusted huntrusted]

theorem silent_answersOnly : Silent s.AnswersOnly := by
  rintro t drawn sequences outbox ⟨_, _, _, rfl⟩
  exact ⟨drawn, sequences, outbox, rfl⟩

theorem transaction_answersOnly {α : Type} {x : Tx X α} (h : Preserves s.AnswersOnly x) :
    s.AnswersOnly (s.transaction x).2 := by
  have hx := h s ⟨s.drawn, s.sequences, s.outbox, rfl⟩
  unfold Wp at hx
  unfold transaction
  cases hr : x s with
  | ok a t =>
    rw [hr] at hx
    exact hx
  | error e t =>
    rw [hr] at hx
    obtain ⟨drawn, sequences, outbox, rfl⟩ := hx
    exact ⟨drawn, s.sequences, s.outbox, rfl⟩

theorem wp_addressed {reason : String} {x : Tx X (List Envelope)} {Q : List Envelope → Store X → Prop}
    {E : Store X → Prop} (h : Wp x Q (fun _ => E) s) : Wp (addressed reason x) Q (fun _ => E) s := by
  unfold addressed
  unfold Wp at h ⊢
  cases hr : x s with
  | ok a t =>
    rw [hr] at h
    simp only [hr]
    exact h
  | error f t =>
    rw [hr] at h
    simp only [hr]
    cases f <;> exact h

theorem preserves_answerError {P : Store X → Prop} (hP : Silent P) (d : Desktop X) (peer : Str)
    (thread request : Option Str) (reason : String) :
    Preserves P (answerError d peer thread request reason) := by
  intro t ht
  apply wp_addressed
  exact ((preserves_emit hP d peer thread request _ _).bind (fun e => .pure _)) t ht

theorem answerError_kind (d : Desktop X) (peer : Str) (thread request : Option Str)
    (reason : String) (s : Store X) :
    Wp (answerError d peer thread request reason) (fun answers _ => ∀ a ∈ answers, a.kind = .error)
      (fun _ _ => True) s := by
  apply wp_addressed
  rw [wp_bind]
  unfold Wp
  rw [emit_eq]
  split_ifs
  · trivial
  · trivial
  · trivial
  · intro a ha
    rw [List.mem_singleton.mp ha]
    rfl

theorem isRefused_transaction {x : Tx X (List Envelope)}
    (h : Wp x (fun answers _ => ∀ a ∈ answers, a.kind = .error) (fun _ _ => True) s) :
    isRefused (s.transaction x).1 := by
  unfold Wp at h
  unfold transaction
  cases hr : x s with
  | ok answers t =>
    rw [hr] at h
    exact h
  | error f t => trivial

theorem isKnown_conflict {d : Desktop X} (h : s.Conflicts d peer event) :
    ∃ reason, reason ∈ unrecorded ∧ reason ∉ sessionEnding ∧
      isKnown peer event (d.digest event) s = .error (.pairing reason) s := by
  unfold isKnown
  rw [run_bind_ok (x := peek) rfl]
  rcases h with ⟨receipt, hprior, hdigest⟩ | ⟨hprior, hsequence⟩
  · rw [hprior]
    simp only [ne_eq, hdigest, not_false_iff, if_true]
    exact ⟨"event_id_conflict", by decide, by decide, rfl⟩
  · rw [hprior]
    simp only
    split_ifs
    · exact ⟨"inbox_quota", by decide, by decide, rfl⟩
    · exact ⟨"sequence_conflict", by decide, by decide, rfl⟩

theorem handle_refused {d : Desktop X} {body : Str → Envelope → Tx X (List Envelope)} {reason : String}
    (htrusted : trusted peer s = .ok () s) (hreason : reason ∈ unrecorded)
    (hsession : reason ∉ sessionEnding)
    (hknown : isKnown peer event (d.digest event) s = .error (.pairing reason) s) :
    isRefused (s.handle d body peer (.event event) now).1 ∧
      s.AnswersOnly (s.handle d body peer (.event event) now).2 := by
  have hbody : s.transaction (handleBody body peer event (d.digest event) now) =
      (.error (.pairing reason), s) := by
    unfold transaction handleBody
    rw [run_bind_ok htrusted, run_bind_error hknown]
  have hrefuse : s.transaction (refuseBody d peer event (d.digest event) reason now) =
      s.transaction (answerError d peer event.threadId event.requestId reason) := by
    unfold transaction refuseBody
    rw [run_bind_ok htrusted, if_pos hreason]
  rw [handle_event, hbody]
  simp only [refusalReason, if_neg hsession, hrefuse]
  exact ⟨isRefused_transaction (answerError_kind d peer _ _ reason s),
    transaction_answersOnly (preserves_answerError silent_answersOnly d peer _ _ reason)⟩

theorem answersOnly_refl (s : Store X) : s.AnswersOnly s := ⟨s.drawn, s.sequences, s.outbox, rfl⟩

theorem handle_conflict {d : Desktop X} {body : Str → Envelope → Tx X (List Envelope)}
    (h : s.Conflicts d peer event) :
    isRefused (s.handle d body peer (.event event) now).1 ∧
      s.AnswersOnly (s.handle d body peer (.event event) now).2 := by
  rcases trusted_cases s peer with htrusted | ⟨f, huntrusted⟩
  · obtain ⟨reason, hreason, hsession, hknown⟩ := isKnown_conflict h
    exact handle_refused htrusted hreason hsession hknown
  · rw [handle_untrusted huntrusted]
    exact ⟨trivial, answersOnly_refl s⟩

theorem refuseMalformed_answersOnly (d : Desktop X) (s : Store X) (peer : Str)
    (answer : Option (Option Str × Option Str)) :
    s.AnswersOnly (s.transaction (refuseMalformed d peer answer)).2 := by
  apply transaction_answersOnly
  refine (preserves_trusted peer).bind (fun _ => ?_)
  cases answer with
  | none => exact .fail _
  | some address => exact preserves_answerError silent_answersOnly d peer _ _ _

def receiptFor (d : Desktop X) (peer : Str) (event : Envelope) : Receipt :=
  ⟨peer, event.id, d.digest event, event.sequence⟩

def RecordsOnly (d : Desktop X) (s : Store X) (peer : Str) (event : Envelope) (t : Store X) : Prop :=
  (t.inbox = s.inbox ∨ t.inbox = s.inbox ++ [receiptFor d peer event]) ∧ t.performed = s.performed

theorem silent_recordsOnly {d : Desktop X} : Silent (RecordsOnly d s peer event) :=
  fun _ _ _ _ h => h

theorem insertReceipt_ok {rows rows' : List Receipt} {q : Receipt} (h : insertReceipt rows q = .ok rows') :
    rows' = rows ++ [q] := by
  unfold insertReceipt at h
  split at h
  · cases h
  · exact (Except.ok.inj h).symm

theorem recordInbound_spec (d : Desktop X) (s : Store X) (peer : Str) (event : Envelope) (now : ℚ) :
    Wp (recordInbound peer event (d.digest event) now)
      (fun _ t => ∃ inbox inboxReads registry, t = { s with inbox, inboxReads, registry } ∧
        (inbox = s.inbox ∨ inbox = s.inbox ++ [receiptFor d peer event]) ∧
        (event.kind.isReadOnly = false → inbox = s.inbox ++ [receiptFor d peer event]))
      (fun _ t => t = s) s := by
  unfold recordInbound
  rw [wp_bind, wp_peek]
  simp only
  split
  next hread =>
    rw [wp_bind, wp_lift]
    refine ⟨fun rows _ => ⟨s.inbox, _, _, rfl, .inl rfl, fun hnot => ?_⟩, fun _ _ => rfl⟩
    rw [hread] at hnot
    cases hnot
  · rw [wp_bind, wp_lift]
    refine ⟨fun rows hrows => ⟨rows, s.inboxReads, _, rfl, ?_⟩, fun _ _ => rfl⟩
    have he : rows = s.inbox ++ [receiptFor d peer event] := insertReceipt_ok hrows
    exact ⟨.inr he, fun _ => he⟩

theorem refuse_recordsOnly (d : Desktop X) (reason : String) :
    RecordsOnly d s peer event
      (s.transaction (refuseBody d peer event (d.digest event) reason now)).2 := by
  have hanswer := fun t (ht : RecordsOnly d s peer event t) => preserves_answerError
    (silent_recordsOnly (d := d)) d peer event.threadId event.requestId reason t ht
  have hrefl : RecordsOnly d s peer event s := ⟨.inl rfl, rfl⟩
  have hbody : Wp (refuseBody d peer event (d.digest event) reason now)
      (fun _ => RecordsOnly d s peer event) (fun _ => RecordsOnly d s peer event) s := by
    unfold refuseBody
    rw [wp_bind]
    refine (preserves_trusted (P := fun t => t = s) peer s rfl).mono ?_ (fun _ t ht => ht ▸ hrefl)
    rintro u t rfl
    split
    · exact hanswer t hrefl
    · rw [wp_bind, wp_peek]
      split
      · exact preserves_pending peer 0 100 t hrefl
      · rw [wp_bind]
        refine (recordInbound_spec d _ peer event now).mono (fun u t' ht' => ?_) (fun _ t' ht' => ht' ▸ hrefl)
        obtain ⟨inbox, inboxReads, registry, rfl, hinbox, -⟩ := ht'
        exact hanswer _ ⟨hinbox, rfl⟩
  unfold Wp at hbody
  unfold transaction
  cases hr : refuseBody d peer event (d.digest event) reason now s with
  | ok a t =>
    rw [hr] at hbody
    exact hbody
  | error f t =>
    rw [hr] at hbody
    exact ⟨.inl rfl, hbody.2⟩

/-- One delivery performs its event at most once, only without a receipt for it, and then leaves
the receipt. -/
structure Effect (r : RemoteControl X) (v : Services) (s : Store X) (peer : Str) (event : Envelope)
    (t : Store X) : Prop where
  inbox : t.inbox = s.inbox ∨ t.inbox = s.inbox ++ [receiptFor r.toDesktop peer event]
  performed : t.performed = s.performed ∨
    s.receiptOf peer event.id = none ∧ t.performed = s.performed ++ [(peer, event)] ∧
      Inbox.performs r s peer event v = true ∧ (Inbox.canAnswer r s peer event v = true →
        t.inbox = s.inbox ++ [receiptFor r.toDesktop peer event])

theorem Effect.of_answersOnly {t : Store X} (h : s.AnswersOnly t) : Effect r v s peer event t := by
  obtain ⟨drawn, sequences, outbox, rfl⟩ := h
  exact ⟨.inl rfl, .inl rfl⟩

theorem isReadOnly_of_performs (h : Inbox.performs r s peer event v = true) :
    event.kind.isReadOnly = false := by
  simp only [Inbox.performs, Bool.and_eq_true] at h
  cases hk : event.kind <;> rw [hk] at h <;> first | rfl | exact absurd h.1.1 (by decide)

theorem handle_fresh (hprior : s.prior peer event.id = none) (htrusted : trusted peer s = .ok () s)
    (hknown : isKnown peer event (r.digest event) s = .ok false s) :
    Effect r v s peer event (Inbox.deliver r other s peer (.event event) now v).2 := by
  have hreceipt : s.receiptOf peer event.id = none := by
    unfold prior at hprior
    exact (Option.or_eq_none_iff.mp hprior).1
  unfold Inbox.deliver
  rw [handle_event]
  have hbody : handleBody (r.body v other.handle) peer event (r.digest event) now s =
      (recordInbound peer event (r.digest event) now >>=
        fun _ => r.body v other.handle peer event) s := by
    unfold handleBody
    rw [run_bind_ok htrusted, run_bind_ok hknown]
    rfl
  have hrecord := recordInbound_spec r.toDesktop s peer event now
  unfold Wp at hrecord
  unfold transaction
  rw [hbody]
  cases hr : recordInbound peer event (r.digest event) now s with
  | error f t =>
    rw [hr] at hrecord
    rw [run_bind_error hr, hrecord]
    simp only
    cases refusalReason f with
    | none => exact ⟨.inl rfl, .inl rfl⟩
    | some reason =>
      have hrefused : RecordsOnly r.toDesktop s peer event (s.transaction
          (refuseBody r.toDesktop peer event (r.digest event) reason now)).2 :=
        refuse_recordsOnly r.toDesktop reason
      obtain ⟨hinbox, hperformed⟩ := hrefused
      exact ⟨hinbox, .inl hperformed⟩
  | ok u t =>
    rw [hr] at hrecord
    obtain ⟨inbox, inboxReads, registry, rfl, hinbox, hrecorded⟩ := hrecord
    rw [run_bind_ok hr]
    have hspec := body_spec r other v peer event { s with inbox, inboxReads, registry }
    unfold Wp at hspec
    cases hb : r.body v other.handle peer event { s with inbox, inboxReads, registry } with
    | ok answers t =>
      rw [hb] at hspec
      obtain ⟨hi, hp⟩ := hspec
      refine ⟨by rw [hi]; exact hinbox, ?_⟩
      rcases hp with hsame | ⟨haction, hnew⟩
      · exact .inl hsame
      · refine .inr ⟨hreceipt, hnew, haction, fun _ => ?_⟩
        rw [hi]
        exact hrecorded (isReadOnly_of_performs haction)
    | error f t =>
      rw [hb] at hspec
      have hnot : t.performed = s.performed ∨ Inbox.performs r s peer event v = true ∧
          Inbox.canAnswer r s peer event v = false ∧ t.performed = s.performed ++ [(peer, event)] :=
        hspec
      have hlift : ∀ u : Store X, RecordsOnly r.toDesktop
          { s with drawn := t.drawn, performed := t.performed } peer event u →
          Effect r v s peer event u := by
        rintro u ⟨hi, hp⟩
        refine ⟨hi, ?_⟩
        rcases hnot with hsame | ⟨haction, hcannot, hnew⟩
        · exact .inl (hp.trans hsame)
        · refine .inr ⟨hreceipt, hp.trans hnew, haction, fun hcan => ?_⟩
          rw [hcannot] at hcan
          cases hcan
      simp only
      cases refusalReason f with
      | none => exact hlift _ ⟨.inl rfl, rfl⟩
      | some reason => exact hlift _ (refuse_recordsOnly r.toDesktop reason)

theorem deliver_effect (r : RemoteControl X) (other : Others X) (s : Store X) (peer : Str)
    (event : Envelope) (now : ℚ) (v : Services) :
    Effect r v s peer event (Inbox.deliver r other s peer (.event event) now v).2 := by
  rcases trusted_cases s peer with htrusted | ⟨f, huntrusted⟩
  · rcases isKnown_cases s peer event (r.digest event) with
      ⟨-, hknown⟩ | ⟨reason, hreason, hsession, hknown⟩ | ⟨hprior, -, -, hknown⟩
    · unfold Inbox.deliver
      rw [handle_known htrusted hknown]
      exact .of_answersOnly (answersOnly_refl s)
    · exact .of_answersOnly (handle_refused htrusted hreason hsession hknown).2
    · exact handle_fresh hprior htrusted hknown
  · unfold Inbox.deliver
    rw [handle_untrusted huntrusted]
    exact .of_answersOnly (answersOnly_refl s)

end Delivery

/-! Every run. -/
namespace Inbox
open Store
variable {X : Type} {r : RemoteControl X} {other : Others X} {s : Store X} {peer : Str}

theorem receiptOf_congr {id : Str} {receipt : Receipt} {t : Store X}
    (h : s.receiptOf peer id = some receipt) (ht : t.inbox = s.inbox) :
    t.receiptOf peer id = some receipt := by
  unfold receiptOf at h ⊢
  rw [ht]
  exact h

theorem receiptOf_append {d : Desktop X} {id sender : Str} {event : Envelope} {receipt : Receipt}
    {t : Store X} (h : s.receiptOf peer id = some receipt)
    (ht : t.inbox = s.inbox ∨ t.inbox = s.inbox ++ [receiptFor d sender event]) :
    t.receiptOf peer id = some receipt := by
  rcases ht with hsame | hnew
  · exact receiptOf_congr h hsame
  · unfold receiptOf at h ⊢
    rw [hnew, List.find?_append, h]
    rfl

theorem removePeer_spec (b : Workbench X) (p : Str) (revokedOnly : Bool) :
    ((s.transaction (removePeer b p revokedOnly)).2.inbox = s.inbox ∨
      (s.transaction (removePeer b p revokedOnly)).2.inbox =
        s.inbox.filter (fun q => q.peer ≠ p)) ∧
    (s.transaction (removePeer b p revokedOnly)).2.performed = s.performed := by
  have h : Wp (removePeer b p revokedOnly)
      (fun _ t => t.inbox = s.inbox.filter (fun q => q.peer ≠ p) ∧ t.performed = s.performed)
      (fun _ t => t = s) s := by
    unfold removePeer
    rw [wp_bind, wp_peek, wp_bind]
    unfold fromPairing
    rw [wp_lift]
    exact ⟨fun _ _ => ⟨rfl, rfl⟩, fun _ _ => rfl⟩
  unfold Wp at h
  unfold transaction
  cases hr : removePeer b p revokedOnly s with
  | ok u t =>
    rw [hr] at h
    exact ⟨.inr h.1, h.2⟩
  | error f t =>
    rw [hr] at h
    exact ⟨.inl rfl, by rw [h]⟩

theorem act_receiptOf {a : InboxAct X} (ha : admits r peer s a = true) {id : Str} {receipt : Receipt}
    (h : s.receiptOf peer id = some receipt) : (act r other s a).receiptOf peer id = some receipt := by
  cases a with
  | delivers sender received now v =>
    cases received with
    | event event => exact receiptOf_append h (deliver_effect r other s sender event now v).inbox
    | malformed answer =>
      have hsame : (act r other s (.delivers sender (.malformed answer) now v)).inbox = s.inbox := by
        obtain ⟨drawn, sequences, outbox, he⟩ : s.AnswersOnly
            (act r other s (.delivers sender (.malformed answer) now v)) :=
          refuseMalformed_answersOnly r.toDesktop s sender answer
        rw [he]
      exact receiptOf_congr h hsame
  | removes p revokedOnly =>
    have hp : p ≠ peer := by simpa [admits] using ha
    rcases (removePeer_spec (s := s) r.toWorkbench p revokedOnly).1 with hsame | hfilter
    · exact receiptOf_congr h hsame
    · unfold receiptOf at h ⊢
      change ((s.transaction (removePeer r.toWorkbench p revokedOnly)).2.inbox.find? _) = _
      rw [hfilter, List.find?_filter, ← h]
      congr 1
      funext q
      by_cases hq : q.peer = peer
      · simp [hq, Ne.symm hp]
      · simp [hq]
  | works tables => exact h

theorem act_performedCount (other : Others X) {a : InboxAct X} (ha : admits r peer s a = true) (id : Str) :
    (act r other s a).performedCount peer id = s.performedCount peer id ∨
    s.receiptOf peer id = none ∧
      (act r other s a).performedCount peer id = s.performedCount peer id + 1 ∧
      ((act r other s a).receiptOf peer id).isSome = true := by
  have hsame : ∀ {t : Store X}, t.performed = s.performed →
      t.performedCount peer id = s.performedCount peer id := by
    intro t ht
    rw [performedCount, performedCount, ht]
  cases a with
  | delivers sender received now v =>
    cases received with
    | event event =>
      rcases (deliver_effect r other s sender event now v).performed with
        hold | ⟨hnone, hnew, haction, hrecorded⟩
      · exact .inl (hsame hold)
      · change (deliver r other s sender (.event event) now v).2.performed = _ at hnew
        by_cases hthis : sender = peer ∧ event.id = id
        · obtain ⟨rfl, rfl⟩ := hthis
          have hcan : canAnswer r s sender event v = true := by
            simpa [admits, haction, hnone] using ha
          refine .inr ⟨hnone, ?_, ?_⟩
          · unfold act performedCount
            rw [hnew, List.filter_append, List.length_append]
            simp
          · unfold act receiptOf
            rw [hrecorded hcan, List.find?_append, Option.isSome_or]
            simp [receiptFor]
        · left
          unfold act performedCount
          rw [hnew, List.filter_append]
          have hout : [(sender, event)].filter
              (fun p => decide (p.1 = peer) && decide (p.2.id = id)) = [] := by
            simpa using hthis
          rw [hout, List.append_nil]
    | malformed answer =>
      left
      obtain ⟨drawn, sequences, outbox, he⟩ : s.AnswersOnly
          (act r other s (.delivers sender (.malformed answer) now v)) :=
        refuseMalformed_answersOnly r.toDesktop s sender answer
      exact hsame (by rw [he])
  | removes p revokedOnly => exact .inl (hsame (removePeer_spec r.toWorkbench p revokedOnly).2)
  | works tables => exact .inl rfl

structure ReplaySafe (r : RemoteControl X) (other : Others X) (peer : Str) (s₀ s : Store X) : Prop where
  repeated : ∀ event, s₀.Recorded r.toDesktop peer event → ∀ now v,
    (deliver r other s peer (.event event) now v).2 = s
  /-- An event with the id or the number of a recorded one and another content is refused, and
  all that happens is that an error is sent. -/
  conflicting : ∀ event, s.Conflicts r.toDesktop peer event → ∀ now v,
    isRefused (deliver r other s peer (.event event) now v).1 ∧
    s.AnswersOnly (deliver r other s peer (.event event) now v).2
  performed : ∀ id, s.performedCount peer id ≤ s₀.performedCount peer id + 1
  performedRecorded : ∀ id, (s₀.receiptOf peer id).isSome = true →
    s.performedCount peer id = s₀.performedCount peer id

/-- The event has not been performed since `s₀`, or it was performed once and its receipt is
there. -/
def Counted (s₀ : Store X) (peer id : Str) (s : Store X) : Prop :=
  (s.performedCount peer id = s₀.performedCount peer id ∧
    ((s₀.receiptOf peer id).isSome = true → (s.receiptOf peer id).isSome = true)) ∨
  (s₀.receiptOf peer id = none ∧ s.performedCount peer id = s₀.performedCount peer id + 1 ∧
    (s.receiptOf peer id).isSome = true)

theorem isSome_act {a : InboxAct X} (ha : admits r peer s a = true) {id : Str}
    (h : (s.receiptOf peer id).isSome = true) : ((act r other s a).receiptOf peer id).isSome = true := by
  obtain ⟨receipt, hreceipt⟩ := Option.isSome_iff_exists.mp h
  rw [act_receiptOf ha hreceipt]
  rfl

/-- Every admitted act keeps that count, whichever peer it serves. -/
theorem Counted.act {s₀ : Store X} {id : Str} (h : Counted s₀ peer id s) {a : InboxAct X}
    (ha : admits r peer s a = true) : Counted s₀ peer id (act r other s a) := by
  rcases h with ⟨hcount, hsome⟩ | ⟨hnone, hcount, hsome⟩
  · rcases act_performedCount other ha id with hsame | ⟨hnone, hnew, hrecorded⟩
    · exact .inl ⟨hsame.trans hcount, fun h₀ => isSome_act ha (hsome h₀)⟩
    · refine .inr ⟨?_, by rw [hnew, hcount], hrecorded⟩
      by_contra h₀
      have hs := hsome (Option.isSome_iff_ne_none.mpr h₀)
      rw [hnone] at hs
      cases hs
  · rcases act_performedCount other ha id with hsame | ⟨hnot, -, -⟩
    · exact .inr ⟨hnone, hsame.trans hcount, isSome_act ha hsome⟩
    · rw [hnot] at hsome
      cases hsome

/-- Redelivered events have no second effect, from any point of a run on, while each action of
the peer can be answered and the peer is not removed. -/
theorem replay_safe (r : RemoteControl X) (other : Others X) (identity : Str) (rest : X)
    (before later : List (InboxAct X)) (peer : Str)
    (h : Guarded.Along (act r other) (fun s a => admits r peer s a)
      (run r other identity rest before) later) :
    ReplaySafe r other peer (run r other identity rest before)
      (run r other identity rest (before ++ later)) := by
  have hrun : run r other identity rest (before ++ later) =
      later.foldl (act r other) (run r other identity rest before) := List.foldl_append
  rw [hrun]
  generalize run r other identity rest before = s₀ at h ⊢
  have hcounted : ∀ id, Counted s₀ peer id (later.foldl (act r other) s₀) := fun id =>
    h.invariant (I := Counted s₀ peer id) (fun s a hs ha => hs.act ha) (.inl ⟨rfl, fun hs => hs⟩)
  constructor
  · rintro event ⟨receipt, hreceipt, hdigest⟩ now v
    have hlater : (later.foldl (act r other) s₀).receiptOf peer event.id = some receipt :=
      h.invariant (I := fun s => s.receiptOf peer event.id = some receipt)
        (fun s a hs ha => act_receiptOf ha hs) hreceipt
    exact handle_recorded ⟨receipt, hlater, hdigest⟩
  · exact fun event hconflict now v => handle_conflict hconflict
  · intro id
    rcases hcounted id with ⟨hcount, -⟩ | ⟨-, hcount, -⟩
    · omega
    · omega
  · intro id hsome
    rcases hcounted id with ⟨hcount, -⟩ | ⟨hnone, -, -⟩
    · exact hcount
    · rw [hnone] at hsome
      cases hsome

end Inbox

/-! A message to a swarm, from a phone whose outbox is nearly full. -/
section Examples

def wireId (n : ℕ) : Str :=
  text "00000000-0000-4000-8000-" ++ ((Nat.toDigits 10 (10 ^ 11 + n)).map Char.toNat)

/-- The names of the kinds that occur here. -/
def wireType : Kind → Str
  | .swarmSnapshot => text "swarm.snapshot"
  | .error => text "error"
  | _ => text "chat.message"

def wireRecord (e : Envelope) : Record :=
  let orNull (s : Option Str) : Value := (s.map Value.str).getD .null
  [(.str (text "version"), .int 2), (.str (text "id"), .str e.id),
    (.str (text "thread_id"), orNull e.threadId), (.str (text "request_id"), orNull e.requestId),
    (.str (text "sequence"), .int e.sequence), (.str (text "type"), .str (wireType e.kind)),
    (.str (text "payload"), .dict e.payload)]

/-- `len(_encode(peer, event))`: a nonce of 12 bytes, the text, and a tag of 16 bytes. -/
def wireSize (e : Envelope) : ℕ :=
  match dumps ⟨some 4300, 1000⟩ ⟨true, true⟩ 0 (.dict (wireRecord e)) with
  | .ok encoded => 12 + encoded.length + 16
  | .error _ => 0

def exampleRemote : RemoteControl Unit :=
  { exampleBench with
    size := wireSize, uuid4 := wireId, allowed := fun _ _ => true, encodedSize := fun _ => 0 }

def exampleOthers : Others Unit where
  handle _ _ := pure []
  keeps _ _ _ := .pure []

def willing : Services := ⟨.ok (), .ok (), .ok [], .ok []⟩

def phoneTables : Store Unit := (Office.run exampleBench exampleHandlers [] () pairedPhone).store

def swarmMessage : Envelope :=
  ⟨wireId 1, none, some (wireId 2), 1, .swarmMessage,
    [(.str (text "swarm_id"), .str (wireId 3)), (.str (text "body"), .str (text "go on"))]⟩

def sentTwice : List (InboxAct Unit) :=
  [.delivers phone (.event swarmMessage) 7 willing, .delivers phone (.event swarmMessage) 8 willing]

theorem sentTwice_safe : Inbox.ReplaySafe exampleRemote exampleOthers phone
    (Inbox.run exampleRemote exampleOthers [] () [.works phoneTables])
    (Inbox.run exampleRemote exampleOthers [] () ([.works phoneTables] ++ sentTwice)) :=
  Inbox.replay_safe exampleRemote exampleOthers [] () [.works phoneTables] sentTwice phone
    (by decide +kernel)

/-- A message of the given size. -/
def waiting (i size : ℕ) : Posted :=
  let e : Envelope := ⟨wireId i, none, none, i + 1, .chatMessage, [(.str (text "text"), .str [])]⟩
  ⟨phone, i + 1, { e with
    payload := [(.str (text "text"), .str (List.replicate (size - wireSize e) 97))] }, size⟩

/-- All but 196 bytes of the outbox. -/
def crowdedOutbox : List Posted := (List.range 1034).map (fun i => waiting i 64902)

def crowdedTables : Store Unit := { phoneTables with outbox := crowdedOutbox }

set_option maxRecDepth 4000 in
/-- Neither the snapshot (253 bytes) nor the rejection (262 bytes) fits, and the message is carried out
twice. -/
theorem message_performed_twice : ¬ Inbox.ReplaySafe exampleRemote exampleOthers phone
    (Inbox.run exampleRemote exampleOthers [] () [.works crowdedTables])
    (Inbox.run exampleRemote exampleOthers [] () ([.works crowdedTables] ++ sentTwice)) := by
  intro h
  have hbefore : (Inbox.run exampleRemote exampleOthers [] ()
      [.works crowdedTables]).performedCount phone (wireId 1) = 0 := by decide +kernel
  have hafter : (Inbox.run exampleRemote exampleOthers [] ()
      ([.works crowdedTables] ++ sentTwice)).performedCount phone (wireId 1) = 2 := by decide +kernel
  have hcount := h.performed (wireId 1)
  omega

end Examples

end Raticode.Device
