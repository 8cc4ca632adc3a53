import Mathlib.Data.Rat.Defs
import Mathlib.Algebra.Order.Ring.Unbundled.Rat
import Raticode.PyDocument
import Raticode.SharedCell

/-! `gofer.core.approvals`: the requests for approval of a run, each in a file of its own, and the
calls that read and write one of these files. No lock is held across the steps of a call. -/
namespace Raticode.Approvals
open PyDocument SharedCell

/-- `ApprovalDecisionValue`. -/
inductive DecisionValue where
  | approved | rejected | timeout
  deriving DecidableEq, Repr

structure ApprovalDecision where
  decision : DecisionValue
  decidedBy : Str
  notes : Str
  decidedAt : Str
  deriving DecidableEq

inductive Status where
  | pending | decided | cancelled
  deriving DecidableEq, Repr

inductive TimeoutDecision where
  | reject | timeout
  deriving DecidableEq, Repr

structure ApprovalRequest where
  workflowId : Str
  runId : Str
  nodeId : Str
  message : Str
  status : Status := .pending
  approvers : List Str := []
  requestedAt : Str
  timeoutSeconds : Option ℚ := none
  timeoutDecision : TimeoutDecision := .timeout
  decision : Option ApprovalDecision := none
  workflowPath : Option Str := none
  logPath : Option Str := none
  checkpointPath : Option Str := none
  subjectManifestId : Option Str := none
  waiterSeenAt : Option Str := none
  waiterPid : Option ℤ := none
  resumeClaimedAt : Option Str := none
  resumeClaimedByPid : Option ℤ := none
  cancelledReason : Option Str := none
  deriving DecidableEq

structure Host where
  isAlnum : ℕ → Bool
  /-- `_now()`, at a time. -/
  stamp : ℚ → Str
  /-- `datetime.fromisoformat`, where it raises no `ValueError`. -/
  parse : Str → Option ℚ
  /-- `str(seconds)`. -/
  float : ℚ → Str

structure Moment where
  time : ℚ
  isLive : ℤ → Bool

variable (h : Host)

def safePart (value : Str) : Str :=
  let safe := value.map (fun c => if h.isAlnum c || (text "._-").contains c then c else 45)
  let stripped := Scan.trim (text ".-").contains safe
  if stripped = [] then text "item" else stripped

/-- `request_path`, below the directory of the approvals and without the suffix. -/
def requestPath (workflowId runId nodeId : Str) : Str × Str × Str :=
  (safePart h workflowId, safePart h runId, safePart h nodeId)

/-- `value or default`. -/
def orElse (value default : Str) : Str := if value = [] then default else value

/-- `value or None`. -/
def orNone (value : Option Str) : Option Str := value.filter (· ≠ [])

def orNoPid (pid : Option ℤ) : Option ℤ := pid.filter (0 < ·)

/-- `ApprovalDecision.from_dict` of what `to_dict` wrote. -/
def ApprovalDecision.reload (m : Moment) (d : ApprovalDecision) : ApprovalDecision :=
  { d with decidedBy := orElse d.decidedBy (text "unknown"), decidedAt := orElse d.decidedAt (h.stamp m.time) }

/-- `ApprovalRequest.from_dict` of what `to_dict` wrote. -/
def ApprovalRequest.reload (m : Moment) (r : ApprovalRequest) : ApprovalRequest :=
  { r with
    status := if r.decision.isSome then .decided else if r.status = .cancelled then .cancelled else .pending
    requestedAt := orElse r.requestedAt (h.stamp m.time)
    decision := r.decision.map (ApprovalDecision.reload h m)
    workflowPath := orNone r.workflowPath
    logPath := orNone r.logPath
    checkpointPath := orNone r.checkpointPath
    subjectManifestId := orNone r.subjectManifestId
    waiterSeenAt := orNone r.waiterSeenAt
    waiterPid := orNoPid r.waiterPid
    resumeClaimedAt := orNone r.resumeClaimedAt
    resumeClaimedByPid := orNoPid r.resumeClaimedByPid
    cancelledReason := orNone r.cancelledReason }

abbrev File := Option ApprovalRequest

abbrev Steps (α : Type) := Program File Moment α

def isExpired (r : ApprovalRequest) (m : Moment) : Bool :=
  match r.timeoutSeconds, h.parse r.requestedAt with
  | some seconds, some requestedAt =>
    r.decision.isNone && r.status ≠ .cancelled && requestedAt + seconds ≤ m.time
  | _, _ => false

def timedOut (r : ApprovalRequest) (m : Moment) : ApprovalRequest :=
  { r with
    status := .decided
    decision := some
      { decision := if r.timeoutDecision = .timeout then .timeout else .rejected
        decidedBy := text "gofer"
        notes := text "Timed out after " ++ h.float (r.timeoutSeconds.getD 0) ++ text " seconds"
        decidedAt := h.stamp m.time } }

def expireIfNeeded (r : ApprovalRequest) (m : Moment) : Steps ApprovalRequest :=
  if isExpired h r m then .write (some (timedOut h r m)) (.done (timedOut h r m)) else .done r

/-- `get`, with the moment of its read. -/
def getAt : Steps (Option ApprovalRequest × Moment) :=
  .read (fun file m => match file with
    | none => .done (none, m)
    | some stored => (expireIfNeeded h (stored.reload h m) m).bind (fun r => .done (some r, m)))

def carry (existing : Option ApprovalRequest) (r : ApprovalRequest) : ApprovalRequest :=
  match existing.bind ApprovalRequest.decision with
  | some decision => { r with decision := some decision, status := .decided }
  | none => r

/-- `create_or_update`. The result is the request as the call leaves it. -/
def createOrUpdate (r : ApprovalRequest) : Steps ApprovalRequest :=
  (getAt h).bind (fun existing =>
    .write (some (carry existing.1 r)) (.done (carry existing.1 r)))

/-- What `decide` raises. -/
inductive Refusal where
  | notFound
  | alreadyDecided (decision : DecisionValue)
  | cancelled (reason : Option Str)
  | notAllowed (decidedBy : Str) (approvers : List Str)

/-- The checks of `decide`. -/
def mayDecide (decidedBy : Str) (r : ApprovalRequest) : Except Refusal Unit :=
  match r.decision with
  | some decision => .error (.alreadyDecided decision.decision)
  | none =>
    if r.status = .cancelled then .error (.cancelled r.cancelledReason)
    else if r.approvers ≠ [] && decidedBy ≠ text "gofer" && !r.approvers.contains decidedBy then
      .error (.notAllowed decidedBy r.approvers)
    else .ok ()

def decided (r : ApprovalRequest) (decision : DecisionValue) (decidedBy notes : Str) (m : Moment) :
    ApprovalRequest :=
  { r with
    status := .decided
    decision := some { decision, decidedBy, notes, decidedAt := h.stamp m.time } }

def decide (decision : DecisionValue) (decidedBy notes : Str) : Steps (Except Refusal ApprovalRequest) :=
  (getAt h).bind (fun found => match found.1 with
    | none => .done (.error .notFound)
    | some r => match mayDecide decidedBy r with
      | .error refusal => .done (.error refusal)
      | .ok () => (createOrUpdate h (decided h r decision decidedBy notes found.2)).bind
          (fun r => .done (.ok r)))

def cancel (reason : Str) : Steps Bool :=
  (getAt h).bind (fun found => match found.1 with
    | none => .done false
    | some r =>
      if r.status ≠ .pending then .done false
      else (createOrUpdate h { r with status := .cancelled, cancelledReason := some reason }).bind
        (fun _ => .done true))

/-- `mark_waiting`, in a process. -/
def markWaiting (pid : ℤ) : Steps Unit :=
  (getAt h).bind (fun found => match found.1 with
    | none => .done ()
    | some r => (createOrUpdate h
        { r with waiterSeenAt := some (h.stamp found.2.time), waiterPid := some pid }).bind
        (fun _ => .done ()))

def isClaimed (r : ApprovalRequest) (m : Moment) : Bool :=
  r.resumeClaimedAt.isSome && r.resumeClaimedByPid.any m.isLive

/-- `claim_resume`, in a process. -/
def claimResume (pid : ℤ) : Steps (Option ApprovalRequest) :=
  (getAt h).bind (fun found => match found.1 with
    | none => .done none
    | some r =>
      if r.decision.isNone || isClaimed r found.2 then .done none
      else (createOrUpdate h
        { r with resumeClaimedAt := some (h.stamp found.2.time), resumeClaimedByPid := some pid }).bind
        (fun r => .done (some r)))

def releaseResume : Steps Unit :=
  (getAt h).bind (fun found => match found.1 with
    | none => .done ()
    | some r => (createOrUpdate h { r with resumeClaimedAt := none, resumeClaimedByPid := none }).bind
        (fun _ => .done ()))

inductive Call where
  | createOrUpdate (request : ApprovalRequest)
  | get
  | decide (decision : DecisionValue) (decidedBy notes : Str)
  | cancel (reason : Str)
  | markWaiting (pid : ℤ)
  | claimResume (pid : ℤ)
  | releaseResume

inductive Outcome where
  | created
  | got (request : Option ApprovalRequest)
  | decided (result : Except Refusal ApprovalRequest)
  | cancelled (result : Bool)
  | marked
  | claimed (request : Option ApprovalRequest)
  | released

def Call.code : Call → Steps Outcome
  | .createOrUpdate r => (Approvals.createOrUpdate h r).bind (fun _ => .done .created)
  | .get => (getAt h).bind (fun found => .done (.got found.1))
  | .decide decision decidedBy notes =>
    (Approvals.decide h decision decidedBy notes).bind (fun result => .done (.decided result))
  | .cancel reason => (Approvals.cancel h reason).bind (fun result => .done (.cancelled result))
  | .markWaiting pid => (Approvals.markWaiting h pid).bind (fun _ => .done .marked)
  | .claimResume pid => (Approvals.claimResume h pid).bind (fun r => .done (.claimed r))
  | .releaseResume => (Approvals.releaseResume h).bind (fun _ => .done .released)

end Raticode.Approvals
