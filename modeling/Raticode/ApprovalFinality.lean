import Raticode.ApprovalStore
import Raticode.Guarded

/-! What has been decided or cancelled stays so, while no call comes between the steps of another
one in a way that it does not notice. -/
namespace Raticode.Approvals
open PyDocument SharedCell

inductive Standing where
  | undecided
  | decided (decision : DecisionValue) (decidedBy notes : Str)
  | cancelled
  deriving DecidableEq

def Standing.isDecided : Standing → Bool
  | .decided .. => true
  | _ => false

def ApprovalDecision.standing (d : ApprovalDecision) : Standing :=
  .decided d.decision (orElse d.decidedBy (text "unknown")) d.notes

def ApprovalRequest.standing (r : ApprovalRequest) : Standing :=
  match r.decision with
  | some d => d.standing
  | none => if r.status = .cancelled then .cancelled else .undecided

def standing : File → Standing
  | none => .undecided
  | some r => r.standing

def Call.merges : Call → Bool
  | .markWaiting _ | .claimResume _ | .releaseResume => true
  | _ => false

def Call.isCancel : Call → Bool
  | .cancel _ => true
  | _ => false

def Outcome.isDecision : Outcome → Bool
  | .decided (.ok _) => true
  | _ => false

abbrev Calls := Pool Call File Moment Outcome

section
variable (h : Host)

def runsOut (file : File) (m : Moment) : Bool :=
  file.any (fun stored => isExpired h (stored.reload h m) m)

/-- What a step of a call finds in the file, after what the call has seen there: no other call has
decided or cancelled the request since, but that a decision which a call only merges into its
request may have come before its last read. A request that was cancelled is not written as one
that waits, and none runs out between the two reads of a cancellation. -/
def Finds (call : Call) : Option File → Steps Outcome → File → Moment → Prop
  | some seen, .read _, file, m =>
    (standing file = standing seen ∨ call.merges ∧ (standing file).isDecided) ∧
      (call.isCancel → runsOut h file m = false)
  | some seen, .write value _, file, _ =>
    standing file = standing seen ∧ (standing file = .cancelled → standing value = .cancelled)
  | _, _, _, _ => True

instance decidableFinds (call : Call) (seen : Option File) (program : Steps Outcome) (file : File)
    (m : Moment) : Decidable (Finds h call seen program file m) :=
  match seen, program with
  | some seen, .read _ => inferInstanceAs (Decidable
      ((standing file = standing seen ∨ call.merges ∧ (standing file).isDecided) ∧
        (call.isCancel → runsOut h file m = false)))
  | some seen, .write value _ => inferInstanceAs (Decidable
      (standing file = standing seen ∧ (standing file = .cancelled → standing value = .cancelled)))
  | some _, .done _ => inferInstanceAs (Decidable True)
  | none, _ => inferInstanceAs (Decidable True)

def Undisturbed (p : Calls) : Act Call Moment → Prop
  | .starts _ => True
  | .steps i m =>
    match p.threads[i]? with
    | some t => Finds h t.call t.seen t.program p.cell m
    | none => True

instance decidableUndisturbed (p : Calls) : ∀ a, Decidable (Undisturbed h p a)
  | .starts _ => inferInstanceAs (Decidable True)
  | .steps i m =>
    match hi : p.threads[i]? with
    | some t => decidable_of_iff (Finds h t.call t.seen t.program p.cell m) (by simp only [Undisturbed, hi])
    | none => .isTrue (by simp only [Undisturbed, hi])

def runCalls (p : Calls) (acts : List (Act Call Moment)) : Calls := p.run (Call.code h) acts

/-- What `get` returns where no other call is under way. -/
def readBack (file : File) (m : Moment) : Option ApprovalRequest := ((getAt h).alone m file).1.1

/-- What a returned decision stands for: it is the one on disk from then on, and only one call
returned one. -/
structure Final (p p' : Calls) : Prop where
  decided : ∀ t ∈ p.threads, ∀ r, t.program = .done (.decided (.ok r)) →
    r.standing.isDecided = true ∧ standing p'.cell = r.standing ∧
    ∀ m, ((readBack h p'.cell m).map ApprovalRequest.standing) = some r.standing
  single : ∀ (i j : ℕ) t t' r r', p'.threads[i]? = some t → p'.threads[j]? = some t' →
    t.program = .done (.decided (.ok r)) → t'.program = .done (.decided (.ok r')) → i = j
  cancelled : ∀ t ∈ p.threads, t.program = .done (.cancelled true) → standing p'.cell = .cancelled

/-! What each step of a call keeps. -/

def Vouches (seen : Option File) : Outcome → Prop
  | .decided (.ok r) => r.standing.isDecided = true ∧ ∃ file, seen = some file ∧ standing file = r.standing
  | .cancelled true => ∃ file, seen = some file ∧ standing file = .cancelled
  | _ => True

def Claims : Option File → Steps Outcome → Prop
  | some _, .done (.decided (.ok _)) => True
  | some seen, .write value next => (standing seen).isDecided = true ∧ Claims (some value) next
  | _, _ => False

def Tame (call : Call) : Option File → Steps Outcome → Prop
  | seen, .done outcome => Vouches seen outcome
  | seen, .read next => ∀ file m, Finds h call seen (.read next) file m →
    Tame call (some file) (next file m) ∧ ¬ Claims (some file) (next file m)
  | seen, .write value next =>
    (∃ file, seen = some file ∧ ((standing file).isDecided = true → standing value = standing file)) ∧
      Tame call (some value) next

end

section Calls
variable {h : Host} {call : Call} {seen : Option File}

theorem Standing.ne_undecided {s : Standing} (hs : s.isDecided = true) : s ≠ .undecided := by
  intro he
  rw [he] at hs
  cases hs

theorem orElse_orElse (value default : Str) :
    orElse (orElse value default) default = orElse value default := by
  unfold orElse
  by_cases hv : value = []
  · simp [hv]
  · simp [hv]

@[simp] theorem ApprovalDecision.standing_reload (m : Moment) (d : ApprovalDecision) :
    (d.reload h m).standing = d.standing := by
  unfold reload standing
  simp only [orElse_orElse]

@[simp] theorem ApprovalRequest.standing_reload (m : Moment) (r : ApprovalRequest) :
    (r.reload h m).standing = r.standing := by
  unfold standing reload
  cases hd : r.decision with
  | some d => simp only [Option.map_some, ApprovalDecision.standing_reload]
  | none =>
    -- Without a decision, the status is the one that was written, or pending.
    simp only [Option.map_none, Option.isSome_none, Bool.false_eq_true, if_false]
    by_cases hs : r.status = .cancelled
    · simp only [if_pos hs]
      rfl
    · simp only [if_neg hs]
      rfl

theorem isDecided_iff {r : ApprovalRequest} :
    r.standing.isDecided = true ↔ ∃ d, r.decision = some d := by
  unfold ApprovalRequest.standing
  cases hd : r.decision with
  | some d => exact ⟨fun _ => ⟨d, rfl⟩, fun _ => rfl⟩
  | none =>
    refine ⟨fun hs => ?_, fun ⟨d, he⟩ => absurd he (by simp)⟩
    split_ifs at hs
    · cases hs
    · cases hs

@[simp] theorem isDecided_timedOut (r : ApprovalRequest) (m : Moment) :
    (timedOut h r m).standing.isDecided = true := rfl

@[simp] theorem isDecided_decided (r : ApprovalRequest) (decision : DecisionValue) (decidedBy notes : Str)
    (m : Moment) : (decided h r decision decidedBy notes m).standing.isDecided = true := rfl

theorem undecided_of_isExpired {r : ApprovalRequest} {m : Moment} (hr : isExpired h r m = true) :
    r.standing = .undecided := by
  unfold isExpired at hr
  split at hr
  · simp only [Bool.and_eq_true, Option.isNone_iff_eq_none, decide_eq_true_eq] at hr
    unfold ApprovalRequest.standing
    rw [hr.1.1, if_neg hr.1.2]
  · cases hr

theorem standing_carry {existing : ApprovalRequest} (hd : existing.standing.isDecided = true)
    (r : ApprovalRequest) : (carry (some existing) r).standing = existing.standing := by
  obtain ⟨d, he⟩ := isDecided_iff.mp hd
  unfold carry ApprovalRequest.standing
  simp only [Option.bind_some, he]

theorem carry_undecided {existing : Option ApprovalRequest} (hd : standing existing = .undecided)
    (r : ApprovalRequest) : carry existing r = r := by
  cases existing with
  | none => rfl
  | some existing =>
    unfold carry
    cases he : existing.decision with
    | none => simp only [Option.bind_some, he]
    | some d =>
      have hdecided : existing.standing.isDecided = true := isDecided_iff.mpr ⟨d, he⟩
      change existing.standing = .undecided at hd
      rw [hd] at hdecided
      cases hdecided

theorem isDecided_carry {r : ApprovalRequest} (hr : r.standing.isDecided = true)
    (existing : Option ApprovalRequest) : (carry existing r).standing.isDecided = true := by
  unfold carry
  split
  · rfl
  · exact hr

theorem not_claims_done {outcome : Outcome} (ho : outcome.isDecision = false) :
    ¬ Claims seen (.done outcome) := by
  intro hc
  unfold Claims at hc
  split at hc
  next r he =>
    rw [Program.done.inj he] at ho
    cases ho
  next he => cases he
  · exact hc

theorem not_claims_none {program : Steps Outcome} : ¬ Claims none program := by
  intro hc
  cases program with
  | done outcome => exact hc
  | read next => exact hc
  | write value next => exact hc

def found (file : File) (m : Moment) : Option ApprovalRequest := file.map (fun r => r.reload h m)

@[simp] theorem standing_found (file : File) (m : Moment) :
    standing (found (h := h) file m) = standing file := by
  cases file with
  | none => rfl
  | some r => exact r.standing_reload m

theorem tame_getAt {f : Option ApprovalRequest × Moment → Steps Outcome}
    (hread : ∀ file m, Finds h call seen (.read fun _ _ => .done .created) file m →
      Tame h call (some file) (f (found (h := h) file m, m)) ∧
        ¬ Claims (some file) (f (found (h := h) file m, m)))
    (hexpired : ∀ stored m, Finds h call seen (.read fun _ _ => .done .created) (some stored) m →
      isExpired h (stored.reload h m) m = true →
      Tame h call (some (some (timedOut h (stored.reload h m) m)))
        (f (some (timedOut h (stored.reload h m) m), m))) :
    Tame h call seen ((getAt h).bind f) := by
  intro file m hfinds
  have hf : Finds h call seen (.read fun _ _ => .done .created) file m := by
    cases seen with
    | none => trivial
    | some seen => exact hfinds
  cases file with
  | none => exact hread none m hf
  | some stored =>
    simp only [expireIfNeeded]
    split_ifs with hout
    · -- The request has not been decided, so that no decision is lost.
      have hopen : standing (some stored) = .undecided := by
        have hr := undecided_of_isExpired hout
        rwa [ApprovalRequest.standing_reload] at hr
      refine ⟨⟨⟨_, rfl, fun hd => ?_⟩, hexpired stored m hf hout⟩, fun hc => ?_⟩
      · rw [hopen] at hd
        cases hd
      · have hd : (standing (some stored)).isDecided = true := hc.1
        rw [hopen] at hd
        cases hd
    · exact hread (some stored) m hf

theorem tame_createOrUpdate {r : ApprovalRequest} (outcome : ApprovalRequest → Outcome)
    (hread : ∀ file m, Finds h call seen (.read fun _ _ => .done .created) file m →
      Vouches (some (some (carry (found (h := h) file m) r))) (outcome (carry (found (h := h) file m) r)))
    (hexpired : ∀ stored m, Finds h call seen (.read fun _ _ => .done .created) (some stored) m →
      isExpired h (stored.reload h m) m = true →
      Vouches (some (some (carry (some (timedOut h (stored.reload h m) m)) r)))
        (outcome (carry (some (timedOut h (stored.reload h m) m)) r)))
    (hclaims : ∀ file m, Finds h call seen (.read fun _ _ => .done .created) file m →
      (standing file).isDecided = true → ∀ r, ¬ Claims (some (some r)) (.done (outcome r))) :
    Tame h call seen ((createOrUpdate h r).bind (fun r => .done (outcome r))) := by
  have hcode : (createOrUpdate h r).bind (fun r => .done (outcome r)) =
      (getAt h).bind (fun existing => .write (some (carry existing.1 r))
        (.done (outcome (carry existing.1 r)))) := by
    unfold createOrUpdate getAt
    simp only [Program.bind]
    congr 1
    funext file m
    cases file with
    | none => rfl
    | some stored =>
      simp only [expireIfNeeded]
      split_ifs
      · rfl
      · rfl
  rw [hcode]
  apply tame_getAt
  · intro file m hf
    refine ⟨⟨⟨file, rfl, fun hd => ?_⟩, hread file m hf⟩, fun hc => ?_⟩
    · -- The decision in the file is carried over.
      cases file with
      | none => cases hd
      | some stored =>
        have hstored : (stored.reload h m).standing.isDecided = true := by
          rw [ApprovalRequest.standing_reload]
          exact hd
        change (carry (some (stored.reload h m)) r).standing = stored.standing
        rw [standing_carry hstored, ApprovalRequest.standing_reload]
    · exact hclaims file m hf hc.1 _ hc.2
  · intro stored m hf hout
    refine ⟨⟨_, rfl, fun _ => ?_⟩, hexpired stored m hf hout⟩
    exact standing_carry (isDecided_timedOut _ _) r

theorem tame_merges {r : ApprovalRequest} (outcome : ApprovalRequest → Outcome)
    (hv : ∀ s r, Vouches s (outcome r)) (hc : ∀ r s, ¬ Claims s (.done (outcome r))) :
    Tame h call seen ((createOrUpdate h r).bind (fun r => .done (outcome r))) :=
  tame_createOrUpdate outcome (fun _ _ _ => hv _ _) (fun _ _ _ _ => hv _ _) (fun _ _ _ _ r => hc r _)

theorem tame_getAt_all {f : Option ApprovalRequest × Moment → Steps Outcome}
    (hf : ∀ seen x, Tame h call (some seen) (f x) ∧ ¬ Claims (some seen) (f x)) :
    Tame h call none ((getAt h).bind f) :=
  tame_getAt (fun _ _ _ => hf _ _) (fun _ _ _ _ => (hf _ _).1)

theorem undecided_of_mayDecide {r : ApprovalRequest} {decidedBy : Str}
    (hr : mayDecide decidedBy r = .ok ()) : r.standing = .undecided := by
  unfold mayDecide at hr
  unfold ApprovalRequest.standing
  cases hd : r.decision with
  | some d =>
    rw [hd] at hr
    cases hr
  | none =>
    rw [hd] at hr
    simp only at hr ⊢
    by_cases hs : r.status = .cancelled
    · rw [if_pos hs] at hr
      cases hr
    · rw [if_neg hs]

theorem tame_decide (decision : DecisionValue) (decidedBy notes : Str) :
    Tame h (.decide decision decidedBy notes) none
      ((Approvals.decide h decision decidedBy notes).bind (fun result => .done (.decided result))) := by
  -- What is written has been decided, and is what the call returns.
  have hvouches : ∀ existing r m, Vouches
      (some (some (carry existing (decided h r decision decidedBy notes m))))
      (.decided (.ok (carry existing (decided h r decision decidedBy notes m)))) :=
    fun existing r m => ⟨isDecided_carry (isDecided_decided r decision decidedBy notes m) existing, _, rfl, rfl⟩
  have hrest : ∀ (seen : File) r m, standing seen = .undecided →
      Tame h (.decide decision decidedBy notes) (some seen)
        ((createOrUpdate h (decided h r decision decidedBy notes m)).bind
          (fun r => .done (.decided (.ok r)))) := by
    intro seen r m hseen
    apply tame_createOrUpdate (fun r => .decided (.ok r))
    · exact fun file m' _ => hvouches _ r m
    · exact fun stored m' _ _ => hvouches _ r m
    · -- Nothing has been decided when the call looks again.
      intro file m' hf hd
      rcases hf.1 with hsame | ⟨hmerges, -⟩
      · rw [hsame, hseen] at hd
        cases hd
      · cases hmerges
  unfold Approvals.decide
  rw [Program.bind_assoc]
  apply tame_getAt
  · intro file m _
    cases file with
    | none => exact ⟨trivial, fun hc => hc⟩
    | some stored =>
      simp only [show found (some stored) m = some (stored.reload h m) from rfl]
      cases hmay : mayDecide decidedBy (stored.reload h m) with
      | error refusal => exact ⟨trivial, fun hc => hc⟩
      | ok u =>
        have hopen := undecided_of_mayDecide hmay
        rw [ApprovalRequest.standing_reload] at hopen
        rw [Program.bind_assoc]
        exact ⟨hrest (some stored) _ m hopen, fun hc => hc⟩
  · -- The call refuses what it has found to run out.
    intro stored m _ _
    exact trivial

theorem tame_cancel (reason : Str) : Tame h (.cancel reason) none
    ((Approvals.cancel h reason).bind (fun result => .done (.cancelled result))) := by
  have hrest : ∀ (seen : File) (r : ApprovalRequest), standing seen = .undecided → r.decision = none →
      Tame h (.cancel reason) (some seen)
        ((createOrUpdate h { r with status := .cancelled, cancelledReason := some reason }).bind
          (fun _ => .done (.cancelled true))) := by
    intro seen r hseen hnone
    apply tame_createOrUpdate (fun _ => .cancelled true)
    · -- The file still says nothing, so that the cancellation is what is written.
      intro file m hf
      have hopen : standing (found (h := h) file m) = .undecided := by
        rw [standing_found]
        rcases hf.1 with hsame | ⟨hmerges, -⟩
        · rw [hsame, hseen]
        · cases hmerges
      rw [carry_undecided hopen]
      refine ⟨_, rfl, ?_⟩
      change ApprovalRequest.standing _ = _
      unfold ApprovalRequest.standing
      rw [hnone]
      rfl
    · intro stored m hf hout
      have hruns : runsOut h (some stored) m = false := hf.2 rfl
      change isExpired h (stored.reload h m) m = false at hruns
      rw [hout] at hruns
      cases hruns
    · exact fun _ _ _ _ _ => not_claims_done rfl
  unfold Approvals.cancel
  rw [Program.bind_assoc]
  apply tame_getAt
  · intro file m _
    cases file with
    | none => exact ⟨trivial, fun hc => hc⟩
    | some stored =>
      change Tame h _ _ (Program.bind (if (stored.reload h m).status ≠ .pending then _ else _) _) ∧
        ¬ Claims _ (Program.bind (if (stored.reload h m).status ≠ .pending then _ else _) _)
      by_cases hs : (stored.reload h m).status ≠ .pending
      · rw [if_pos hs]
        exact ⟨trivial, fun hc => hc⟩
      · rw [if_neg hs, Program.bind_assoc]
        -- A pending request has no decision.
        have hpending : (stored.reload h m).status = .pending := not_not.mp hs
        have hnone : (stored.reload h m).decision = none := by
          unfold ApprovalRequest.reload at hpending ⊢
          cases hd : stored.decision with
          | none => simp only [Option.map_none]
          | some d => simp [hd] at hpending
        have hopen : stored.standing = .undecided := by
          rw [← ApprovalRequest.standing_reload (h := h) m]
          unfold ApprovalRequest.standing
          rw [hnone, hpending]
          rfl
        exact ⟨hrest (some stored) _ hopen hnone, fun hc => hc⟩
  · -- What runs out is decided, and no longer pending.
    intro stored m _ _
    exact trivial

theorem tame_code (call : Call) : Tame h call none (call.code h) := by
  cases call with
  | createOrUpdate r =>
    exact tame_merges (fun _ => .created) (fun _ _ => trivial) (fun _ _ => not_claims_done rfl)
  | get =>
    apply tame_getAt
    · exact fun file m _ => ⟨trivial, fun hc => hc⟩
    · exact fun stored m _ _ => trivial
  | decide decision decidedBy notes => exact tame_decide decision decidedBy notes
  | cancel reason => exact tame_cancel reason
  | markWaiting pid =>
    change Tame h _ _ ((Approvals.markWaiting h pid).bind (fun _ => .done .marked))
    unfold Approvals.markWaiting
    rw [Program.bind_assoc]
    apply tame_getAt_all
    intro seen x
    cases hx : x.1 with
    | none => exact ⟨trivial, fun hc => hc⟩
    | some r =>
      simp only [Program.bind_assoc]
      exact ⟨tame_merges (fun _ => .marked) (fun _ _ => trivial) (fun _ _ => not_claims_done rfl),
        fun hc => hc⟩
  | claimResume pid =>
    change Tame h _ _ ((Approvals.claimResume h pid).bind (fun r => .done (.claimed r)))
    unfold Approvals.claimResume
    rw [Program.bind_assoc]
    apply tame_getAt_all
    intro seen x
    cases hx : x.1 with
    | none => exact ⟨trivial, fun hc => hc⟩
    | some r =>
      simp only
      split
      · exact ⟨trivial, fun hc => hc⟩
      · rw [Program.bind_assoc]
        exact ⟨tame_merges (fun r => .claimed (some r)) (fun _ _ => trivial)
          (fun _ _ => not_claims_done rfl), fun hc => hc⟩
  | releaseResume =>
    change Tame h _ _ ((Approvals.releaseResume h).bind (fun _ => .done .released))
    unfold Approvals.releaseResume
    rw [Program.bind_assoc]
    apply tame_getAt_all
    intro seen x
    cases hx : x.1 with
    | none => exact ⟨trivial, fun hc => hc⟩
    | some r =>
      simp only [Program.bind_assoc]
      exact ⟨tame_merges (fun _ => .released) (fun _ _ => trivial) (fun _ _ => not_claims_done rfl),
        fun hc => hc⟩

end Calls

/-! Every run. -/
section Runs
variable {h : Host} {p : Calls}

theorem tame_done {call : Call} {seen : Option File} {program : Steps Outcome} {outcome : Outcome}
    (ht : Tame h call seen program) (hp : program = .done outcome) : Vouches seen outcome := by
  rw [hp] at ht
  exact ht

theorem isDecided_of_claims {call : Call} {file : File} {program : Steps Outcome}
    (ht : Tame h call (some file) program) (hc : Claims (some file) program) :
    (standing file).isDecided = true := by
  cases program with
  | done outcome =>
    cases outcome with
    | decided result =>
      cases result with
      | ok r =>
        obtain ⟨hr, seen, hseen, hstanding⟩ := ht
        rw [Option.some.inj hseen, hstanding]
        exact hr
      | error refusal => exact absurd hc (not_claims_done rfl)
    | _ => exact absurd hc (not_claims_done rfl)
  | read next => exact absurd hc (fun hc => hc)
  | write value next => exact hc.1

theorem Vouches.mono {file file' : File} {outcome : Outcome} (hv : Vouches (some file) outcome)
    (hsame : standing file ≠ .undecided → standing file' = standing file) :
    Vouches (some file') outcome := by
  cases outcome with
  | decided result =>
    cases result with
    | error refusal => trivial
    | ok r =>
      obtain ⟨hr, seen, hseen, hstanding⟩ := hv
      rw [← Option.some.inj hseen] at hstanding
      refine ⟨hr, file', rfl, ?_⟩
      rw [hsame (by rw [hstanding]; exact Standing.ne_undecided hr), hstanding]
  | cancelled result =>
    cases result with
    | false => trivial
    | true =>
      obtain ⟨seen, hseen, hstanding⟩ := hv
      rw [← Option.some.inj hseen] at hstanding
      refine ⟨file', rfl, ?_⟩
      rw [hsame (by rw [hstanding]; exact Standing.noConfusion), hstanding]
  | _ => trivial

theorem Undisturbed.finds {i : ℕ} {m : Moment} (ha : Undisturbed h p (.steps i m))
    {t : Thread Call File Moment Outcome} (ht : p.threads[i]? = some t) :
    Finds h t.call t.seen t.program p.cell m := by
  unfold Undisturbed at ha
  simp only [ht] at ha
  exact ha

/-- Every thread's outcome is borne out by the file, and at most one thread has decided or is
about to report that it did. -/
structure Sound (h : Host) (p : Calls) : Prop where
  returned : ∀ t ∈ p.threads, ∀ outcome, t.program = .done outcome → Vouches (some p.cell) outcome
  tame : ∀ t ∈ p.threads, Tame h t.call t.seen t.program
  claims : ∀ t ∈ p.threads, Claims t.seen t.program → (standing p.cell).isDecided = true
  single : ∀ (i j : ℕ) t t', p.threads[i]? = some t → p.threads[j]? = some t' →
    Claims t.seen t.program → Claims t'.seen t'.program → i = j

/-- A standing that is decided or cancelled survives every undisturbed step. -/
theorem standing_act (hp : Sound h p) {a : Act Call Moment} (ha : Undisturbed h p a)
    (hfinal : standing p.cell ≠ .undecided) : standing (p.act (Call.code h) a).cell = standing p.cell := by
  rcases p.cell_act (Call.code h) a with hsame | ⟨i, m, t, value, next, rfl, ht, hprogram, hcell⟩
  · rw [hsame]
  · rw [hcell]
    have htame := hp.tame t (List.mem_of_getElem? ht)
    have hfinds := ha.finds ht
    rw [hprogram] at htame hfinds
    obtain ⟨⟨seen, hseen, hrespects⟩, -⟩ := htame
    rw [hseen] at hfinds
    obtain ⟨hsame, hcancelled⟩ := hfinds
    -- The file is as the call saw it last, and the call respects what it saw.
    cases hs : standing p.cell with
    | undecided => exact absurd hs hfinal
    | cancelled => exact hcancelled hs
    | decided decision decidedBy notes =>
      rw [hs] at hsame
      rw [hrespects (by rw [← hsame]; rfl), hsame]

theorem advance_spec {t : Thread Call File Moment Outcome} {file : File} {m : Moment}
    (ht : Tame h t.call t.seen t.program) (hf : Finds h t.call t.seen t.program file m) :
    Tame h (t.advance file m).2.call (t.advance file m).2.seen (t.advance file m).2.program ∧
    (Claims (t.advance file m).2.seen (t.advance file m).2.program → Claims t.seen t.program ∨
      ((standing (t.advance file m).1).isDecided = true ∧ (standing file).isDecided = false)) := by
  cases hprogram : t.program with
  | done outcome =>
    rw [Thread.advance_done hprogram]
    exact ⟨ht, fun hc => .inl (by rwa [hprogram] at hc)⟩
  | read next =>
    rw [Thread.advance_read hprogram]
    rw [hprogram] at ht hf
    obtain ⟨htame, hclaims⟩ := ht file m hf
    exact ⟨htame, fun hc => absurd hc hclaims⟩
  | write value next =>
    rw [Thread.advance_write hprogram]
    rw [hprogram] at ht hf
    obtain ⟨⟨seen, hseen, -⟩, htame⟩ := ht
    refine ⟨htame, fun hc => ?_⟩
    have hvalue := isDecided_of_claims htame hc
    rw [hseen] at hf ⊢
    cases hd : (standing seen).isDecided with
    | true => exact .inl ⟨hd, hc⟩
    | false =>
      right
      exact ⟨hvalue, by rw [hf.1, hd]⟩

/-- A thread claims a decision after a step only when it did so before, or its own step has just
taken the file from undecided to decided. -/
theorem claims_act (hp : Sound h p) {a : Act Call Moment} (ha : Undisturbed h p a) {j : ℕ}
    {t : Thread Call File Moment Outcome} (ht : (p.act (Call.code h) a).threads[j]? = some t) :
    Tame h t.call t.seen t.program ∧ (Claims t.seen t.program →
      (∃ t₀, p.threads[j]? = some t₀ ∧ Claims t₀.seen t₀.program) ∨
      (∃ m, a = .steps j m) ∧ (standing (p.act (Call.code h) a).cell).isDecided = true ∧
        (standing p.cell).isDecided = false) := by
  rcases Pool.getElem?_act ht with hold | ⟨call, rfl, rfl, -⟩ | ⟨m, t₀, rfl, ht₀, rfl⟩
  · exact ⟨hp.tame t (List.mem_of_getElem? hold), fun hc => .inl ⟨t, hold, hc⟩⟩
  · exact ⟨tame_code call, fun hc => absurd hc not_claims_none⟩
  · obtain ⟨htame, hclaims⟩ := advance_spec (hp.tame t₀ (List.mem_of_getElem? ht₀)) (ha.finds ht₀)
    refine ⟨htame, fun hc => ?_⟩
    rcases hclaims hc with hbefore | ⟨hafter, hopen⟩
    · exact .inl ⟨t₀, ht₀, hbefore⟩
    · rw [Pool.act_steps ht₀]
      exact .inr ⟨⟨m, rfl⟩, hafter, hopen⟩

theorem vouches_advance {t : Thread Call File Moment Outcome} {file : File} {m : Moment} {outcome : Outcome}
    (hdone : ∀ outcome, t.program = .done outcome → Vouches (some file) outcome)
    (ht : Tame h (t.advance file m).2.call (t.advance file m).2.seen (t.advance file m).2.program)
    (ho : (t.advance file m).2.program = .done outcome) : Vouches (some (t.advance file m).1) outcome := by
  cases hprogram : t.program with
  | done result =>
    rw [Thread.advance_done hprogram] at ho ⊢
    exact hdone outcome ho
  | read next =>
    rw [Thread.advance_read hprogram] at ht ho ⊢
    exact tame_done ht ho
  | write value next =>
    rw [Thread.advance_write hprogram] at ht ho ⊢
    exact tame_done ht ho

theorem Sound.act (hp : Sound h p) {a : Act Call Moment} (ha : Undisturbed h p a) :
    Sound h (p.act (Call.code h) a) := by
  constructor
  · intro t ht outcome ho
    obtain ⟨j, hj⟩ := List.mem_iff_getElem?.mp ht
    have htame := (claims_act hp ha hj).1
    rcases Pool.getElem?_act hj with hold | ⟨call, -, rfl, -⟩ | ⟨m, t₀, rfl, ht₀, rfl⟩
    · exact (hp.returned t (List.mem_of_getElem? hold) outcome ho).mono (standing_act hp ha)
    · -- A new call has seen nothing, and vouches for nothing.
      have hv := tame_done htame ho
      cases outcome with
      | decided result =>
        cases result with
        | ok r =>
          obtain ⟨-, file, hnone, -⟩ := hv
          cases hnone
        | error refusal => trivial
      | cancelled result =>
        cases result with
        | true =>
          obtain ⟨file, hnone, -⟩ := hv
          cases hnone
        | false => trivial
      | _ => trivial
    · rw [Pool.act_steps ht₀]
      exact vouches_advance (hp.returned t₀ (List.mem_of_getElem? ht₀)) htame ho
  · intro t ht
    obtain ⟨j, hj⟩ := List.mem_iff_getElem?.mp ht
    exact (claims_act hp ha hj).1
  · intro t ht hc
    obtain ⟨j, hj⟩ := List.mem_iff_getElem?.mp ht
    rcases (claims_act hp ha hj).2 hc with ⟨t₀, ht₀, hc₀⟩ | ⟨-, hd, -⟩
    · have hd := hp.claims t₀ (List.mem_of_getElem? ht₀) hc₀
      rw [standing_act hp ha (Standing.ne_undecided hd)]
      exact hd
    · exact hd
  · -- Of two calls, one at most has just decided, and then no call had decided before.
    intro i j t t' hi hj hc hc'
    rcases (claims_act hp ha hi).2 hc with ⟨t₀, ht₀, hc₀⟩ | ⟨⟨m, hm⟩, -, hopen⟩
    · rcases (claims_act hp ha hj).2 hc' with ⟨t₁, ht₁, hc₁⟩ | ⟨-, -, hopen⟩
      · exact hp.single i j t₀ t₁ ht₀ ht₁ hc₀ hc₁
      · rw [hp.claims t₀ (List.mem_of_getElem? ht₀) hc₀] at hopen
        cases hopen
    · rcases (claims_act hp ha hj).2 hc' with ⟨t₁, ht₁, hc₁⟩ | ⟨⟨m', hm'⟩, -, -⟩
      · rw [hp.claims t₁ (List.mem_of_getElem? ht₁) hc₁] at hopen
        cases hopen
      · rw [hm] at hm'
        exact (Act.steps.inj hm').1

theorem sound_idle (file : File) : Sound h ⟨file, []⟩ :=
  ⟨fun _ ht => absurd ht List.not_mem_nil, fun _ ht => absurd ht List.not_mem_nil,
    fun _ ht => absurd ht List.not_mem_nil, fun _ _ _ _ hi => absurd hi (by simp)⟩

theorem claims_of_decided {t : Thread Call File Moment Outcome} {r : ApprovalRequest}
    (ht : Tame h t.call t.seen t.program) (hr : t.program = .done (.decided (.ok r))) :
    Claims t.seen t.program := by
  obtain ⟨-, file, hseen, -⟩ := tame_done ht hr
  rw [hseen, hr]
  trivial

theorem standing_readBack {file : File} {s : Standing} (hs : standing file = s) (hd : s.isDecided = true)
    (m : Moment) : (readBack h file m).map ApprovalRequest.standing = some s := by
  cases file with
  | none =>
    rw [← hs] at hd
    cases hd
  | some stored =>
    have hstored : (stored.reload h m).standing = s := by
      rw [ApprovalRequest.standing_reload]
      exact hs
    -- What has been decided does not run out.
    have hout : isExpired h (stored.reload h m) m = false := by
      by_contra he
      rw [Bool.not_eq_false] at he
      rw [undecided_of_isExpired he] at hstored
      rw [← hstored] at hd
      cases hd
    unfold readBack getAt expireIfNeeded
    simp only [Program.alone_read, hout, Bool.false_eq_true, if_false, Program.bind, Program.alone_done,
      Option.map_some, hstored]

end Runs

/-- What a call has decided or cancelled is final, in every run in which no call is disturbed
between its steps. -/
theorem decisions_final (h : Host) (file : File) (before later : List (Act Call Moment))
    (hrun : Guarded.Along (Pool.act (Call.code h)) (Undisturbed h) ⟨file, []⟩ (before ++ later)) :
    Final h (runCalls h ⟨file, []⟩ before) (runCalls h ⟨file, []⟩ (before ++ later)) := by
  obtain ⟨hbefore, hlater⟩ := Guarded.along_append.mp hrun
  have hstep : ∀ p a, Sound h p → Undisturbed h p a → Sound h (p.act (Call.code h) a) :=
    fun p a hp ha => hp.act ha
  have hmid : Sound h (runCalls h ⟨file, []⟩ before) := hbefore.invariant hstep (sound_idle file)
  have happend : runCalls h ⟨file, []⟩ (before ++ later) =
      later.foldl (Pool.act (Call.code h)) (runCalls h ⟨file, []⟩ before) := List.foldl_append
  rw [happend]
  change Guarded.Along _ _ (runCalls h ⟨file, []⟩ before) later at hlater
  generalize runCalls h ⟨file, []⟩ before = p at hmid hlater ⊢
  have hend : Sound h (later.foldl (Pool.act (Call.code h)) p) := hlater.invariant hstep hmid
  -- What the file says for good, it says at the end.
  have hstays : standing p.cell ≠ .undecided →
      standing (later.foldl (Pool.act (Call.code h)) p).cell = standing p.cell := by
    intro hfinal
    have hkept := hlater.invariant (I := fun q => Sound h q ∧ standing q.cell = standing p.cell)
      (fun q a hq ha => ⟨hq.1.act ha, by rw [standing_act hq.1 ha (by rwa [hq.2]), hq.2]⟩) ⟨hmid, rfl⟩
    exact hkept.2
  constructor
  · intro t ht r hr
    obtain ⟨hd, q, hq, hs⟩ := hmid.returned t ht _ hr
    rw [← Option.some.inj hq] at hs
    have hcell := hstays (by rw [hs]; exact Standing.ne_undecided hd)
    rw [hs] at hcell
    exact ⟨hd, hcell, fun m => standing_readBack hcell hd m⟩
  · intro i j t t' r r' hi hj hr hr'
    apply hend.single i j t t' hi hj
    · exact claims_of_decided (hend.tame t (List.mem_of_getElem? hi)) hr
    · exact claims_of_decided (hend.tame t' (List.mem_of_getElem? hj)) hr'
  · intro t ht hr
    obtain ⟨q, hq, hs⟩ := hmid.returned t ht _ hr
    rw [← Option.some.inj hq] at hs
    rw [hstays (by rw [hs]; exact Standing.noConfusion), hs]

/-! A request that waits while it is decided. -/
section Examples

def returnedRequest (t : Thread Call File Moment Outcome) : Option ApprovalRequest :=
  match t.program with
  | .done (.decided (.ok r)) => some r
  | _ => none

theorem program_of_returnedRequest {t : Thread Call File Moment Outcome} {r : ApprovalRequest}
    (ht : returnedRequest t = some r) : t.program = .done (.decided (.ok r)) := by
  unfold returnedRequest at ht
  split at ht
  next r' he => rw [he, Option.some.inj ht]
  · cases ht

def exampleHost : Host where
  isAlnum c := (48 ≤ c && c ≤ 57) || (65 ≤ c && c ≤ 90) || (97 ≤ c && c ≤ 122)
  stamp _ := text "2026-07-01T12:00:00.000+00:00"
  parse s := if s = text "2026-07-01T12:00:00.000+00:00" then some 0 else none
  float _ := text "60.0"

def noon : Moment := ⟨0, fun _ => true⟩

def exampleRequest : ApprovalRequest :=
  { workflowId := text "deploy", runId := text "run-1", nodeId := text "gate", message := text "Ship it?",
    requestedAt := text "2026-07-01T12:00:00.000+00:00" }

def approvedWhileMarked : List (Act Call Moment) :=
  [.starts (.createOrUpdate exampleRequest), .steps 0 noon, .steps 0 noon,
    .starts (.markWaiting 7), .steps 1 noon, .steps 1 noon,
    .starts (.decide .approved (text "ui") []), .steps 2 noon, .steps 2 noon, .steps 2 noon]

/-- The approval is gone once the gate has written what it read. -/
theorem approval_lost : ¬ Final exampleHost (runCalls exampleHost ⟨none, []⟩ approvedWhileMarked)
    (runCalls exampleHost ⟨none, []⟩ (approvedWhileMarked ++ [.steps 1 noon])) := by
  intro hfinal
  have hreturned : (((runCalls exampleHost ⟨none, []⟩ approvedWhileMarked).threads[2]?).bind
      returnedRequest).isSome = true := by decide +kernel
  have hcell : standing (runCalls exampleHost ⟨none, []⟩
      (approvedWhileMarked ++ [.steps 1 noon])).cell = .undecided := by decide +kernel
  obtain ⟨r, hr⟩ := Option.isSome_iff_exists.mp hreturned
  obtain ⟨t, ht, htr⟩ := Option.bind_eq_some_iff.mp hr
  obtain ⟨hd, hstored, -⟩ := hfinal.decided t (List.mem_of_getElem? ht) r (program_of_returnedRequest htr)
  rw [hcell] at hstored
  exact Standing.ne_undecided hd hstored.symm

/-- The gate marks itself as waiting again after the approval. -/
theorem approval_kept : Final exampleHost (runCalls exampleHost ⟨none, []⟩
      (approvedWhileMarked.take 3 ++ [.starts (.decide .approved (text "ui") []), .steps 1 noon,
        .steps 1 noon, .steps 1 noon]))
    (runCalls exampleHost ⟨none, []⟩
      ((approvedWhileMarked.take 3 ++ [.starts (.decide .approved (text "ui") []), .steps 1 noon,
        .steps 1 noon, .steps 1 noon]) ++
        [.starts (.markWaiting 7), .steps 2 noon, .steps 2 noon, .steps 2 noon])) :=
  decisions_final exampleHost none _ _ (by decide +kernel)

end Examples

end Raticode.Approvals
