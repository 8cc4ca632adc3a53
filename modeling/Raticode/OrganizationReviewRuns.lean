import Raticode.OrganizationBlockRuns
import Raticode.OrganizationReview

/-! Reviews over the runs of an organization: as long as no accepted work is started again and no
check-in that needs a review closes itself, whatever is done was accepted as it stands. -/
namespace Raticode.Organizations
open PyDocument OrderedDict MarkedList Guarded

def KeepsReview (t t' : Task) : Prop :=
  ∀ (v : Mover) (i : ℕ) (m : Marks), Reviewed t m → Reviewed t' ((watch v none).seen i t t' m)

def Recorded (w : World) : Prop :=
  ∀ key occ, w.org.occurrences.get key = some occ → ∃ t m, w.kept.get key = some (t, m) ∧
    occ = occurrenceOf occ.at' t ∧ (t.reviewRequired = true → Fresh t m)

structure FreshlyReviewed (w : World) : Prop where
  tasks : Every Reviewed w.org.tasks w.marks
  recorded : Recorded w

section Changes

variable {t t' : Task}

theorem Continues.keepsReview (h : Continues t t') : KeepsReview t t' :=
  fun _ _ _ hr => hr.continues h

theorem Unaccepted.keepsReview (h : Unaccepted t') : KeepsReview t t' :=
  fun _ _ _ _ => h.reviewed _

theorem KeepsReview.refl (t : Task) : KeepsReview t t := (Continues.refl t).keepsReview

theorem Reviewed.of_free {m : Marks} (h : t.reviewRequired = false) : Reviewed t m := by
  constructor <;> simp [h]

theorem claimTask_keepsReview {run : Str} {reserved : ℤ}
    (hnone : t.reviewRequired = true → t.acceptedRevision = none) :
    KeepsReview t (claimTask run reserved t) := by
  cases hr : t.reviewRequired with
  | false => exact fun _ _ _ _ => Reviewed.of_free hr
  | true =>
    apply Unaccepted.keepsReview
    exact ⟨hnone hr, fun _ => by simp [claimTask]⟩

theorem addArtifact_keepsReview (a : Artifact) (t : Task) : KeepsReview t (addArtifact a t) := by
  apply Unaccepted.keepsReview
  refine ⟨rfl, fun _ => ?_⟩
  by_cases hd : t.status = .done
  · simp [addArtifact, hd]
  · simp [addArtifact, hd]

end Changes

section Steps

variable {w : World} {i : ℕ} {v : Mover} {a : Option (ℕ × Actor)} {org : Org}
  {R : ℕ → Task → Task → Prop} {N : Task → Prop}

theorem FreshlyReviewed.become (hw : FreshlyReviewed w) (he : Evolves R N w.org.tasks org.tasks)
    (hocc : org.occurrences = w.org.occurrences)
    (hR : ∀ j t t', R j t t' → Reviewed t (w.marks j) →
      Reviewed t' ((watch v a).seen j t t' (w.marks j)))
    (hN : ∀ t, N t → Unaccepted t) : FreshlyReviewed (w.become v a org) := by
  constructor
  · exact Every.follow hw.tasks he hR (fun t ht => (hN t ht).reviewed _)
  · intro key occ hkey
    apply hw.recorded key occ
    rw [← hocc]
    exact hkey

theorem FreshlyReviewed.one {t t' : Task} (hw : FreshlyReviewed w) (ht : w.org.tasks[i]? = some t)
    (horg : org.tasks = (w.org.set i t').tasks) (hocc : org.occurrences = w.org.occurrences)
    (hkeeps : KeepsReview t t') : FreshlyReviewed (w.become v none org) := by
  refine hw.become (N := fun _ => False) (Org.evolves_set ht horg) hocc ?_ (fun _ h => h.elim)
  rintro j u u' (⟨-, rfl, rfl⟩ | rfl) hr
  · exact hkeeps v j _ hr
  · exact KeepsReview.refl _ v j _ hr

theorem FreshlyReviewed.sweep (hw : FreshlyReviewed w) {f : Task → Task}
    (horg : org.tasks = w.org.tasks) (hocc : org.occurrences = w.org.occurrences)
    (hf : ∀ t, Continues t (f t)) : FreshlyReviewed (w.sweep org f) := by
  have he : Evolves (fun _ t t' => t' = f t) (fun _ => False) w.org.tasks (org.map f).tasks :=
    Org.evolves_map (congrArg (List.map f) horg)
  apply hw.become he hocc
  · rintro j t t' rfl hr
    exact hr.continues (hf t)
  · exact fun _ h => h.elim

theorem FreshlyReviewed.add {t : Task} (hw : FreshlyReviewed w) (ht : Unaccepted t) (org : Org)
    (horg : org.tasks = w.org.tasks ++ [t]) (hocc : org.occurrences = w.org.occurrences) :
    FreshlyReviewed (w.become v none org) := by
  apply hw.become (Org.evolves_add horg) hocc
  · rintro j u u' rfl hr
    exact KeepsReview.refl _ v j _ hr
  · rintro u rfl
    exact ht

theorem FreshlyReviewed.unblock (hw : FreshlyReviewed w) : FreshlyReviewed w.unblock := by
  have he : Evolves (fun _ u u' => u' = unblockTask (finished w.org.tasks) u) (fun _ => False)
      w.org.tasks w.org.unblock.tasks := Org.evolves_map rfl
  apply hw.become he rfl
  · rintro j t t' rfl hr
    exact hr.continues (unblockTask_continues _ t)
  · exact fun _ h => h.elim

theorem FreshlyReviewed.cascade (hw : FreshlyReviewed w) (id : Str) :
    FreshlyReviewed (w.become .raticode none (w.org.cascade id)) := by
  have he : Evolves (fun _ u u' => u' = u ∨ u' = cancelChild u) (fun _ => False) w.org.tasks
      (w.org.cascade id).tasks := by
    apply Evolves.map
    intro i u
    split_ifs
    · exact .inr rfl
    · exact .inl rfl
  apply hw.become he rfl
  · rintro j t t' (rfl | rfl) hr
    · exact KeepsReview.refl _ _ j _ hr
    · exact hr.continues (cancelChild_continues t)
  · exact fun _ h => h.elim

theorem FreshlyReviewed.record {now : ℚ} {t : Task} (hw : FreshlyReviewed w)
    (ht : w.org.tasks[i]? = some t) (hdone : t.status = .done) :
    FreshlyReviewed (w.record now i t) := by
  constructor
  · exact hw.tasks
  · intro key occ hkey
    simp only [World.record, Org.recordOccurrence] at hkey ⊢
    rw [Dict.get_set] at hkey ⊢
    split_ifs at hkey ⊢ with hk
    · cases hkey
      refine ⟨t, w.marks i, rfl, rfl, fun hr => ?_⟩
      have hreviewed := hw.tasks i t ht
      exact hreviewed.fresh hr (hreviewed.done hr hdone)
    · exact hw.recorded key occ hkey

theorem FreshlyReviewed.settle {now : ℚ} {actor : Actor} {call : TaskCall} {t : Task}
    (hw : FreshlyReviewed w) (ht : w.org.tasks[i]? = some t) :
    FreshlyReviewed (w.settle now actor call i t) := by
  obtain ⟨repeated, hrepeated, hr⟩ : ∃ w', w' = (if !call.isComment && recurs t &&
      !t.isClaimed then (w.record now i t).become .raticode none
        ((w.record now i t).org.set i (restarted now actor t)) else w) ∧ FreshlyReviewed w' := by
    refine ⟨_, rfl, ?_⟩
    split_ifs with hc
    · have hdone : t.status = .done := by
        simp only [recurs, Bool.and_eq_true, decide_eq_true_eq] at hc
        exact hc.1.2.1.1
      exact (hw.record ht hdone).one ht rfl rfl (restarted_continues t).keepsReview
    · exact hw
  obtain ⟨cascaded, hcascaded, hc⟩ : ∃ w', w' = (if t.status = .cancelled then
      repeated.become .raticode none (repeated.org.cascade t.id) else repeated) ∧
      FreshlyReviewed w' := by
    refine ⟨_, rfl, ?_⟩
    split_ifs
    · exact hr.cascade t.id
    · exact hr
  have hlast : w.settle now actor call i t = cascaded.unblock := by
    rw [hcascaded, hrepeated]
    rfl
  rw [hlast]
  exact hc.unblock

end Steps

/-! ### Runs -/

def startsUnaccepted (w : World) (step : ℚ × Step) : Bool :=
  match step.2 with
  | .claim i _ _ => (w.org.tasks[i]?).all (fun t => !t.reviewRequired || t.acceptedRevision.isNone)
  | .finish taskId o => (w.org.find taskId).all (fun (_, t) => !t.reviewRequired || !o.closes t)
  | _ => true

section Runs

variable {h : Host} {w : World}

theorem seen_other {v : Mover} {call : TaskCall} {i j : ℕ} {actor : Actor} {t t' : Task} {m : Marks}
    (hj : j ≠ i) :
    (watch v (accepts call i actor)).seen j t t' m = (watch v none).seen j t t' m := by
  cases hc : accepts call i actor with
  | none => rfl
  | some found =>
    obtain ⟨k, b⟩ := found
    have hk : k = i := by
      simp only [accepts] at hc
      split at hc <;> simp_all
    simp [watch, hk, hj]

theorem changeTask_reviewed {now : ℚ} {v : Mover} {i : ℕ} {actor : Actor} {call : TaskCall}
    {t t' : Task} {m : Marks} (hok : changeTask h now w.org i actor call t = .ok t')
    (hconsent : (decide (actor = .rem) && (consentReason call t).isSome) = false)
    (hr : Reviewed t m) : Reviewed t' ((watch v (accepts call i actor)).seen i t t' m) := by
  rcases changeTask_review hok with ⟨hcont, hnone⟩ | hnone | ⟨haccepts, hsame, hidle, hsome, hjudges⟩
  · rw [hnone]
    exact hr.continues hcont
  · exact hnone.reviewed _
  · refine ⟨fun _ _ => hsome, fun _ hc => ?_, fun hrequired _ => ?_⟩
    · rw [hidle] at hc
      contradiction
    · refine ⟨actor, by simp [watch, haccepts], hjudges fun hrem => ?_⟩
      -- The acceptance of Rem waits for the user where a review is needed.
      rw [hsame] at hrequired
      cases call with
      | review expectedRevision decision body =>
        cases decision <;> simp_all [accepts, consentReason]
      | _ => simp [accepts] at haccepts

theorem FreshlyReviewed.call {now : ℚ} {caller : Caller} {taskId : Str} {call : TaskCall}
    (hw : FreshlyReviewed w) : FreshlyReviewed (w.call h now caller taskId call) := by
  cases hf : w.org.find taskId with
  | none =>
    simp only [World.call, hf]
    exact hw
  | some found =>
    obtain ⟨i, t⟩ := found
    have ht := Org.getElem?_of_find hf
    simp only [World.call, hf]
    split_ifs with hadmits hconsent
    · exact hw
    · exact hw
    · cases hok : changeTask h now w.org i caller.actor call t with
      | error e => exact hw
      | ok t' =>
        set org : Org := { w.org.set i t' with claims := claimsAfter call taskId w.org.claims } with horg
        have he : Evolves (fun j u u' => (j = i ∧ u = t ∧ u' = t') ∨ (j ≠ i ∧ u' = u))
            (fun _ => False) w.org.tasks org.tasks := Evolves.set_at ht
        have ht' : org.tasks[i]? = some t' := by
          have hlen : i < w.org.tasks.length := (List.getElem?_eq_some_iff.mp ht).1
          exact List.getElem?_set_self hlen
        have hchanged : FreshlyReviewed
            (w.become (mover caller.actor) (accepts call i caller.actor) org) := by
          apply hw.become he rfl
          · rintro j u u' (⟨rfl, rfl, rfl⟩ | ⟨hj, rfl⟩) hr
            · exact changeTask_reviewed hok (by simpa using hconsent) hr
            · rw [seen_other hj]
              exact KeepsReview.refl _ _ j _ hr
          · exact fun _ h => h.elim
        exact hchanged.settle ht'

theorem FreshlyReviewed.create {caller : Caller} {fresh : Str} {draft : Task}
    (hw : FreshlyReviewed w) : FreshlyReviewed (w.create h caller fresh draft) := by
  simp only [World.create]
  split_ifs
  · exact hw
  · cases hok : createTask h w.org caller fresh draft with
    | error e => exact hw
    | ok t =>
      obtain ⟨-, -, -, haccepted, hdone, -⟩ := createTask_ok hok
      exact (hw.add ⟨haccepted, hdone⟩ (w.org.add t) rfl rfl).unblock

theorem FreshlyReviewed.artifact {caller : Caller} {taskId : Str} {a : Artifact}
    (hw : FreshlyReviewed w) : FreshlyReviewed (w.artifact caller taskId a) := by
  cases hf : w.org.find taskId with
  | none =>
    simp only [World.artifact, hf]
    exact hw
  | some found =>
    obtain ⟨i, t⟩ := found
    simp only [World.artifact, hf]
    split_ifs
    · exact hw.one (Org.getElem?_of_find hf) rfl rfl (addArtifact_keepsReview a t)
    · exact hw

theorem FreshlyReviewed.heartbeat {now : ℚ} {fresh employee : Str} {idle : Bool}
    (hw : FreshlyReviewed w) : FreshlyReviewed (w.heartbeat now fresh employee idle) := by
  simp only [World.heartbeat]
  split_ifs
  · exact hw
  · exact hw
  all_goals
    have hcancelled := hw.sweep rfl rfl (f := cancelCheckIn now none employee
      (text "Replaced by the next heartbeat check-in.")) cancelCheckIn_continues
    exact hcancelled.add (t := checkIn fresh employee) ⟨rfl, fun _ => by simp [checkIn]⟩ _ rfl rfl

theorem FreshlyReviewed.claim {now : ℚ} {i : ℕ} {run : Str} {reserved : ℤ} (hw : FreshlyReviewed w)
    (hg : startsUnaccepted w (now, .claim i run reserved) = true) :
    FreshlyReviewed (w.claim now i run reserved) := by
  cases ht : w.org.tasks[i]? with
  | none =>
    simp only [World.claim, ht]
    exact hw
  | some t =>
    simp only [World.claim, ht]
    split_ifs
    · refine hw.one ht rfl rfl (claimTask_keepsReview fun hr => ?_)
      simpa [startsUnaccepted, ht, hr, Option.isNone_iff_eq_none] using hg
    · exact hw

theorem FreshlyReviewed.finish {now : ℚ} {taskId : Str} {o : Outcome} (hw : FreshlyReviewed w)
    (hg : startsUnaccepted w (now, .finish taskId o) = true) :
    FreshlyReviewed (w.finish now taskId o) := by
  cases hf : w.org.find taskId with
  | none =>
    simp only [World.finish, hf]
    exact hw
  | some found =>
    obtain ⟨i, t⟩ := found
    have ht := Org.getElem?_of_find hf
    simp only [World.finish, hf]
    obtain ⟨recorded, hrec, hr, htasks⟩ : ∃ w', w' = (if o.finishes t then w.record now i t
        else w) ∧ FreshlyReviewed w' ∧ w'.org.tasks = w.org.tasks := by
      refine ⟨_, rfl, ?_⟩
      split_ifs with hfinishes
      · have hdone : t.status = .done := by
          simp only [Outcome.finishes, recurs, Bool.and_eq_true, decide_eq_true_eq] at hfinishes
          exact hfinishes.2.1.1
        exact ⟨hw.record ht hdone, rfl⟩
      · exact ⟨hw, rfl⟩
    rw [← hrec]
    have hkeeps : KeepsReview t (finishTask now o t) := by
      apply Continues.keepsReview
      apply finishTask_continues
      intro hrequired
      simpa [startsUnaccepted, hf, hrequired] using hg
    have hended : FreshlyReviewed (recorded.ended now i t o) :=
      hr.one (htasks ▸ ht) rfl rfl hkeeps
    split_ifs
    · exact hended.unblock
    · exact hended

theorem FreshlyReviewed.touch {i : ℕ} {f : Task → Task} {applies : Task → Bool}
    (hw : FreshlyReviewed w) (hf : ∀ t, Continues t (f t)) : FreshlyReviewed (w.touch i f applies) := by
  cases ht : w.org.tasks[i]? with
  | none =>
    simp only [World.touch, ht]
    exact hw
  | some t =>
    simp only [World.touch, ht]
    split_ifs
    · exact hw.one ht rfl rfl (hf t).keepsReview
    · exact hw

/-- A step that starts no task without acceptance keeps every reviewed task backed by a record. -/
theorem FreshlyReviewed.act {step : ℚ × Step} (hw : FreshlyReviewed w)
    (hg : startsUnaccepted w step = true) : FreshlyReviewed (w.act h step) := by
  obtain ⟨now, step⟩ := step
  cases step with
  | call caller taskId call => exact hw.call
  | create caller fresh draft => exact hw.create
  | artifact caller taskId a => exact hw.artifact
  | unblock => exact hw.unblock
  | schedule fresh draft =>
    exact hw.add (t := scheduledTask draft fresh) ⟨rfl, fun _ => by simp [scheduledTask]⟩
      (w.org.add _) rfl rfl
  | recheck fresh description employee =>
    exact hw.add (t := recheckTask fresh description employee)
      ⟨rfl, fun _ => by simp [recheckTask]⟩ (w.org.add _) rfl rfl
  | heartbeat fresh employee idle => exact hw.heartbeat
  | heartbeatResume actor employee =>
    simp only [World.act, World.heartbeatResume]
    split_ifs
    · exact hw
    · exact hw.sweep rfl rfl cancelCheckIn_continues
  | stopped i => exact hw.touch stopped_continues
  | hold i reason =>
    apply hw.touch
    intro t
    cases reason.reason w.org.config t with
    | none => exact Continues.refl t
    | some message => exact blockTask_continues message t
  | claim i run reserved => exact hw.claim hg
  | finish taskId o => exact hw.finish hg
  | recover =>
    simp only [World.act, World.recover]
    split_ifs
    · exact hw
    · exact hw.sweep rfl rfl recoverTask_continues
  | configure config disrupts => exact hw.sweep rfl rfl configureTask_continues
  | secret id => exact hw.sweep rfl rfl secretTask_continues
  | control running => exact ⟨hw.tasks, hw.recorded⟩

/-- A done task that needs a review was accepted by one who may, and its run, evidence, artifacts and
plan are what they were then; and so was every recorded occurrence of it. -/
def IndependentlyReviewed (w : World) : Prop :=
  (∀ i t, w.org.tasks[i]? = some t → t.reviewRequired = true → t.status = .done →
    Fresh t (w.marks i)) ∧ Recorded w

theorem FreshlyReviewed.independently (hw : FreshlyReviewed w) : IndependentlyReviewed w := by
  refine ⟨fun i t ht hr hd => ?_, hw.recorded⟩
  have hreviewed := hw.tasks i t ht
  exact hreviewed.fresh hr (hreviewed.done hr hd)

/-- In a run that starts no work which is still accepted, and closes no check-in that needs a review,
whatever is done and needs a review was accepted as it stands. -/
theorem review_fresh (h : Host) (w : World) (steps : List (ℚ × Step))
    (htasks : ∀ t ∈ w.org.tasks, Unaccepted t) (hnew : w.org.occurrences = [])
    (hrun : Along (World.act h) (fun w step => startsUnaccepted w step = true) w steps) :
    IndependentlyReviewed (steps.foldl (World.act h) w) := by
  have hw : FreshlyReviewed w := by
    constructor
    · intro i t ht
      exact (htasks t (List.mem_of_getElem? ht)).reviewed _
    · intro key occ hkey
      rw [hnew] at hkey
      contradiction
  have hstep : ∀ w step, FreshlyReviewed w → startsUnaccepted w step = true →
      FreshlyReviewed (w.act h step) := fun w step hw hg => hw.act hg
  exact (hrun.invariant hstep hw).independently

end Runs

section Examples

def reviewedTicket : World where
  org :=
    { config := { employees := [{ id := text "a", name := text "A" }] }
      tasks := [{
        id := text "t"
        title := text "T"
        assignee := some (text "a")
        evidence := text "e"
        reviewRequired := true }] }

def ticketRun (run : Str) : List (ℚ × Step) :=
  [(0, .claim 0 run 1),
    (1, .finish (text "t") { turnId := run, employeeId := text "a", final := text "x" })]

def acceptedRun : List (ℚ × Step) :=
  ticketRun (text "r") ++
    [(2, .call { actor := .user } (text "t") (.review 3 .accept (text "y")))]

def rerun : List (ℚ × Step) :=
  (3, .call worker (text "t") (.update 4 { status := some .todo })) :: ticketRun (text "s") ++
    [(4, .call worker (text "t") (.update 7 { status := some .done }))]

theorem reviewedTicket_unaccepted : ∀ t ∈ reviewedTicket.org.tasks, Unaccepted t := by
  intro t ht
  obtain rfl := List.mem_singleton.mp ht
  exact ⟨rfl, fun _ => by decide⟩

/-- The result that the user accepted is fresh. -/
theorem acceptedRun_fresh : IndependentlyReviewed (acceptedRun.foldl (World.act openHost) reviewedTicket) := by
  refine review_fresh openHost reviewedTicket acceptedRun reviewedTicket_unaccepted rfl ?_
  decide +kernel

/-- A worker moves accepted work back, which keeps the acceptance. The next run ends on it, and the
worker may then finish a result that nobody has looked at. -/
theorem rerun_unreviewed :
    ¬ ∀ (h : Host) (w : World) (steps : List (ℚ × Step)), (∀ t ∈ w.org.tasks, Unaccepted t) →
      w.org.occurrences = [] → IndependentlyReviewed (steps.foldl (World.act h) w) := by
  intro hclaim
  set w := (acceptedRun ++ rerun).foldl (World.act openHost) reviewedTicket with hw
  have hreviewed : IndependentlyReviewed w :=
    hclaim openHost reviewedTicket (acceptedRun ++ rerun) reviewedTicket_unaccepted rfl
  have hstale : (w.marks 0).accepted = none := by
    rw [hw]
    decide +kernel
  have hdone : w.org.tasks[0]?.map (fun t => (t.reviewRequired, t.status)) = some (true, .done) := by
    rw [hw]
    decide +kernel
  obtain ⟨t, ht, he⟩ := Option.map_eq_some_iff.mp hdone
  rw [Prod.mk.injEq] at he
  obtain ⟨actor, hactor, -⟩ := hreviewed.1 0 t ht he.1 he.2
  rw [hstale] at hactor
  contradiction

end Examples

end Raticode.Organizations
