import Raticode.Guarded
import Raticode.OrganizationBlocks

/-! Blocks over the runs of an organization: as long as nobody words a block so that workers may
lift it, workers and Raticode lift none that the user, Rem or Raticode has set. -/
namespace Raticode.Organizations
open PyDocument OrderedDict MarkedList Guarded

def Held (t : Task) (m : Marks) : Prop :=
  m.held = true → t.status = .blocked ∧ mayLift t.blockReason = false

def Holding (w : World) : Prop := Every Held w.org.tasks w.marks

/-- The held block at position `i` is still there, or its task has been cancelled. -/
def StandsAt (w w' : World) (i : ℕ) : Prop :=
  ∀ t, w.org.tasks[i]? = some t → (w.marks i).held = true →
    ∃ t', w'.org.tasks[i]? = some t' ∧
      (t'.status = .cancelled ∨ (t'.status = .blocked ∧ (w'.marks i).held = true))

structure CalmAt (w w' : World) (i : ℕ) : Prop where
  stands : StandsAt w w' i
  cancelled : ∀ t, w.org.tasks[i]? = some t → t.status = .cancelled →
    ∃ t', w'.org.tasks[i]? = some t' ∧ t'.status = .cancelled

section Steps

variable {w w' w'' : World} {i : ℕ} {m : Mover} {a : Option (ℕ × Actor)} {org : Org}
  {R : ℕ → Task → Task → Prop} {N : Task → Prop}

theorem CalmAt.refl (hw : Holding w) (i : ℕ) : CalmAt w w i := by
  constructor
  · intro t ht hheld
    exact ⟨t, ht, .inr ⟨(hw i t ht hheld).1, hheld⟩⟩
  · exact fun t ht hc => ⟨t, ht, hc⟩

theorem StandsAt.calm (h : StandsAt w w' i) (h' : CalmAt w' w'' i) : StandsAt w w'' i := by
  intro t ht hheld
  obtain ⟨t', ht', hc | ⟨-, hheld'⟩⟩ := h t ht hheld
  · obtain ⟨t'', ht'', hc'⟩ := h'.cancelled t' ht' hc
    exact ⟨t'', ht'', .inl hc'⟩
  · exact h'.stands t' ht' hheld'

theorem CalmAt.trans (h : CalmAt w w' i) (h' : CalmAt w' w'' i) : CalmAt w w'' i := by
  constructor
  · exact h.stands.calm h'
  · intro t ht hc
    obtain ⟨t', ht', hc'⟩ := h.cancelled t ht hc
    exact h'.cancelled t' ht' hc'

theorem Holding.become (hw : Holding w) (he : Evolves R N w.org.tasks org.tasks)
    (hwords : m.holds = true → ∀ i t t', R i t t' → Words t t')
    (hstands : m.holds = false → ∀ i t t', R i t t' → (w.marks i).held = true → Stands t t')
    (hN : ∀ t, N t → m.holds = true → t.status = .blocked → mayLift t.blockReason = false) :
    Holding (w.become m a org) := by
  change Every Held org.tasks ((watch m a).follow w.org.tasks org.tasks w.marks)
  refine Every.follow hw he ?_ ?_
  · intro i t t' hR hheld hafter
    simp only [watch, heldAfter] at hafter
    by_cases hb : t'.status = .blocked
    · refine ⟨hb, ?_⟩
      simp only [hb, ne_eq, not_true_eq_false, if_false] at hafter
      cases hm : m.holds with
      | true =>
        rcases hwords hm i t t' hR hb with ⟨ht, hr⟩ | hr
        · simp only [ht, hr, decide_true, Bool.true_or, Bool.and_true, if_true] at hafter
          exact hr ▸ (hheld hafter).2
        · exact hr
      | false =>
        simp only [hm, Bool.not_false, Bool.or_true, Bool.and_true, decide_eq_true_eq] at hafter
        split_ifs at hafter
        obtain ⟨ht, hr⟩ := hheld hafter
        rcases hstands hm i t t' hR hafter ht hr with hc | ⟨-, hr'⟩
        · rw [hb] at hc
          contradiction
        · exact hr'
    · simp [hb] at hafter
  · intro t ht hafter
    simp only [watch, Bool.and_eq_true, decide_eq_true_eq] at hafter
    exact ⟨hafter.1, hN t ht hafter.2 hafter.1⟩

theorem Holding.standsAt (hw : Holding w) (he : Evolves R N w.org.tasks org.tasks)
    (hstands : ∀ t t', R i t t' → (w.marks i).held = true → Stands t t') :
    StandsAt w (w.become m a org) i := by
  intro t ht hheld
  obtain ⟨t', ht', hR⟩ := he.kept i t ht
  obtain ⟨hb, hr⟩ := hw i t ht hheld
  refine ⟨t', ht', (hstands t t' hR hheld hb hr).imp id fun h => ⟨h.1, ?_⟩⟩
  change ((watch m a).follow w.org.tasks org.tasks w.marks i).held = true
  rw [follow_kept ht ht']
  cases hm : m.holds <;> simp [watch, heldAfter, hb, h.1, hheld, hm]

theorem Holding.raticode (hw : Holding w) (he : Evolves R N w.org.tasks org.tasks)
    (hR : ∀ i t t', R i t t' → Stands t t' ∧ Words t t')
    (hN : ∀ t, N t → t.status ≠ .blocked) :
    Holding (w.become .raticode a org) ∧ ∀ i, StandsAt w (w.become .raticode a org) i := by
  constructor
  · apply hw.become he
    · exact fun _ i t t' h => (hR i t t' h).2
    · exact fun _ i t t' h _ => (hR i t t' h).1
    · exact fun t ht _ hb => absurd hb (hN t ht)
  · exact fun i => hw.standsAt he (fun t t' h _ => (hR i t t' h).1)

theorem CalmAt.become (hw : Holding w) (he : Evolves R N w.org.tasks org.tasks)
    (hR : ∀ t t', R i t t' → Calm t t') : CalmAt w (w.become m a org) i := by
  constructor
  · exact hw.standsAt he (fun t t' h _ => (hR t t' h).stands)
  · intro t ht hc
    obtain ⟨t', ht', h⟩ := he.kept i t ht
    exact ⟨t', ht', (hR t t' h).cancelled hc⟩

theorem Holding.one {t t' : Task} {org : Org} (hw : Holding w) (ht : w.org.tasks[i]? = some t)
    (horg : org.tasks = (w.org.set i t').tasks) (hstands : Stands t t') (hwords : Words t t') :
    Holding (w.become .raticode a org) ∧ ∀ j, StandsAt w (w.become .raticode a org) j := by
  refine hw.raticode (N := fun _ => False) (Org.evolves_set ht horg) ?_ (fun _ h => h.elim)
  rintro j u u' (⟨-, rfl, rfl⟩ | rfl)
  · exact ⟨hstands, hwords⟩
  · exact ⟨Stands.refl _, Words.refl _⟩

theorem Holding.sweep {org : Org} (hw : Holding w) (horg : org.tasks = w.org.tasks) {f : Task → Task}
    (hstands : ∀ t, Stands t (f t)) (hwords : ∀ t, Words t (f t)) :
    Holding (w.sweep org f) ∧ ∀ i, StandsAt w (w.sweep org f) i := by
  have he : Evolves (fun _ t t' => t' = f t) (fun _ => False) w.org.tasks (org.map f).tasks :=
    Org.evolves_map (congrArg (List.map f) horg)
  refine hw.raticode he ?_ (fun _ h => h.elim)
  rintro i t t' rfl
  exact ⟨hstands t, hwords t⟩

theorem Holding.add {t : Task} (hw : Holding w) (ht : t.status ≠ .blocked) (org : Org)
    (horg : org.tasks = w.org.tasks ++ [t]) :
    Holding (w.become .raticode a org) ∧ ∀ i, CalmAt w (w.become .raticode a org) i := by
  have he := Org.evolves_add horg
  constructor
  · apply (hw.raticode he _ _).1
    · rintro i u u' rfl
      exact ⟨Stands.refl _, Words.refl _⟩
    · rintro u rfl
      exact ht
  · intro i
    apply CalmAt.become hw he
    rintro u u' rfl
    exact Calm.refl _

theorem Holding.unblock (hw : Holding w) : Holding w.unblock ∧ ∀ i, CalmAt w w.unblock i := by
  have he : Evolves (fun _ u u' => u' = unblockTask (finished w.org.tasks) u) (fun _ => False)
      w.org.tasks w.org.unblock.tasks := Org.evolves_map rfl
  constructor
  · apply hw.become he
    · exact fun h => absurd h (by decide)
    · rintro - i t t' rfl -
      exact (unblockTask_calm _ t).stands
    · exact fun _ h => h.elim
  · intro i
    apply CalmAt.become hw he
    rintro t t' rfl
    exact unblockTask_calm _ t

theorem Holding.cascade (hw : Holding w) (id : Str) :
    Holding (w.become .raticode none (w.org.cascade id)) ∧
      ∀ i, CalmAt w (w.become .raticode none (w.org.cascade id)) i := by
  have he : Evolves (fun _ u u' => u' = u ∨ u' = cancelChild u) (fun _ => False) w.org.tasks
      (w.org.cascade id).tasks := by
    apply Evolves.map
    intro i u
    split_ifs
    · exact .inr rfl
    · exact .inl rfl
  constructor
  · apply (hw.raticode he _ (fun _ h => h.elim)).1
    rintro i t t' (rfl | rfl)
    · exact ⟨Stands.refl _, Words.refl _⟩
    · exact ⟨(cancelChild_calm t).stands, cancelChild_words t⟩
  · intro i
    apply CalmAt.become hw he
    rintro t t' (rfl | rfl)
    · exact Calm.refl _
    · exact cancelChild_calm t

theorem Holding.settle {now : ℚ} {actor : Actor} {call : TaskCall} {t : Task} (hw : Holding w)
    (ht : w.org.tasks[i]? = some t) :
    Holding (w.settle now actor call i t) ∧ ∀ j, CalmAt w (w.settle now actor call i t) j := by
  obtain ⟨repeated, hrepeated, hr, hrcalm⟩ : ∃ w', w' = (if !call.isComment && recurs t &&
      !t.isClaimed then (w.record now i t).become .raticode none
        ((w.record now i t).org.set i (restarted now actor t)) else w) ∧
      Holding w' ∧ ∀ j, CalmAt w w' j := by
    refine ⟨_, rfl, ?_⟩
    split_ifs with hc
    · simp only [Bool.and_eq_true] at hc
      have hcalm : Calm t (restarted now actor t) := restarted_calm hc.1.2
      have hstatus : (restarted now actor t).status ≠ .blocked := by
        simp [restarted, nextOccurrence]
      have hrec : Holding (w.record now i t) := hw
      refine ⟨(hrec.one ht rfl hcalm.stands (Words.of_status hstatus)).1, fun j => ?_⟩
      have he : Evolves _ (fun _ => False) (w.record now i t).org.tasks
          ((w.record now i t).org.set i (restarted now actor t)).tasks := Org.evolves_set ht rfl
      have hafter : CalmAt (w.record now i t) ((w.record now i t).become .raticode none
          ((w.record now i t).org.set i (restarted now actor t))) j := by
        apply CalmAt.become hrec he
        rintro u u' (⟨-, rfl, rfl⟩ | rfl)
        · exact hcalm
        · exact Calm.refl _
      -- A record is kept beside the tasks and their marks.
      exact ⟨hafter.stands, hafter.cancelled⟩
    · exact ⟨hw, CalmAt.refl hw⟩
  obtain ⟨cascaded, hcascaded, hc, hccalm⟩ : ∃ w', w' = (if t.status = .cancelled then
      repeated.become .raticode none (repeated.org.cascade t.id) else repeated) ∧
      Holding w' ∧ ∀ j, CalmAt repeated w' j := by
    refine ⟨_, rfl, ?_⟩
    split_ifs with hcancelled
    · exact hr.cascade t.id
    · exact ⟨hr, CalmAt.refl hr⟩
  have hlast : w.settle now actor call i t = cascaded.unblock := by
    rw [hcascaded, hrepeated]
    rfl
  rw [hlast]
  exact ⟨hc.unblock.1, fun j => ((hrcalm j).trans (hccalm j)).trans (hc.unblock.2 j)⟩

end Steps

/-! ### Runs -/

def wordsBlocks (w : World) (step : ℚ × Step) : Bool :=
  match step.2 with
  | .call caller taskId call => (w.org.find taskId).all (fun (i, t) =>
      if caller.actor.employee?.isSome then !(w.marks i).held || keepsReason call
      else wordsBlock call t)
  | .create caller _ draft =>
    caller.actor.employee?.isSome || draft.status ≠ .blocked || !mayLift draft.blockReason
  | _ => true

/-- A call of the user or Rem changes the task at position `i`. -/
def ownerChanges (w : World) (step : ℚ × Step) (i : ℕ) : Prop :=
  match step.2 with
  | .call caller taskId _ =>
    caller.actor.employee? = none ∧ (w.org.find taskId).any (fun found => found.1 = i)
  | _ => False

section Runs

variable {h : Host} {w : World}

theorem Holding.stay (hw : Holding w) : Holding w ∧ ∀ i, StandsAt w w i :=
  ⟨hw, fun i => (CalmAt.refl hw i).stands⟩

theorem mover_holds (actor : Actor) : (mover actor).holds = actor.employee?.isNone := by
  cases actor <;> rfl

theorem Holding.call {now : ℚ} {caller : Caller} {taskId : Str} {call : TaskCall} (hw : Holding w)
    (hg : wordsBlocks w (now, .call caller taskId call) = true) :
    Holding (w.call h now caller taskId call) ∧ ∀ j,
      ¬ ownerChanges w (now, .call caller taskId call) j →
        StandsAt w (w.call h now caller taskId call) j := by
  have hstay : Holding w ∧ ∀ j, ¬ ownerChanges w (now, .call caller taskId call) j → StandsAt w w j :=
    ⟨hw, fun j _ => hw.stay.2 j⟩
  cases hf : w.org.find taskId with
  | none =>
    simp only [World.call, hf]
    exact hstay
  | some found =>
    obtain ⟨i, t⟩ := found
    have ht := Org.getElem?_of_find hf
    simp only [World.call, hf]
    split_ifs
    · exact hstay
    · exact hstay
    · cases hok : changeTask h now w.org i caller.actor call t with
      | error e => exact hstay
      | ok t' =>
        simp only [wordsBlocks, hf, Option.all_some] at hg
        set org : Org := { w.org.set i t' with claims := claimsAfter call taskId w.org.claims } with horg
        have he : Evolves (fun j u u' => (j = i ∧ u = t ∧ u' = t') ∨ u' = u) (fun _ => False)
            w.org.tasks org.tasks := Org.evolves_set ht rfl
        have ht' : org.tasks[i]? = some t' := by
          have hlen : i < w.org.tasks.length := (List.getElem?_eq_some_iff.mp ht).1
          exact List.getElem?_set_self hlen
        have hchanged : Holding (w.become (mover caller.actor) (accepts call i caller.actor) org) := by
          apply hw.become he
          · rintro hm j u u' (⟨-, rfl, rfl⟩ | rfl)
            · rw [mover_holds, Option.isNone_iff_eq_none] at hm
              simp only [hm, Option.isSome_none, Bool.false_eq_true, if_false] at hg
              exact changeTask_words hm hg hok
            · exact Words.refl _
          · rintro hm j u u' (⟨rfl, rfl, rfl⟩ | rfl) hheld
            · rw [mover_holds, Option.isNone_eq_false_iff] at hm
              simp only [hm, if_true, hheld, Bool.not_true, Bool.false_or] at hg
              exact changeTask_stands hm hg hok
            · exact Stands.refl _
          · exact fun _ h => h.elim
        obtain ⟨hsettled, hcalm⟩ : Holding (World.settle now _ caller.actor call i t') ∧
            ∀ j, CalmAt _ (World.settle now _ caller.actor call i t') j := hchanged.settle ht'
        refine ⟨hsettled, fun j hj => ?_⟩
        refine StandsAt.calm ?_ (hcalm j)
        apply hw.standsAt he
        rintro u u' (⟨rfl, rfl, rfl⟩ | rfl) hheld
        · have hemployee : caller.actor.employee?.isSome := by
            by_contra hnone
            rw [Option.not_isSome_iff_eq_none] at hnone
            exact hj ⟨hnone, by simp [hf]⟩
          simp only [hemployee, if_true, hheld, Bool.not_true, Bool.false_or] at hg
          exact changeTask_stands hemployee hg hok
        · exact Stands.refl _

theorem Holding.create {now : ℚ} {caller : Caller} {fresh : Str} {draft : Task} (hw : Holding w)
    (hg : wordsBlocks w (now, .create caller fresh draft) = true) :
    Holding (w.create h caller fresh draft) ∧ ∀ i, StandsAt w (w.create h caller fresh draft) i := by
  simp only [World.create]
  split_ifs
  · exact hw.stay
  · cases hok : createTask h w.org caller fresh draft with
    | error e => exact hw.stay
    | ok t =>
      obtain ⟨hstatus, hreason, -, -, -, hpending⟩ := createTask_ok hok
      have he : Evolves (fun _ u u' => u' = u) (fun u => u = t) w.org.tasks (w.org.add t).tasks :=
        Org.evolves_add rfl
      have hadded : Holding (w.become (mover caller.actor) none (w.org.add t)) := by
        apply hw.become he
        · rintro - i u u' rfl
          exact Words.refl _
        · rintro - i u u' rfl -
          exact Stands.refl _
        · rintro u rfl hm hb
          rw [mover_holds, Option.isNone_iff_eq_none] at hm
          rw [hstatus] at hb
          simpa [wordsBlocks, hm, hb, hreason] using hg
      refine ⟨hadded.unblock.1, fun i => ?_⟩
      refine StandsAt.calm ?_ (hadded.unblock.2 i)
      apply hw.standsAt he
      rintro u u' rfl -
      exact Stands.refl _

theorem Holding.artifact {caller : Caller} {taskId : Str} {a : Artifact} (hw : Holding w) :
    Holding (w.artifact caller taskId a) ∧ ∀ i, StandsAt w (w.artifact caller taskId a) i := by
  cases hf : w.org.find taskId with
  | none =>
    simp only [World.artifact, hf]
    exact hw.stay
  | some found =>
    obtain ⟨i, t⟩ := found
    simp only [World.artifact, hf]
    split_ifs
    · have he : Evolves _ (fun _ => False) w.org.tasks (w.org.set i (addArtifact a t)).tasks :=
        Org.evolves_set (Org.getElem?_of_find hf) rfl
      have hstands : Stands t (addArtifact a t) := by
        intro hb hm
        exact .inr ⟨by simp [addArtifact, hb], hm⟩
      have hwords : Words t (addArtifact a t) := by
        intro hb
        left
        by_cases hd : t.status = .done
        · simp [addArtifact, hd] at hb
        · simpa [addArtifact, hd] using hb
      constructor
      · apply hw.become he
        · rintro - j u u' (⟨-, rfl, rfl⟩ | rfl)
          · exact hwords
          · exact Words.refl _
        · rintro - j u u' (⟨-, rfl, rfl⟩ | rfl) -
          · exact hstands
          · exact Stands.refl _
        · exact fun _ h => h.elim
      · intro j
        apply hw.standsAt he
        rintro u u' (⟨-, rfl, rfl⟩ | rfl) -
        · exact hstands
        · exact Stands.refl _
    · exact hw.stay

theorem Holding.heartbeat {now : ℚ} {fresh employee : Str} {idle : Bool} (hw : Holding w) :
    Holding (w.heartbeat now fresh employee idle) ∧
      ∀ i, StandsAt w (w.heartbeat now fresh employee idle) i := by
  simp only [World.heartbeat]
  split_ifs
  · exact hw.stay
  · exact hw.stay
  all_goals
    obtain ⟨hcancelled, hstands⟩ := hw.sweep rfl
      (f := cancelCheckIn now none employee (text "Replaced by the next heartbeat check-in."))
      (fun t => (cancelCheckIn_calm t).stands) cancelCheckIn_words
    have hadd := hcancelled.add (a := none) (t := checkIn fresh employee) (by simp [checkIn])
    exact ⟨(hadd _ rfl).1, fun i => (hstands i).calm ((hadd _ rfl).2 i)⟩

theorem Holding.claim {now : ℚ} {i : ℕ} {run : Str} {reserved : ℤ} (hw : Holding w) :
    Holding (w.claim now i run reserved) ∧ ∀ j, StandsAt w (w.claim now i run reserved) j := by
  cases ht : w.org.tasks[i]? with
  | none =>
    simp only [World.claim, ht]
    exact hw.stay
  | some t =>
    simp only [World.claim, ht]
    split_ifs with hc
    · have htodo : t.status = .todo := by
        simp only [startable, Bool.and_eq_true, decide_eq_true_eq] at hc
        exact hc.2.1.1.1.1.1.1.1
      exact hw.one ht rfl (Stands.of_status (by simp [htodo]))
        (Words.of_status (by simp [claimTask]))
    · exact hw.stay

theorem Holding.finish {now : ℚ} {taskId : Str} {o : Outcome} (hw : Holding w) :
    Holding (w.finish now taskId o) ∧ ∀ i, StandsAt w (w.finish now taskId o) i := by
  cases hf : w.org.find taskId with
  | none =>
    simp only [World.finish, hf]
    exact hw.stay
  | some found =>
    obtain ⟨i, t⟩ := found
    have ht := Org.getElem?_of_find hf
    simp only [World.finish, hf]
    obtain ⟨recorded, hrec, htasks, hmarks⟩ : ∃ w', w' = (if o.finishes t then w.record now i t
        else w) ∧ w'.org.tasks = w.org.tasks ∧ w'.marks = w.marks := by
      refine ⟨_, rfl, ?_⟩
      split_ifs <;> exact ⟨rfl, rfl⟩
    rw [← hrec]
    have hr : Holding recorded := by
      rw [Holding, htasks, hmarks]
      exact hw
    have hended : Holding (recorded.ended now i t o) ∧
        ∀ j, StandsAt recorded (recorded.ended now i t o) j :=
      hr.one (htasks ▸ ht) rfl (finishTask_stands o t) (finishTask_words o t)
    have hback {w' : World} {j : ℕ} (hs : StandsAt recorded w' j) : StandsAt w w' j := by
      simpa only [StandsAt, htasks, hmarks] using hs
    split_ifs
    · exact ⟨hended.1.unblock.1, fun j => hback ((hended.2 j).calm (hended.1.unblock.2 j))⟩
    · exact ⟨hended.1, fun j => hback (hended.2 j)⟩

theorem Holding.touch {i : ℕ} {f : Task → Task} {applies : Task → Bool} (hw : Holding w)
    (hf : ∀ t, applies t = true → Stands t (f t) ∧ Words t (f t)) :
    Holding (w.touch i f applies) ∧ ∀ j, StandsAt w (w.touch i f applies) j := by
  cases ht : w.org.tasks[i]? with
  | none =>
    simp only [World.touch, ht]
    exact hw.stay
  | some t =>
    simp only [World.touch, ht]
    split_ifs with hc
    · exact hw.one ht rfl (hf t hc).1 (hf t hc).2
    · exact hw.stay

/-- A step that keeps the reasons readable keeps every held block, except where its owner changed
it. -/
theorem Holding.act {step : ℚ × Step} (hw : Holding w) (hg : wordsBlocks w step = true) :
    Holding (w.act h step) ∧ ∀ i, ¬ ownerChanges w step i → StandsAt w (w.act h step) i := by
  obtain ⟨now, step⟩ := step
  have free {w' : World} (hs : Holding w' ∧ ∀ i, StandsAt w w' i) :
      Holding w' ∧ ∀ i, ¬ ownerChanges w (now, step) i → StandsAt w w' i :=
    ⟨hs.1, fun i _ => hs.2 i⟩
  cases step with
  | call caller taskId call => exact hw.call hg
  | create caller fresh draft => exact free (hw.create hg)
  | artifact caller taskId a => exact free hw.artifact
  | unblock => exact free ⟨hw.unblock.1, fun i => (hw.unblock.2 i).stands⟩
  | schedule fresh draft =>
    obtain ⟨hadded, hcalm⟩ := hw.add (a := none) (t := scheduledTask draft fresh)
      (by simp [scheduledTask]) (w.org.add _) rfl
    exact free ⟨hadded, fun i => (hcalm i).stands⟩
  | recheck fresh description employee =>
    obtain ⟨hadded, hcalm⟩ := hw.add (a := none) (t := recheckTask fresh description employee)
      (by simp [recheckTask]) (w.org.add _) rfl
    exact free ⟨hadded, fun i => (hcalm i).stands⟩
  | heartbeat fresh employee idle => exact free hw.heartbeat
  | heartbeatResume actor employee =>
    apply free
    simp only [World.act, World.heartbeatResume]
    split_ifs
    · exact hw.stay
    · exact hw.sweep rfl (fun t => (cancelCheckIn_calm t).stands) cancelCheckIn_words
  | stopped i =>
    apply free
    apply hw.touch
    have hreason := reasons_stand stoppedReason (by simp)
    exact fun t _ => ⟨blockTask_stands hreason t, blockTask_words hreason t⟩
  | hold i reason =>
    apply free
    apply hw.touch
    intro t _
    cases hr : reason.reason w.org.config t with
    | none => exact ⟨Stands.refl t, Words.refl t⟩
    | some message =>
      have hreason := Hold.reason_stands hr
      exact ⟨blockTask_stands hreason t, blockTask_words hreason t⟩
  | claim i run reserved => exact free hw.claim
  | finish taskId o => exact free hw.finish
  | recover =>
    apply free
    simp only [World.act, World.recover]
    split_ifs
    · exact hw.stay
    · exact hw.sweep rfl recoverTask_stands recoverTask_words
  | configure config disrupts =>
    exact free (hw.sweep rfl configureTask_stands configureTask_words)
  | secret id => exact free (hw.sweep rfl secretTask_stands secretTask_words)
  | control running => exact ⟨hw, fun i _ => (CalmAt.refl hw i).stands⟩

/-- In a run in which nobody words a block so that workers may lift it, no step but a call of the
user or Rem on its task takes a block away that the user, Rem or Raticode has set, unless it cancels
the task. -/
theorem blocks_stand (h : Host) (w : World) (before after : List (ℚ × Step)) (step : ℚ × Step)
    (hstart : ∀ i, (w.marks i).held = false)
    (hrun : Along (World.act h) (fun w step => wordsBlocks w step = true) w
      (before ++ step :: after)) (i : ℕ)
    (howner : ¬ ownerChanges (before.foldl (World.act h) w) step i) :
    StandsAt (before.foldl (World.act h) w) ((before.foldl (World.act h) w).act h step) i := by
  obtain ⟨hbefore, hafter⟩ := along_append.mp hrun
  have hw : Holding w := by
    intro j t _ hheld
    rw [hstart j] at hheld
    contradiction
  have hstep : ∀ w step, Holding w → wordsBlocks w step = true → Holding (w.act h step) :=
    fun w step hw hg => (hw.act hg).1
  have hreached : Holding (before.foldl (World.act h) w) := hbefore.invariant hstep hw
  exact (Holding.act hreached hafter.1).2 i howner

end Runs

section Examples

def openHost : Host where
  isAbsolute _ := true
  ownsProject _ := true
  resolve := id
  claimState _ := text "none"

def oneTicket : World where
  org :=
    { config := { employees := [{ id := text "a", name := text "A" }] }
      tasks := [{ id := text "t", title := text "T", assignee := some (text "a") }] }

def worker : Caller := { actor := .employee (text "a") }

def userBlocks : ℚ × Step :=
  (0, .call { actor := .user } (text "t") (.update 1 { status := some .blocked }))

def workerMoves : ℚ × Step :=
  (1, .call worker (text "t") (.update 2 { status := some .todo }))

def workerRewords : ℚ × Step :=
  (1, .call worker (text "t") (.update 2 { blockReason := some [] }))

def workerUnblocks : ℚ × Step := (2, .call worker (text "t") (.comment (text "x") true))

/-- The block of the user stands when the worker moves the ticket. -/
theorem userBlock_stands :
    StandsAt ([userBlocks].foldl (World.act openHost) oneTicket)
      (([userBlocks].foldl (World.act openHost) oneTicket).act openHost workerMoves) 0 := by
  refine blocks_stand openHost oneTicket [userBlocks] [] workerMoves (fun _ => rfl) ?_ 0 ?_
  · decide +kernel
  · rintro ⟨h, -⟩
    contradiction

/-- A worker lifts a block of the user in two steps: it takes the reason away, and then nothing tells
that the block was not its own. -/
theorem reworded_block_lifted :
    ¬ ∀ (h : Host) (w : World) (before : List (ℚ × Step)) (step : ℚ × Step),
      (∀ i, (w.marks i).held = false) → ∀ i, ¬ ownerChanges (before.foldl (World.act h) w) step i →
        StandsAt (before.foldl (World.act h) w) ((before.foldl (World.act h) w).act h step) i := by
  intro hclaim
  have hstands := hclaim openHost oneTicket [userBlocks, workerRewords] workerUnblocks (fun _ => rfl) 0
    (by
      rintro ⟨h, -⟩
      contradiction)
  have hreached : (([userBlocks, workerRewords].foldl (World.act openHost) oneTicket).org.tasks[0]?).isSome ∧
      (([userBlocks, workerRewords].foldl (World.act openHost) oneTicket).marks 0).held = true := by
    decide +kernel
  have hlifted : ([userBlocks, workerRewords, workerUnblocks].foldl (World.act openHost)
      oneTicket).org.tasks[0]?.map (·.status) = some .todo := by decide +kernel
  obtain ⟨t, ht⟩ := Option.isSome_iff_exists.mp hreached.1
  obtain ⟨t', ht', hend⟩ := hstands t ht hreached.2
  have hstatus : t'.status = .todo := by
    rw [show ([userBlocks, workerRewords, workerUnblocks].foldl (World.act openHost)
      oneTicket).org.tasks[0]? = some t' from ht'] at hlifted
    exact Option.some.inj hlifted
  rcases hend with hc | ⟨hb, -⟩
  · rw [hstatus] at hc
    contradiction
  · rw [hstatus] at hb
    contradiction

end Examples

end Raticode.Organizations
