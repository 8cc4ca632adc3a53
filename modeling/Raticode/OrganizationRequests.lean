import Raticode.OrganizationRuns

/-! `gofer.ui.organizations`: the calls on tickets that carry an idempotency key. What a keyed call
answered is kept, and a retry gets that answer. -/
namespace Raticode.Organizations
open PyDocument OrderedDict

/-- `REQUEST_RETENTION`, in seconds. -/
def requestRetention : ℚ := 30 * 24 * 60 * 60

inductive RequestAction where
  | taskCreate | wake | taskUpdate | comment | approve | review | reopen
  deriving DecidableEq

def RequestAction.name : RequestAction → Str
  | .taskCreate => text "task_create"
  | .wake => text "wake"
  | .taskUpdate => text "task_update"
  | .comment => text "comment"
  | .approve => text "approve"
  | .review => text "review"
  | .reopen => text "reopen"

inductive Request where
  | create (draft : Task)
  | wake (employee message : Str)
  | call (taskId : Str) (call : TaskCall)
  deriving DecidableEq

def Request.action : Request → RequestAction
  | .create _ => .taskCreate
  | .wake _ _ => .wake
  | .call _ (.comment _ _) => .comment
  | .call _ (.approve _) => .approve
  | .call _ (.review _ _ _) => .review
  | .call _ (.reopen _ _) => .reopen
  | .call _ (.update _ _) => .taskUpdate

/-- `[request_action, params]`. -/
structure Params where
  request : Request
  others : Str
  key : Option Str
  deriving DecidableEq

structure Ask where
  actor : Str
  caller : Caller
  request : Request
  others : Str := []
  key : Option Str := none
  fresh : Str := []

/-- `wake` hands on nothing but its title, its assignee and the key. -/
def Ask.params (a : Ask) : Params where
  request := a.request
  others := if a.request.action = .wake then [] else a.others
  key := a.key

/-- `f"{actor}:{request_action}:{request_key}"`. -/
def Ask.scopedKey (a : Ask) (key : Str) : Str :=
  a.actor ++ text ":" ++ a.request.action.name ++ text ":" ++ key

inductive Answer where
  | ticket (t : Task) (key : Str)
  | commented (id : Str) (revision : ℕ) (status : TaskStatus)
  | waits (reason : String)
  deriving DecidableEq

structure Saved (δ : Type) where
  hash : δ
  result : Answer
  at' : ℚ

structure Instant extends Host where
  now : ℚ
  ticketKey : OrganizationConfig → Task → Str
  /-- The ticket has a `sharedWorktree`. -/
  shared : Task → Bool
  /-- `release_shared`, which merges what it can in the repository. -/
  release : World → World

structure Desk (δ : Type) where
  world : World
  requests : Dict Str (Saved δ) := []

variable {δ : Type} [DecidableEq δ] (digest : Params → δ)

namespace World

/-- `_consent_reason`, for Rem. -/
def consent (w : World) (caller : Caller) : Request → Option String
  | .create draft =>
    if caller.actor = .rem && draft.recurring && draft.intervalSeconds ≠ 0 then
      some ("Schedule recurring work: \u201c" ++
        (if draft.title = [] then "a task" else words draft.title) ++ "\u201d")
    else none
  | .wake _ _ => none
  | .call taskId call =>
    if caller.actor = .rem then (w.org.find taskId).bind (fun found => consentReason call found.2)
    else none

def performCreate (m : Instant) (w : World) (caller : Caller) (fresh : Str) (draft : Task) :
    Except String (World × Task) := do
  let t ← createTask m.toHost w.org caller fresh draft
  let after := w.create m.toHost caller fresh draft
  return (after, after.org.tasks.getLast?.getD t)

def perform (m : Instant) (w : World) (caller : Caller) (fresh : Str) :
    Request → Except String (World × Task)
  | .create draft => w.performCreate m caller fresh draft
  | .wake employee message =>
    w.performCreate m caller fresh { id := fresh, title := message, assignee := some employee }
  | .call taskId call =>
    match w.org.find taskId with
    | none => .error "Task not found"
    | some (i, t) => do
      let t' ← changeTask m.toHost m.now w.org i caller.actor call t
      let after := w.call m.toHost m.now caller taskId call
      return (after, after.org.tasks[i]?.getD t')

end World

def Ask.answer (m : Instant) (config : OrganizationConfig) (a : Ask) (t : Task) : Answer :=
  if a.key.isSome && a.request.action = .comment then .commented t.id t.revision t.status
  else .ticket t (m.ticketKey config t)

def keepRequests (now : ℚ) (requests : Dict Str (Saved δ)) : Dict Str (Saved δ) :=
  requests.filter (fun entry => now - requestRetention ≤ entry.2.at')

namespace Desk

def admits (d : Desk δ) (a : Ask) : Bool :=
  (d.world.consent a.caller a.request).isNone && d.world.org.admits a.caller

/-- `update`, where no answer is kept for the call. -/
def carryOut (m : Instant) (a : Ask) (d : Desk δ) : Except String (Desk δ × Answer) := do
  let (world, t) ← d.world.perform m a.caller a.fresh a.request
  let answer := a.answer m world.org.config t
  match a.key with
  | none => return ({ d with world := world }, answer)
  | some key =>
    let saved : Saved δ := { hash := digest a.params, result := answer, at' := m.now }
    return ({ world := world, requests := (keepRequests m.now d.requests).set (a.scopedKey key) saved },
      answer)

/-- `update`, the transaction of a call. -/
def update (m : Instant) (a : Ask) (d : Desk δ) : Except String (Desk δ × Answer) :=
  if !d.world.org.admits a.caller then .error "This employee turn has been revoked"
  else match a.key.bind (fun key => d.requests.get (a.scopedKey key)) with
    | some saved =>
      if saved.hash ≠ digest a.params then
        .error "Idempotency key was already used with different parameters"
      else .ok (d, saved.result)
    | none => d.carryOut digest m a

def releases (m : Instant) (a : Ask) : Answer → Bool
  | .ticket t _ => (a.request.action = .review || a.request.action = .taskUpdate) && m.shared t
  | _ => false

def release (m : Instant) (answer : Answer) (d : Desk δ) : Desk δ × Except String Answer :=
  let released := { d with world := m.release d.world }
  match answer with
  | .ticket t key =>
    (released, match released.world.org.find t.id with
      | some (_, t') => .ok (.ticket t' key)
      | none => .error "StopIteration")
  | _ => (released, .ok answer)

def finish (m : Instant) (a : Ask) (answer : Answer) (d : Desk δ) : Desk δ × Except String Answer :=
  if releases m a answer then d.release m answer else (d, .ok answer)

/-- `call`, for the actions on tickets. -/
def ask (m : Instant) (a : Ask) (d : Desk δ) : Desk δ × Except String Answer :=
  match d.world.consent a.caller a.request with
  | some reason => (d, .ok (.waits reason))
  | none =>
    if a.key.any (fun key => key = [] || 200 < key.length) then
      (d, .error "Idempotency key must be between 1 and 200 characters")
    else match d.update digest m a with
      | .error e => (d, .error e)
      | .ok (after, answer) => after.finish m a answer

end Desk

inductive DeskTurn where
  | ask (m : Instant) (a : Ask)
  | other (world : World)

def Desk.step (d : Desk δ) : DeskTurn → Desk δ
  | .ask m a => (d.ask digest m a).1
  | .other world => { d with world := world }

def DeskTurn.now? : DeskTurn → Option ℚ
  | .ask m _ => some m.now
  | .other _ => none

structure Desk.CarriesOut (d : Desk δ) (m : Instant) (a : Ask) (key : Str) (answer : Answer) : Prop where
  keyed : a.key = some key
  valid : ¬ (key = [] ∨ 200 < key.length)
  new : d.requests.get (a.scopedKey key) = none
  consented : d.world.consent a.caller a.request = none
  done : ∃ after, d.update digest m a = .ok (after, answer)

section Calls

variable {digest} {m : Instant} {a b : Ask} {d after : Desk δ} {answer : Answer} {key : Str}

omit [DecidableEq δ] in
@[simp] theorem Desk.finish_requests (m : Instant) (a : Ask) (answer : Answer) (d : Desk δ) :
    (d.finish m a answer).1.requests = d.requests := by
  rw [Desk.finish]
  split_ifs
  · cases answer <;> rfl
  · rfl

theorem Desk.update_cases (h : d.update digest m a = .ok (after, answer)) :
    (after = d ∧ ∃ key saved, a.key = some key ∧ d.requests.get (a.scopedKey key) = some saved ∧
      saved.hash = digest a.params ∧ saved.result = answer) ∨
    (a.key.bind (fun key => d.requests.get (a.scopedKey key)) = none ∧
      d.carryOut digest m a = .ok (after, answer)) := by
  rw [Desk.update] at h
  split at h
  · cases h
  · split at h
    · next saved hsaved =>
      obtain ⟨key, hkey, hget⟩ := Option.bind_eq_some_iff.mp hsaved
      split_ifs at h with hhash
      cases h
      exact .inl ⟨rfl, key, saved, hkey, hget, not_not.mp hhash, rfl⟩
    · next hnone => exact .inr ⟨hnone, h⟩

omit [DecidableEq δ] in
theorem Desk.carryOut_requests (h : d.carryOut digest m a = .ok (after, answer)) :
    after.requests = match a.key with
      | none => d.requests
      | some key => (keepRequests m.now d.requests).set (a.scopedKey key)
          { hash := digest a.params, result := answer, at' := m.now } := by
  rw [Desk.carryOut] at h
  cases hp : d.world.perform m a.caller a.fresh a.request with
  | error e =>
    rw [hp] at h
    cases h
  | ok performed =>
    rw [hp] at h
    cases hkey : a.key with
    | none =>
      simp only [hkey, bind, Except.bind, pure, Except.pure] at h
      cases h
      rfl
    | some key =>
      simp only [hkey, bind, Except.bind, pure, Except.pure] at h
      cases h
      rfl

theorem Desk.CarriesOut.requests (h : d.CarriesOut digest m a key answer) :
    (d.ask digest m a).1.requests = (keepRequests m.now d.requests).set (a.scopedKey key)
      { hash := digest a.params, result := answer, at' := m.now } := by
  obtain ⟨after, hup⟩ := h.done
  have hask : (d.ask digest m a).1.requests = after.requests := by
    rw [Desk.ask, h.consented]
    simp [h.keyed, h.valid, hup]
  rcases Desk.update_cases hup with ⟨-, key', saved, hkey, hget, -⟩ | ⟨-, hdone⟩
  · rw [h.keyed, Option.some.injEq] at hkey
    rw [← hkey, h.new] at hget
    cases hget
  · rw [hask, Desk.carryOut_requests hdone, h.keyed]

theorem Desk.ask_requests (digest : Params → δ) (m : Instant) (a : Ask) (d : Desk δ) :
    (d.ask digest m a).1.requests = d.requests ∨
      ∃ key answer, d.CarriesOut digest m a key answer := by
  unfold Desk.ask
  split
  · exact .inl rfl
  · next hconsent =>
    split_ifs with hvalid
    · exact .inl rfl
    · split
      · exact .inl rfl
      · next after answer hup =>
        rw [Desk.finish_requests]
        rcases Desk.update_cases hup with ⟨rfl, -⟩ | ⟨hnone, hdone⟩
        · exact .inl rfl
        · cases hkey : a.key with
          | none => exact .inl (by rw [Desk.carryOut_requests hdone, hkey])
          | some key =>
            rw [hkey] at hnone hvalid
            exact .inr ⟨key, answer, hkey, by simpa using hvalid, hnone, hconsent, after, hup⟩

omit [DecidableEq δ] in
theorem get_keepRequests {now : ℚ} {requests : Dict Str (Saved δ)} {saved : Saved δ}
    (hget : requests.get key = some saved) (hnow : now ≤ saved.at' + requestRetention) :
    (keepRequests now requests).get key = some saved := by
  induction requests with
  | nil => cases hget
  | cons entry rest ih =>
    obtain ⟨k, v⟩ := entry
    rw [keepRequests, List.filter_cons]
    by_cases hk : k = key
    · rw [Dict.get, if_pos hk, Option.some.injEq] at hget
      subst hget
      rw [if_pos (by simpa using hnow), Dict.get, if_pos hk]
    · rw [Dict.get, if_neg hk] at hget
      split_ifs
      · rw [Dict.get, if_neg hk]
        exact ih hget
      · exact ih hget

theorem Desk.step_get {turn : DeskTurn} {saved : Saved δ} (hget : d.requests.get key = some saved)
    (hnow : ∀ now ∈ turn.now?, now ≤ saved.at' + requestRetention) :
    (d.step digest turn).requests.get key = some saved := by
  cases turn with
  | other world => exact hget
  | ask m a =>
    rw [Desk.step]
    rcases Desk.ask_requests digest m a d with hsame | ⟨key', answer, hout⟩
    · rw [hsame, hget]
    · have hne : a.scopedKey key' ≠ key := by
        rintro rfl
        rw [hout.new] at hget
        cases hget
      rw [hout.requests, Dict.get_set_ne _ _ hne]
      exact get_keepRequests hget (hnow m.now rfl)

theorem Desk.run_get {turns : List DeskTurn} {saved : Saved δ} (hget : d.requests.get key = some saved)
    (hnow : ∀ turn ∈ turns, ∀ now ∈ turn.now?, now ≤ saved.at' + requestRetention) :
    (turns.foldl (Desk.step digest) d).requests.get key = some saved := by
  induction turns generalizing d with
  | nil => exact hget
  | cons turn rest ih =>
    rw [List.forall_mem_cons] at hnow
    exact ih (Desk.step_get hget hnow.1) hnow.2

theorem Desk.origin (digest : Params → δ) (w : World) (turns : List DeskTurn) {k : Str}
    {saved : Saved δ} (h : (k, saved) ∈ (turns.foldl (Desk.step digest) { world := w }).requests) :
    ∃ earlier m a later key, turns = earlier ++ .ask m a :: later ∧ k = a.scopedKey key ∧
      saved.hash = digest a.params ∧
      (earlier.foldl (Desk.step digest) { world := w }).CarriesOut digest m a key saved.result := by
  induction turns using List.reverseRecOn with
  | nil => cases h
  | append_singleton before turn ih =>
    have hbefore : (k, saved) ∈ (before.foldl (Desk.step digest) { world := w }).requests →
        ∃ earlier m a later key, before ++ [turn] = earlier ++ .ask m a :: later ∧
          k = a.scopedKey key ∧ saved.hash = digest a.params ∧
          (earlier.foldl (Desk.step digest) { world := w }).CarriesOut digest m a key saved.result := by
      intro hmem
      obtain ⟨earlier, m, a, later, key, hsplit, hrest⟩ := ih hmem
      exact ⟨earlier, m, a, later ++ [turn], key, by rw [hsplit]; simp, hrest⟩
    rw [List.foldl_concat] at h
    cases turn with
    | other world => exact hbefore h
    | ask m a =>
      rw [Desk.step] at h
      rcases Desk.ask_requests digest m a (before.foldl (Desk.step digest) { world := w }) with
        hsame | ⟨key, answer, hout⟩
      · rw [hsame] at h
        exact hbefore h
      · rw [hout.requests] at h
        rcases Dict.mem_set h with hkept | heq
        · exact hbefore (List.mem_of_mem_filter hkept)
        · cases heq
          exact ⟨before, m, a, [], key, rfl, rfl, rfl, hout⟩

theorem Ask.actor_of_scopedKey (h : a.scopedKey key = b.scopedKey key)
    (haction : a.request.action = b.request.action) : a.actor = b.actor := by
  rw [Ask.scopedKey, Ask.scopedKey, haction] at h
  exact List.append_cancel_right (List.append_cancel_right
    (List.append_cancel_right (List.append_cancel_right h)))

end Calls

/-- A call under a key is carried out once: for a month, whatever happens to the organization, the
same call gets the same answer and another one under the key is refused, and nothing changes. And a
call is answered from what is kept only with the answer to the same call by the same actor. -/
theorem keyed_once (hdigest : Function.Injective digest) (w : World) :
    (∀ (d : Desk δ) (m : Instant) (a : Ask) (key : Str) (answer : Answer) (between : List DeskTurn)
        (m' : Instant) (b : Ask),
      let d' := between.foldl (Desk.step digest) (d.ask digest m a).1
      d.CarriesOut digest m a key answer →
      (∀ turn ∈ between, ∀ now ∈ turn.now?, now ≤ m.now + requestRetention) →
      d'.admits b = true → b.actor = a.actor → b.request.action = a.request.action →
      b.key = some key →
      d'.ask digest m' b =
        if b.params = a.params then
          if Desk.releases m' b answer then d'.release m' answer else (d', .ok answer)
        else (d', .error "Idempotency key was already used with different parameters")) ∧
    ∀ (turns : List DeskTurn) (m : Instant) (b : Ask) (after : Desk δ) (answer : Answer),
      let d := turns.foldl (Desk.step digest) { world := w }
      d.update digest m b = .ok (after, answer) →
      d.carryOut digest m b = .ok (after, answer) ∨
      after = d ∧ ∃ earlier m₀ a later key, turns = earlier ++ .ask m₀ a :: later ∧
        a.actor = b.actor ∧ a.params = b.params ∧
        (earlier.foldl (Desk.step digest) { world := w }).CarriesOut digest m₀ a key answer := by
  constructor
  · intro d m a key answer between m' b d' hout hbetween hadmits hactor haction hkey
    have hkept : d'.requests.get (a.scopedKey key) =
        some { hash := digest a.params, result := answer, at' := m.now } := by
      apply Desk.run_get _ hbetween
      rw [hout.requests, Dict.get_set_self]
    have hscoped : b.scopedKey key = a.scopedKey key := by
      rw [Ask.scopedKey, Ask.scopedKey, hactor, haction]
    rw [Desk.admits, Bool.and_eq_true, Option.isNone_iff_eq_none] at hadmits
    have hup : d'.update digest m' b = if b.params = a.params then .ok (d', answer)
        else .error "Idempotency key was already used with different parameters" := by
      rw [Desk.update, hadmits.2, hkey, Option.bind_some, hscoped, hkept]
      by_cases hparams : b.params = a.params
      · simp [hparams]
      · have hne : digest a.params ≠ digest b.params := fun h => hparams (hdigest h).symm
        simp [hparams, hne]
    have hvalid : (decide (key = []) || decide (200 < key.length)) = false := by
      simpa using hout.valid
    rw [Desk.ask, hadmits.1]
    simp only [hkey, Option.any_some, hvalid, Bool.false_eq_true, if_false, hup]
    by_cases hparams : b.params = a.params
    · simp only [hparams, if_true, Desk.finish]
    · simp only [hparams, if_false]
  · intro turns m b after answer d hup
    rcases Desk.update_cases hup with ⟨hafter, key, saved, hkey, hget, hhash, hanswer⟩ | ⟨-, hdone⟩
    · obtain ⟨earlier, m₀, a, later, key₀, hturns, hscoped, hfrom, hout⟩ :=
        Desk.origin digest w turns (Dict.mem_of_get hget)
      have hparams : a.params = b.params := hdigest (hfrom.symm.trans hhash)
      have hrequest : a.request = b.request := congrArg Params.request hparams
      have hkeys : a.key = b.key := congrArg Params.key hparams
      rw [hout.keyed, hkey, Option.some.injEq] at hkeys
      subst hkeys
      have hactor : a.actor = b.actor :=
        Ask.actor_of_scopedKey hscoped.symm (by rw [hrequest])
      exact .inr ⟨hafter, earlier, m₀, a, later, key₀, hturns, hactor, hparams, hanswer ▸ hout⟩
    · exact .inl hdone

section Samples

def plainInstant : Instant where
  isAbsolute _ := true
  ownsProject _ := true
  resolve root := root
  claimState _ := text "none"
  now := 0
  ticketKey _ t := t.title
  shared _ := false
  release w := w

def reportTicket : World := { org := { tasks := [{ id := text "t", title := text "Report" }] } }

def remark (actor : Str) (caller : Actor) : Ask where
  actor := actor
  caller := { actor := caller }
  request := .call (text "t") (.comment (text "Done?") false)
  key := some (text "k")

def pausedTicket : World := { reportTicket with org := { reportTicket.org with running := false } }

/-- A worker's retry is refused once its turn has been revoked. -/
theorem revoked_retry :
    let a := remark (text "employee:e") (.employee (text "e"))
    let d := ({ world := reportTicket } : Desk Params).ask id plainInstant a
    d.2 = .ok (.commented (text "t") 2 .todo) ∧
    ((d.1.step id (.other pausedTicket)).ask id plainInstant a).2 =
      .error "This employee turn has been revoked" :=
  ⟨rfl, rfl⟩

theorem keyed_once_remark :
    let a := remark (text "user") .user
    let d := (({ world := reportTicket } : Desk Params).ask id plainInstant a).1.step id (.other pausedTicket)
    d.ask id plainInstant a = (d, .ok (.commented (text "t") 2 .todo)) := by
  intro a d
  have hout : ({ world := reportTicket } : Desk Params).CarriesOut id plainInstant a (text "k")
      (.commented (text "t") 2 .todo) :=
    ⟨rfl, by decide, rfl, rfl, _, rfl⟩
  exact (keyed_once id Function.injective_id reportTicket).1 { world := reportTicket } plainInstant a
    (text "k") (.commented (text "t") 2 .todo) [.other pausedTicket] plainInstant a hout
    (by simp [DeskTurn.now?]) rfl rfl rfl rfl

end Samples

end Raticode.Organizations
