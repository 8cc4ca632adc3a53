import Mathlib.Logic.Function.Basic
import Raticode.ApprovalFinality

/-! `_approval_gate_handler`: the activations of the approval gates of a workflow, which share a
request where they share a node. Each call of the store is one step here. -/
namespace Raticode.Approvals
open PyDocument SharedCell

structure GateConfiguration where
  workflowId : Str
  runId : Str
  nodeId : Str
  message : Str
  subject : Option Str
  approvers : List Str
  timeoutSeconds : Option ℚ
  timeoutDecision : TimeoutDecision

abbrev Path := Str × Str × Str

structure Made where
  path : Path
  message : Str
  subject : Option Str
  time : ℕ
  deriving DecidableEq

structure Entry where
  file : File
  made : Option Made

inductive GateState where
  | waiting
  | returned (decision : ApprovalDecision) (made : Option Made)
  | ended
  deriving DecidableEq

structure Activation where
  configuration : GateConfiguration
  createdAt : ℕ
  state : GateState

structure Gates where
  files : Path → Entry
  activations : List Activation
  time : ℕ

inductive GateAct where
  | opens (configuration : GateConfiguration) (m : Moment)
  /-- `mark_waiting` and `get`, in the loop of `wait_for_decision`. -/
  | marks (i : ℕ) (pid : ℤ) (m : Moment)
  | looks (i : ℕ) (m : Moment)
  | givesUp (i : ℕ) (notes : Str) (m : Moment)
  | stops (i : ℕ) (reason : Str) (m : Moment)
  | calls (workflowId runId nodeId : Str) (call : Call) (m : Moment)

def Call.isCreate : Call → Bool
  | .createOrUpdate _ => true
  | _ => false

section
variable (h : Host)

def GateConfiguration.path (c : GateConfiguration) : Path := requestPath h c.workflowId c.runId c.nodeId

def GateConfiguration.request (c : GateConfiguration) (m : Moment) : ApprovalRequest :=
  { workflowId := c.workflowId, runId := c.runId, nodeId := c.nodeId, message := c.message,
    approvers := c.approvers, requestedAt := h.stamp m.time, timeoutSeconds := c.timeoutSeconds,
    timeoutDecision := c.timeoutDecision, subjectManifestId := c.subject }

def Activation.isOpen (a : Activation) : Bool := a.state = .waiting

def fileDecision (file : File) : Option ApprovalDecision := file.bind ApprovalRequest.decision

def Entry.note (path : Path) (time : ℕ) (e : Entry) (value : File) : Entry :=
  { file := value
    made := match value, fileDecision value with
      | some r, some _ =>
        if (fileDecision e.file).isSome then e.made
        else some ⟨path, r.message, r.subjectManifestId, time⟩
      | _, _ => none }

namespace Gates

def commit {α : Type} (g : Gates) (path : Path) (m : Moment) (x : Steps α) : α × Gates :=
  let ran := x.alone m (g.files path).file
  (ran.1, { g with
    files := Function.update g.files path (ran.2.foldl (Entry.note path g.time) (g.files path))
    time := g.time + 1 })

def set (g : Gates) (i : ℕ) (state : GateState) : Gates :=
  { g with activations := g.activations.modify i (fun a => { a with state }) }

/-- What the loop of `wait_for_decision` makes of what it has read. -/
def settle (g : Gates) (i : ℕ) (path : Path) (found : Option ApprovalRequest) : Gates :=
  match found.bind ApprovalRequest.decision with
  | some decision => g.set i (.returned decision (g.files path).made)
  | none => g

/-- The decision of a gate whose deadline has passed, for which `decide` may raise. -/
def settleDecided (g : Gates) (i : ℕ) (path : Path) : Except Refusal ApprovalRequest → Gates
  | .ok r => g.settle i path (some r)
  | .error _ => g.set i .ended

def timeoutValue (c : GateConfiguration) : DecisionValue :=
  if c.timeoutDecision = .timeout then .timeout else .rejected

def actWaiting (g : Gates) (i : ℕ) (step : Activation → Gates) : Gates :=
  match g.activations[i]? with
  | some a => if a.isOpen then step a else g
  | none => g

def act (g : Gates) : GateAct → Gates
  | .opens c m =>
    let after := (g.commit (c.path h) m (Approvals.createOrUpdate h (c.request h m))).2
    { after with activations := after.activations ++ [⟨c, g.time, .waiting⟩] }
  | .marks i pid m => g.actWaiting i (fun a =>
      (g.commit (a.configuration.path h) m (Approvals.markWaiting h pid)).2)
  | .looks i m => g.actWaiting i (fun a =>
      let after := g.commit (a.configuration.path h) m (getAt h)
      after.2.settle i (a.configuration.path h) after.1.1)
  | .givesUp i notes m => g.actWaiting i (fun a =>
      let after := g.commit (a.configuration.path h) m
        (Approvals.decide h (timeoutValue a.configuration) (text "raticode") notes)
      after.2.settleDecided i (a.configuration.path h) after.1)
  | .stops i reason m => g.actWaiting i (fun a =>
      ((g.commit (a.configuration.path h) m (Approvals.cancel h reason)).2).set i .ended)
  | .calls workflowId runId nodeId call m =>
    if call.isCreate then g
    else (g.commit (requestPath h workflowId runId nodeId) m (call.code h)).2

def start (files : Path → File) : Gates := ⟨fun path => ⟨files path, none⟩, [], 0⟩

def run (files : Path → File) (acts : List GateAct) : Gates := acts.foldl (act h) (start files)

def isFree (g : Gates) : GateAct → Bool
  | .opens c m =>
    g.activations.all (fun a => !a.isOpen || a.configuration.path h ≠ c.path h) &&
      ((readBack h (g.files (c.path h)).file m).bind ApprovalRequest.decision).isNone
  | _ => true

/-- Each decision that an activation has returned was made for it: on a request with its message
and its subject, after it had created the request, and for no other activation. -/
structure Own (g : Gates) : Prop where
  own : ∀ a ∈ g.activations, ∀ decision made, a.state = .returned decision made →
    ∃ k, made = some k ∧ k.path = a.configuration.path h ∧ k.message = a.configuration.message ∧
      orNone k.subject = orNone a.configuration.subject ∧ a.createdAt < k.time
  single : ∀ (i j : ℕ) a b decision decision' made, g.activations[i]? = some a →
    g.activations[j]? = some b → a.state = .returned decision made →
    b.state = .returned decision' made → i = j

end Gates

end

/-! What a call makes of a request. -/
section Calls
variable {h : Host} {c : GateConfiguration} {r : ApprovalRequest}

theorem orNone_orNone (value : Option Str) : orNone (orNone value) = orNone value := by
  unfold orNone
  cases value with
  | none => rfl
  | some s => simp only [Option.filter_filter, Bool.and_self]

def Carries (c : GateConfiguration) (r : ApprovalRequest) : Prop :=
  r.message = c.message ∧ orNone r.subjectManifestId = orNone c.subject

def FileCarries (c : GateConfiguration) (file : File) : Prop := ∃ r, file = some r ∧ Carries c r

theorem Carries.reload (hr : Carries c r) (m : Moment) : Carries c (r.reload h m) :=
  ⟨hr.1, (orNone_orNone _).trans hr.2⟩

theorem Carries.carry (hr : Carries c r) (existing : Option ApprovalRequest) :
    Carries c (carry existing r) := by
  unfold Approvals.carry
  split
  · exact hr
  · exact hr

theorem keeps_getAt {α : Type} {f : Option ApprovalRequest × Moment → Steps α}
    (hf : ∀ r m, Carries c r → (f (some r, m)).Keeps (FileCarries c)) :
    ((getAt h).bind f).Keeps (FileCarries c) := by
  intro file m hfile
  obtain ⟨stored, rfl, hstored⟩ := hfile
  have hreload : Carries c (stored.reload h m) := hstored.reload m
  simp only [expireIfNeeded]
  split_ifs
  · exact ⟨⟨_, rfl, hreload⟩, hf _ m hreload⟩
  · exact hf _ m hreload

theorem keeps_createOrUpdate {α : Type} {g : ApprovalRequest → Steps α} (hr : Carries c r)
    (hg : ∀ r, (g r).Keeps (FileCarries c)) :
    ((createOrUpdate h r).bind g).Keeps (FileCarries c) := by
  apply Program.Keeps.bind _ hg
  unfold createOrUpdate
  apply keeps_getAt
  exact fun existing m _ => ⟨⟨_, rfl, hr.carry (some existing)⟩, trivial⟩

theorem keeps_done {α : Type} (a : α) : (Program.done a : Steps α).Keeps (FileCarries c) := trivial

theorem keeps_decide (decision : DecisionValue) (decidedBy notes : Str) :
    (Approvals.decide h decision decidedBy notes).Keeps (FileCarries c) := by
  apply keeps_getAt
  intro r m hr
  simp only
  split
  · exact keeps_done _
  · exact keeps_createOrUpdate hr (fun r => keeps_done _)

theorem keeps_cancel (reason : Str) : (Approvals.cancel h reason).Keeps (FileCarries c) := by
  apply keeps_getAt
  intro r m hr
  simp only
  split
  · exact keeps_done _
  · exact keeps_createOrUpdate hr (fun r => keeps_done _)

theorem keeps_markWaiting (pid : ℤ) : (Approvals.markWaiting h pid).Keeps (FileCarries c) := by
  apply keeps_getAt
  exact fun r m hr => keeps_createOrUpdate hr (fun r => keeps_done _)

theorem keeps_get : (getAt h).Keeps (FileCarries c) := by
  intro file m hfile
  obtain ⟨stored, rfl, hstored⟩ := hfile
  simp only [expireIfNeeded]
  split_ifs
  · exact ⟨⟨_, rfl, hstored.reload (h := h) m⟩, trivial⟩
  · exact keeps_done _

theorem keeps_code {call : Call} (hcall : call.isCreate = false) :
    (call.code h).Keeps (FileCarries c) := by
  cases call with
  | createOrUpdate r => cases hcall
  | get => exact keeps_get.bind (fun _ => keeps_done _)
  | decide decision decidedBy notes => exact (keeps_decide _ _ _).bind (fun _ => keeps_done _)
  | cancel reason => exact (keeps_cancel _).bind (fun _ => keeps_done _)
  | markWaiting pid => exact (keeps_markWaiting _).bind (fun _ => keeps_done _)
  | claimResume pid =>
    apply Program.Keeps.bind _ (fun _ => keeps_done _)
    apply keeps_getAt
    intro r m hr
    simp only
    split
    · exact keeps_done _
    · exact keeps_createOrUpdate hr (fun r => keeps_done _)
  | releaseResume =>
    apply Program.Keeps.bind _ (fun _ => keeps_done _)
    apply keeps_getAt
    exact fun r m hr => keeps_createOrUpdate hr (fun r => keeps_done _)

theorem fileDecision_get {file : File} {m : Moment}
    (hd : (((getAt h).alone m file).1.1.bind ApprovalRequest.decision).isSome = true) :
    (fileDecision (((getAt h).alone m file).2.getLast?.getD file)).isSome = true := by
  unfold getAt at hd ⊢
  cases file with
  | none => cases hd
  | some stored =>
    simp only [Program.alone_read, expireIfNeeded] at hd ⊢
    split_ifs at hd ⊢
    · exact hd
    · -- What is read back is decided where what was stored is.
      have hmap : (stored.reload h m).decision = stored.decision.map (ApprovalDecision.reload h m) := rfl
      change (stored.reload h m).decision.isSome = true at hd
      rw [hmap, Option.isSome_map] at hd
      exact hd

theorem alone_createOrUpdate (r : ApprovalRequest) (file : File) (m : Moment) :
    ∃ existing writes, (createOrUpdate h r).alone m file =
      (carry existing r, writes ++ [some (carry existing r)]) := by
  unfold createOrUpdate
  rw [Program.alone_bind]
  exact ⟨_, _, rfl⟩

theorem fileDecision_decide {file : File} {m : Moment} {decision : DecisionValue} {decidedBy notes : Str}
    (hr : ((Approvals.decide h decision decidedBy notes).alone m file).1 = .ok r) :
    r.decision.isSome = true ∧
      ((Approvals.decide h decision decidedBy notes).alone m file).2.getLast?.getD file = some r := by
  unfold Approvals.decide at hr ⊢
  rw [Program.alone_bind] at hr ⊢
  simp only at hr ⊢
  generalize (getAt h).alone m file = first at hr ⊢
  cases hfound : first.1.1 with
  | none =>
    rw [hfound] at hr
    cases hr
  | some found =>
    simp only [hfound] at hr ⊢
    cases hmay : mayDecide decidedBy found with
    | error refusal =>
      rw [hmay] at hr
      cases hr
    | ok u =>
      simp only [hmay] at hr ⊢
      rw [Program.alone_bind] at hr ⊢
      obtain ⟨existing, writes, halone⟩ := alone_createOrUpdate (h := h)
        (decided h found decision decidedBy notes first.1.2) (first.2.getLast?.getD file) m
      simp only [halone, Program.alone_done] at hr ⊢
      have hr' := Except.ok.inj hr
      refine ⟨?_, ?_⟩
      · rw [← hr']
        have hd := isDecided_carry (isDecided_decided (h := h) found decision decidedBy notes first.1.2) existing
        obtain ⟨d, hd⟩ := isDecided_iff.mp hd
        rw [hd]
        rfl
      · rw [List.append_nil, ← List.append_assoc, List.getLast?_concat, Option.getD_some, hr']

end Calls

/-! The files. -/
section Files
variable {h : Host} {a : Activation} {e : Entry} {path : Path} {time : ℕ}

def MadeFor (h : Host) (a : Activation) (k : Made) : Prop :=
  k.path = a.configuration.path h ∧ k.message = a.configuration.message ∧
    orNone k.subject = orNone a.configuration.subject ∧ a.createdAt < k.time

def Good (h : Host) (a : Activation) (e : Entry) : Prop :=
  FileCarries a.configuration e.file ∧
    ((fileDecision e.file).isSome = true → ∃ k, e.made = some k ∧ MadeFor h a k)

theorem good_note (he : Good h a e) (hpath : path = a.configuration.path h) (htime : a.createdAt < time)
    {value : File} (hv : FileCarries a.configuration value) : Good h a (e.note path time value) := by
  refine ⟨hv, fun hd => ?_⟩
  obtain ⟨r, rfl, hr⟩ := hv
  obtain ⟨d, hd⟩ := Option.isSome_iff_exists.mp hd
  have hdecision : fileDecision (some r) = some d := hd
  unfold Entry.note
  simp only [hdecision]
  split_ifs with hbefore
  · exact he.2 hbefore
  · -- It is made now, on the request that is written.
    exact ⟨_, rfl, hpath, hr.1, hr.2, htime⟩

/-- Writes that carry the activation's own request keep its file good. -/
theorem good_writes (he : Good h a e) (hpath : path = a.configuration.path h) (htime : a.createdAt < time)
    {writes : List File} (hw : ∀ value ∈ writes, FileCarries a.configuration value) :
    Good h a (writes.foldl (Entry.note path time) e) := by
  induction writes generalizing e with
  | nil => exact he
  | cons value writes ih =>
    apply ih
    · exact good_note he hpath htime (hw value List.mem_cons_self)
    · exact fun v hv => hw v (List.mem_cons_of_mem _ hv)

theorem file_writes (writes : List File) (e : Entry) :
    (writes.foldl (Entry.note path time) e).file = writes.getLast?.getD e.file := by
  rcases writes.eq_nil_or_concat with rfl | ⟨first, value, rfl⟩
  · rfl
  · rw [List.concat_eq_append, List.foldl_append, List.getLast?_concat]
    rfl

theorem made_writes {writes : List File} {k : Made} (hk : (writes.foldl (Entry.note path time) e).made = some k) :
    e.made = some k ∨ k.time = time := by
  induction writes generalizing e with
  | nil => exact .inl hk
  | cons value writes ih =>
    rcases ih hk with hmade | hnow
    · unfold Entry.note at hmade
      split at hmade
      · split_ifs at hmade
        · exact .inl hmade
        · exact .inr (by rw [← Option.some.inj hmade])
      · cases hmade
    · exact .inr hnow

end Files

/-! Every run. -/
namespace Gates
variable {h : Host} {g : Gates} {α : Type}

/-- One open activation for each request file, whose file answers for this activation only, and
every returned decision was made for the activation that returned it. -/
structure Sound (h : Host) (g : Gates) : Prop where
  alone : ∀ (i j : ℕ) a b, g.activations[i]? = some a → g.activations[j]? = some b →
    a.isOpen = true → b.isOpen = true → a.configuration.path h = b.configuration.path h → i = j
  good : ∀ a ∈ g.activations, a.isOpen = true → Good h a (g.files (a.configuration.path h))
  created : ∀ a ∈ g.activations, a.createdAt < g.time
  made : ∀ path k, (g.files path).made = some k → k.time < g.time
  returned : ∀ a ∈ g.activations, ∀ decision made, a.state = .returned decision made →
    ∃ k, made = some k ∧ MadeFor h a k ∧ k.time < g.time
  earlier : ∀ a ∈ g.activations, ∀ b ∈ g.activations, a.isOpen = true →
    a.configuration.path h = b.configuration.path h → ∀ decision k, b.state = .returned decision (some k) →
    k.time < a.createdAt
  single : ∀ (i j : ℕ) a b decision decision' made, g.activations[i]? = some a →
    g.activations[j]? = some b → a.state = .returned decision made →
    b.state = .returned decision' made → i = j

theorem sound_start (files : Path → File) : Sound h (start files) := by
  constructor
  · exact fun i j a b hi => absurd hi (by simp [start])
  · exact fun a ha => absurd ha List.not_mem_nil
  · exact fun a ha => absurd ha List.not_mem_nil
  · exact fun path k hk => absurd hk (by simp [start])
  · exact fun a ha => absurd ha List.not_mem_nil
  · exact fun a ha => absurd ha List.not_mem_nil
  · exact fun i j a b _ _ _ hi => absurd hi (by simp [start])

theorem Sound.commit (hg : Sound h g) (path : Path) (m : Moment) {x : Steps α}
    (hx : ∀ c, x.Keeps (FileCarries c)) : Sound h (g.commit path m x).2 := by
  have hfiles : ∀ other, other ≠ path → (g.commit path m x).2.files other = g.files other :=
    fun other hne => Function.update_of_ne hne _ _
  have hfile : (g.commit path m x).2.files path =
      (x.alone m (g.files path).file).2.foldl (Entry.note path g.time) (g.files path) :=
    Function.update_self _ _ _
  have htime : (g.commit path m x).2.time = g.time + 1 := rfl
  constructor
  · exact hg.alone
  · intro a ha hopen
    by_cases hpath : a.configuration.path h = path
    · have hgood := hg.good a ha hopen
      rw [hpath] at hgood ⊢
      rw [hfile]
      apply good_writes hgood hpath.symm (hg.created a ha)
      exact (hx a.configuration).alone m hgood.1
    · rw [hfiles _ hpath]
      exact hg.good a ha hopen
  · intro a ha
    have hcreated := hg.created a ha
    omega
  · intro other k hk
    by_cases hpath : other = path
    · rw [hpath, hfile] at hk
      rcases made_writes hk with hbefore | hnow
      · have hlt := hg.made path k hbefore
        omega
      · omega
    · rw [hfiles _ hpath] at hk
      have hlt := hg.made other k hk
      omega
  · intro a ha decision made hstate
    obtain ⟨k, hk, hfor, hlt⟩ := hg.returned a ha decision made hstate
    exact ⟨k, hk, hfor, by omega⟩
  · exact hg.earlier
  · exact hg.single

theorem getElem?_set {i j : ℕ} {state : GateState} {b : Activation}
    (hb : (g.set i state).activations[j]? = some b) :
    (i ≠ j ∧ g.activations[j]? = some b) ∨
    (i = j ∧ ∃ a, g.activations[i]? = some a ∧ b = { a with state }) := by
  unfold Gates.set at hb
  rw [List.getElem?_modify] at hb
  obtain ⟨a, ha, he⟩ := Option.map_eq_some_iff.mp hb
  by_cases hij : i = j
  · simp only [if_pos hij] at he
    exact .inr ⟨hij, a, by rw [hij]; exact ha, he.symm⟩
  · simp only [if_neg hij] at he
    exact .inl ⟨hij, by rw [← he]; exact ha⟩

theorem mem_set {i : ℕ} {state : GateState} {b : Activation} (hb : b ∈ (g.set i state).activations) :
    b ∈ g.activations ∨ ∃ a, g.activations[i]? = some a ∧ b = { a with state } := by
  obtain ⟨j, hj⟩ := List.mem_iff_getElem?.mp hb
  rcases getElem?_set hj with ⟨-, hold⟩ | ⟨-, a, ha, he⟩
  · exact .inl (List.mem_of_getElem? hold)
  · exact .inr ⟨a, ha, he⟩

theorem Sound.set (hg : Sound h g) {i : ℕ} {a : Activation} (ha : g.activations[i]? = some a)
    (hopen : a.isOpen = true) {state : GateState} (hstate : state ≠ .waiting)
    (hreturned : ∀ decision made, state = .returned decision made →
      ∃ k, made = some k ∧ MadeFor h a k ∧ k.time < g.time) : Sound h (g.set i state) := by
  have hmem : a ∈ g.activations := List.mem_of_getElem? ha
  have hclosed : ({ a with state } : Activation).isOpen = false := decide_eq_false hstate
  have hsame : ∀ a', g.activations[i]? = some a' → a' = a :=
    fun a' ha' => Option.some.inj (ha'.symm.trans ha)
  -- What is open afterwards was open before.
  have hold : ∀ (j : ℕ) b, (g.set i state).activations[j]? = some b → b.isOpen = true →
      g.activations[j]? = some b := by
    intro j b hb hb'
    rcases getElem?_set hb with ⟨-, hb⟩ | ⟨-, a', ha', rfl⟩
    · exact hb
    · rw [hsame a' ha', hclosed] at hb'
      cases hb'
  have hreturnedAt : ∀ b ∈ (g.set i state).activations, ∀ decision made,
      b.state = .returned decision made → ∃ k, made = some k ∧ MadeFor h b k ∧ k.time < g.time := by
    intro b hb decision made hs
    rcases mem_set hb with hb | ⟨a', ha', rfl⟩
    · exact hg.returned b hb decision made hs
    · rw [hsame a' ha']
      exact hreturned decision made hs
  -- A decision made for the activation was made for no other one.
  have hnew : ∀ (j : ℕ) b decision decision' made, g.activations[j]? = some b →
      b.state = .returned decision made → state = .returned decision' made → False := by
    intro j b decision decision' made hb hs hs'
    obtain ⟨k, hk, hfor, -⟩ := hreturned decision' made hs'
    obtain ⟨k', hk', hfor', -⟩ := hg.returned b (List.mem_of_getElem? hb) decision made hs
    rw [hk] at hk'
    rw [← Option.some.inj hk'] at hfor'
    rw [hk] at hs
    have hlt := hg.earlier a hmem b (List.mem_of_getElem? hb) hopen (hfor.1.symm.trans hfor'.1) decision k hs
    have hgt := hfor.2.2.2
    omega
  constructor
  · intro j j' b b' hb hb' ho ho' hpath
    exact hg.alone j j' b b' (hold j b hb ho) (hold j' b' hb' ho') ho ho' hpath
  · intro b hb ho
    obtain ⟨j, hj⟩ := List.mem_iff_getElem?.mp hb
    exact hg.good b (List.mem_of_getElem? (hold j b hj ho)) ho
  · intro b hb
    rcases mem_set hb with hb | ⟨a', ha', rfl⟩
    · exact hg.created b hb
    · exact hg.created a' (List.mem_of_getElem? ha')
  · exact hg.made
  · exact hreturnedAt
  · intro b hb b' hb' ho hpath decision k hs
    obtain ⟨j, hj⟩ := List.mem_iff_getElem?.mp hb
    have hbefore := List.mem_of_getElem? (hold j b hj ho)
    rcases mem_set hb' with hb' | ⟨a', ha', rfl⟩
    · exact hg.earlier b hbefore b' hb' ho hpath decision k hs
    · -- The one that stops waiting was the only one on its path that waited.
      have hsamePath : b.configuration.path h = a.configuration.path h := by
        rw [hpath, ← hsame a' ha']
      have hij := hg.alone j i b a (hold j b hj ho) ha ho hopen hsamePath
      rcases getElem?_set hj with ⟨hne, -⟩ | ⟨-, a'', ha'', rfl⟩
      · exact absurd hij.symm hne
      · rw [hsame a'' ha'', hclosed] at ho
        cases ho
  · intro j j' b b' decision decision' made hj hj' hs hs'
    rcases getElem?_set hj with ⟨-, hb⟩ | ⟨hij, a', ha', rfl⟩
    · rcases getElem?_set hj' with ⟨-, hb'⟩ | ⟨hij', a', ha', rfl⟩
      · exact hg.single j j' b b' decision decision' made hb hb' hs hs'
      · exact (hnew j b decision decision' made hb hs hs').elim
    · rcases getElem?_set hj' with ⟨-, hb'⟩ | ⟨hij', -⟩
      · exact (hnew j' b' decision' decision made hb' hs' hs).elim
      · exact hij.symm.trans hij'

theorem Sound.settle (hg : Sound h g) {i : ℕ} {a : Activation} (ha : g.activations[i]? = some a)
    (hopen : a.isOpen = true) {found : Option ApprovalRequest}
    (hfound : (found.bind ApprovalRequest.decision).isSome = true →
      (fileDecision (g.files (a.configuration.path h)).file).isSome = true) :
    Sound h (g.settle i (a.configuration.path h) found) := by
  unfold Gates.settle
  split
  next decision hd =>
    refine hg.set ha hopen GateState.noConfusion (fun decision' made hs => ?_)
    obtain ⟨k, hk, hfor⟩ := (hg.good a (List.mem_of_getElem? ha) hopen).2 (hfound (by rw [hd]; rfl))
    have hmade : (g.files (a.configuration.path h)).made = made := (GateState.returned.inj hs).2
    exact ⟨k, hmade.symm.trans hk, hfor, hg.made _ k hk⟩
  · exact hg

theorem entry_opens {c : GateConfiguration} {m : Moment}
    (hnone : (readBack h (g.files (c.path h)).file m).bind ApprovalRequest.decision = none) :
    ((g.commit (c.path h) m (Approvals.createOrUpdate h (c.request h m))).2.files (c.path h)) =
      ⟨some (c.request h m), none⟩ := by
  have hcarry : carry (readBack h (g.files (c.path h)).file m) (c.request h m) = c.request h m := by
    unfold carry
    rw [hnone]
  have halone : ∃ writes, ((Approvals.createOrUpdate h (c.request h m)).alone m
      (g.files (c.path h)).file).2 = writes ++ [some (c.request h m)] := by
    unfold Approvals.createOrUpdate
    rw [Program.alone_bind]
    refine ⟨((getAt h).alone m (g.files (c.path h)).file).2, ?_⟩
    change _ ++ [some (carry (readBack h (g.files (c.path h)).file m) (c.request h m))] = _
    rw [hcarry]
  obtain ⟨writes, halone⟩ := halone
  unfold Gates.commit
  simp only [Function.update_self, halone, List.foldl_append, List.foldl_cons, List.foldl_nil]
  rfl

theorem Sound.opens (hg : Sound h g) {c : GateConfiguration} {m : Moment}
    (hfree : g.isFree h (.opens c m) = true) : Sound h (g.act h (.opens c m)) := by
  simp only [Gates.isFree, Bool.and_eq_true, List.all_eq_true, Bool.or_eq_true, Bool.not_eq_true',
    decide_eq_true_eq, Option.isNone_iff_eq_none] at hfree
  obtain ⟨hothers, hnone⟩ := hfree
  have hentry := entry_opens hnone
  have hfiles : ∀ other, other ≠ c.path h → (g.act h (.opens c m)).files other = g.files other :=
    fun other hne => Function.update_of_ne hne _ _
  have hpath : (g.act h (.opens c m)).files (c.path h) = ⟨some (c.request h m), none⟩ := hentry
  have hlist : (g.act h (.opens c m)).activations = g.activations ++ [⟨c, g.time, .waiting⟩] := rfl
  have htime : (g.act h (.opens c m)).time = g.time + 1 := rfl
  -- An open activation is the new one, or one on another path.
  have hcases : ∀ (j : ℕ) b, (g.act h (.opens c m)).activations[j]? = some b →
      g.activations[j]? = some b ∨ (j = g.activations.length ∧ b = ⟨c, g.time, .waiting⟩) := by
    intro j b hb
    rw [hlist, List.getElem?_append] at hb
    split_ifs at hb with hlt
    · exact .inl hb
    · obtain ⟨hj, hb⟩ := List.getElem?_eq_some_iff.mp hb
      simp only [List.length_singleton] at hj
      refine .inr ⟨by omega, ?_⟩
      rw [← hb]
      simp
  have hmem : ∀ b ∈ (g.act h (.opens c m)).activations, b ∈ g.activations ∨ b = ⟨c, g.time, .waiting⟩ := by
    intro b hb
    rw [hlist] at hb
    simpa using hb
  have hother : ∀ b ∈ g.activations, b.isOpen = true → b.configuration.path h ≠ c.path h := by
    intro b hb ho
    rcases hothers b hb with hclosed | hne
    · rw [ho] at hclosed
      cases hclosed
    · exact hne
  constructor
  · intro j j' b b' hb hb' ho ho' hsame
    rcases hcases j b hb with hold | ⟨hj, rfl⟩
    · rcases hcases j' b' hb' with hold' | ⟨hj', rfl⟩
      · exact hg.alone j j' b b' hold hold' ho ho' hsame
      · exact absurd hsame (hother b (List.mem_of_getElem? hold) ho)
    · rcases hcases j' b' hb' with hold' | ⟨hj', rfl⟩
      · exact absurd hsame.symm (hother b' (List.mem_of_getElem? hold') ho')
      · rw [hj, hj']
  · intro b hb ho
    rcases hmem b hb with hold | rfl
    · rw [hfiles _ (hother b hold ho)]
      exact hg.good b hold ho
    · rw [hpath]
      exact ⟨⟨_, rfl, rfl, rfl⟩, fun hd => by cases hd⟩
  · intro b hb
    rcases hmem b hb with hold | rfl
    · have hlt := hg.created b hold
      omega
    · change g.time < g.time + 1
      omega
  · intro other k hk
    by_cases hne : other = c.path h
    · rw [hne, hpath] at hk
      cases hk
    · rw [hfiles _ hne] at hk
      have hlt := hg.made other k hk
      omega
  · intro b hb decision made hs
    rcases hmem b hb with hold | rfl
    · obtain ⟨k, hk, hfor, hlt⟩ := hg.returned b hold decision made hs
      exact ⟨k, hk, hfor, by omega⟩
    · cases hs
  · intro b hb b' hb' ho hsame decision k hs
    rcases hmem b' hb' with hold' | rfl
    · rcases hmem b hb with hold | rfl
      · exact hg.earlier b hold b' hold' ho hsame decision k hs
      · -- What was returned was made before the new activation.
        obtain ⟨k', hk, -, hlt⟩ := hg.returned b' hold' decision _ hs
        rw [Option.some.inj hk]
        exact hlt
    · cases hs
  · intro j j' b b' decision decision' made hj hj' hs hs'
    rcases hcases j b hj with hold | ⟨-, rfl⟩
    · rcases hcases j' b' hj' with hold' | ⟨-, rfl⟩
      · exact hg.single j j' b b' decision decision' made hold hold' hs hs'
      · cases hs'
    · cases hs

theorem Sound.actWaiting (hg : Sound h g) {i : ℕ} {step : Activation → Gates}
    (hstep : ∀ a, g.activations[i]? = some a → a.isOpen = true → Sound h (step a)) :
    Sound h (g.actWaiting i step) := by
  unfold Gates.actWaiting
  split
  next a ha =>
    split_ifs with hopen
    · exact hstep a ha hopen
    · exact hg
  · exact hg

theorem file_commit (path : Path) (m : Moment) (x : Steps α) :
    ((g.commit path m x).2.files path).file =
      (x.alone m (g.files path).file).2.getLast?.getD (g.files path).file := by
  unfold Gates.commit
  simp only [Function.update_self]
  exact file_writes _ _

theorem Sound.settleDecided (hg : Sound h g) {i : ℕ} {a : Activation} (ha : g.activations[i]? = some a)
    (hopen : a.isOpen = true) {result : Except Refusal ApprovalRequest}
    (hresult : ∀ r, result = .ok r → (fileDecision (g.files (a.configuration.path h)).file).isSome = true) :
    Sound h (g.settleDecided i (a.configuration.path h) result) := by
  cases result with
  | ok r =>
    apply hg.settle ha hopen
    intro _
    exact hresult r rfl
  | error refusal => exact hg.set ha hopen GateState.noConfusion (fun _ _ hs => nomatch hs)

/-- An act that opens no second gate on a file, and none on a decided one, keeps the gates sound. -/
theorem Sound.act (hg : Sound h g) {a : GateAct} (ha : g.isFree h a = true) : Sound h (g.act h a) := by
  cases a with
  | opens c m => exact hg.opens ha
  | marks i pid m => exact hg.actWaiting (fun a _ _ => hg.commit _ m (fun _ => keeps_markWaiting pid))
  | looks i m =>
    apply hg.actWaiting
    intro a ha hopen
    apply (hg.commit (a.configuration.path h) m (fun _ => keeps_get)).settle ha hopen
    intro hd
    rw [file_commit]
    exact fileDecision_get hd
  | givesUp i notes m =>
    apply hg.actWaiting
    intro a ha hopen
    have hafter := hg.commit (a.configuration.path h) m (fun _ =>
      keeps_decide (h := h) (timeoutValue a.configuration) (text "raticode") notes)
    apply hafter.settleDecided ha hopen
    intro r hr
    obtain ⟨hd, hfile⟩ := fileDecision_decide hr
    rw [file_commit, hfile]
    exact hd
  | stops i reason m =>
    apply hg.actWaiting
    intro a ha hopen
    exact (hg.commit (a.configuration.path h) m (fun _ => keeps_cancel reason)).set ha hopen
      GateState.noConfusion (fun _ _ hs => nomatch hs)
  | calls workflowId runId nodeId call m =>
    change Sound h (if call.isCreate then g else _)
    split_ifs with hcall
    · exact hg
    · rw [Bool.not_eq_true] at hcall
      exact hg.commit _ m (fun _ => keeps_code hcall)

/-- Each activation gets its own decision, in every run in which an activation only starts where
no other one waits on its path and no decision has been made there. -/
theorem own_decisions (h : Host) (files : Path → File) (acts : List GateAct)
    (hrun : Guarded.Along (Gates.act h) (fun g a => g.isFree h a = true) (start files) acts) :
    Own h (run h files acts) := by
  have hend : Sound h (run h files acts) :=
    hrun.invariant (fun g a hg ha => hg.act ha) (sound_start files)
  constructor
  · intro a ha decision made hs
    obtain ⟨k, hk, hfor, -⟩ := hend.returned a ha decision made hs
    exact ⟨k, hk, hfor⟩
  · exact hend.single

end Gates

section Examples

def shipGate (part : ℕ) : GateConfiguration :=
  { workflowId := [119], runId := [114], nodeId := [110], message := [part],
    subject := none, approvers := [], timeoutSeconds := none, timeoutDecision := .timeout }

def firstRound : List GateAct :=
  [.opens (shipGate 49) noon,
    .calls [119] [114] [110] (.decide .approved [117] []) noon,
    .looks 0 noon]

theorem firstRound_own : Gates.Own exampleHost (Gates.run exampleHost (fun _ => none) firstRound) :=
  Gates.own_decisions exampleHost (fun _ => none) firstRound (by decide +kernel)

def Activation.decidedOn (a : Activation) : Option Str :=
  match a.state with
  | .returned _ made => made.map Made.message
  | _ => none

theorem Gates.Own.decidedOn {h : Host} {g : Gates} (hg : Gates.Own h g) {a : Activation}
    (ha : a ∈ g.activations) {message : Str} (hm : a.decidedOn = some message) :
    message = a.configuration.message := by
  unfold Activation.decidedOn at hm
  split at hm
  next decision made hstate =>
    obtain ⟨k, rfl, -, hmessage, -⟩ := hg.own a ha decision made hstate
    rw [← hmessage]
    exact (Option.some.inj hm).symm
  · cases hm

/-- The second activation is approved with the first one. -/
theorem second_round_approved : ¬ Gates.Own exampleHost
    (Gates.run exampleHost (fun _ => none) (firstRound ++ [.opens (shipGate 50) noon, .looks 1 noon])) := by
  intro hown
  have hstates : ((Gates.run exampleHost (fun _ => none)
      (firstRound ++ [.opens (shipGate 50) noon, .looks 1 noon])).activations[1]?).map
        (fun a => (a.decidedOn, a.configuration.message)) =
      some (some ([49]), [50]) := by decide +kernel
  obtain ⟨a, ha, hpair⟩ := Option.map_eq_some_iff.mp hstates
  have hmessage := hown.decidedOn (List.mem_of_getElem? ha) (congrArg Prod.fst hpair)
  have hother : a.configuration.message = [50] := congrArg Prod.snd hpair
  rw [hother] at hmessage
  exact absurd hmessage (by decide)

end Examples

end Raticode.Approvals
