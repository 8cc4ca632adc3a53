import Raticode.DeviceClaim
import Raticode.Guarded

/-! `gofer.ui.chat_jobs` and the bridge that starts a turn for each request it claims. The
tables call a request finished when it is cancelled, while its turn is still stopping. -/
namespace Raticode.Device
open PyDocument

inductive StartRefusal where
  | identifier
  | capacity
  | activeTurn
  | disk
  | stopping
  deriving DecidableEq, Repr

/-- `_identifier`: letters, digits, underscores and hyphens, 1 to 128 of them. -/
def isIdentifier (s : Str) : Bool :=
  decide (1 ≤ s.length) && decide (s.length ≤ 128) && s.all (fun c =>
    (65 ≤ c && c ≤ 90) || (97 ≤ c && c ≤ 122) || (48 ≤ c && c ≤ 57) || c = 95 || c = 45)

structure ChatJobs where
  active : List (Str × Str)
  closed : Bool

namespace ChatJobs

def maxActive : ℕ := 8

def conversations (c : ChatJobs) : List Str := c.active.map Prod.fst

/-- `ChatJobs.start`, where `disk` says whether the journal and the thread can be created. -/
def start (c : ChatJobs) (conversation turn : Str) (disk : Bool) : Except StartRefusal ChatJobs :=
  if !isIdentifier conversation || !isIdentifier turn then .error .identifier
  else if c.closed || maxActive ≤ c.active.length then .error .capacity
  else if c.active.any (fun item => item.1 = conversation) then .error .activeTurn
  else if !disk then .error .disk
  else .ok { c with active := c.active ++ [(conversation, turn)] }

theorem start_of_not_mem {c : ChatJobs} {conversation turn : Str} {disk : Bool}
    (hname : isIdentifier conversation = true) (hturn : isIdentifier turn = true)
    (hfree : conversation ∉ c.conversations) {e : StartRefusal}
    (he : c.start conversation turn disk = .error e) : e = .capacity ∨ e = .disk := by
  have hnone : c.active.any (fun item => decide (item.1 = conversation)) = false := by
    rw [List.any_eq_false]
    intro item hitem hitem'
    rw [decide_eq_true_eq] at hitem'
    exact hfree (List.mem_map.mpr ⟨item, hitem, hitem'⟩)
  unfold start at he
  rw [hname, hturn, hnone] at he
  simp only [Bool.not_true, Bool.or_self, Bool.false_eq_true, if_false] at he
  split_ifs at he
  · exact .inl (Except.error.inj he).symm
  · exact .inr (Except.error.inj he).symm

theorem start_conversations {c c' : ChatJobs} {conversation turn : Str} {disk : Bool}
    (h : c.start conversation turn disk = .ok c') :
    c'.conversations = c.conversations ++ [conversation] := by
  unfold start at h
  split_ifs at h
  rw [← Except.ok.inj h, conversations, conversations, List.map_append]
  rfl

end ChatJobs

def Claimed.conversation (c : Claimed) : Value :=
  Device.conversation c.context (c.event.threadId.getD [])

structure Floor (X : Type) where
  office : Office X
  chat : ChatJobs
  stopping : Bool
  pending : Option Claimed
  claims : List (Claimed × ChatJobs)
  launches : List (Claimed × Option StartRefusal)

inductive FloorAct (X : Type) where
  | works (a : WorkAct X)
  | ticks
  | dispatches (disk : Bool)
  | starts (conversation turn : Str) (disk : Bool)
  | ends (conversation turn : Str)
  | closes
  | stops

namespace Floor
variable {X : Type} (b : Workbench X) (handlers : Handlers X)

def work (f : Floor X) : WorkAct X → Floor X
  | .claims _ => f
  | .restarts =>
    { f with office := f.office.act b handlers .restarts, chat := ⟨[], false⟩,
             stopping := false, pending := none }
  | a => { f with office := f.office.act b handlers a }

/-- The claim of `_tick`. -/
def tick (f : Floor X) : Floor X :=
  if f.pending.isSome then f
  else
    match f.office.store.transaction (Store.claim b (some f.chat.conversations)) with
    | (.ok (some c), store) =>
      { f with office := ⟨store, f.office.log ++ [⟨c, f.office.store⟩]⟩, pending := some c,
               claims := f.claims ++ [(c, f.chat)] }
    | (_, store) => { f with office := { f.office with store } }

/-- The start of `dispatch`. A conversation that is no string is no identifier. -/
def launch (f : Floor X) (c : Claimed) (disk : Bool) : Except StartRefusal ChatJobs :=
  if f.stopping then .error .stopping
  else
    match c.conversation with
    | .str name => f.chat.start name c.turn disk
    | _ => .error .identifier

def failure : StartRefusal → String
  | .stopping => "backend_stopping"
  | _ => "dispatch_not_started"

/-- `dispatch`. A turn that does not start fails its request. -/
def dispatch (f : Floor X) (disk : Bool) : Floor X :=
  match f.pending with
  | none => f
  | some c =>
    match f.launch c disk with
    | .ok chat => { f with chat, pending := none, launches := f.launches ++ [(c, none)] }
    | .error e =>
      { f with office := f.office.commits (Store.complete b c.peer (c.event.requestId.getD []) []
                 (some (failure e)) none),
               pending := none, launches := f.launches ++ [(c, some e)] }

def startTurn (f : Floor X) (conversation turn : Str) (disk : Bool) : Floor X :=
  match f.chat.start conversation turn disk with
  | .ok chat => { f with chat }
  | .error _ => f

def endTurn (f : Floor X) (conversation turn : Str) : Floor X :=
  { f with chat := { f.chat with
    active := f.chat.active.filter (fun item => item ≠ (conversation, turn)) } }

def act (f : Floor X) : FloorAct X → Floor X
  | .works a => f.work b handlers a
  | .ticks => f.tick b
  | .dispatches disk => f.dispatch b disk
  | .starts conversation turn disk => f.startTurn conversation turn disk
  | .ends conversation turn => f.endTurn conversation turn
  | .closes => { f with chat := { f.chat with closed := true } }
  | .stops => { f with stopping := true }

def start (identity : Str) (rest : X) : Floor X :=
  ⟨⟨.empty identity rest, []⟩, ⟨[], false⟩, false, none, [], []⟩

def run (identity : Str) (rest : X) (acts : List (FloorAct X)) : Floor X :=
  acts.foldl (act b handlers) (start identity rest)

/-! The condition. -/

/-- A live turn that is seen in the tables: it was started for a request of the thread that is its
conversation, and the request is still running. -/
def isHeld (f : Floor X) (item : Str × Str) : Bool :=
  f.launches.any (fun l => l.2 = none && l.1.turn = item.2 && l.1.event.threadId = some item.1 &&
    f.office.store.work.any (fun w => w.peer = l.1.peer && l.1.event.requestId = some w.request &&
      w.state = .running))

/-- The live turns that a step has left behind, by cancelling or completing their request or by taking
its phone away while they are still stopping, and those of the desktop. -/
def leftBehind (f : Floor X) : List (Str × Str) := f.chat.active.filter (fun item => !f.isHeld item)

/-- What a claim selects has a conversation that can have turns, and none is left behind in it, unless
the claim looks at the live turns itself. -/
def isClear (f : Floor X) : Bool :=
  match f.office.store.selected with
  | none => true
  | some row =>
    let context := f.office.store.contextOf row.peer row.thread
    match conversation context row.thread with
    | .str name => isIdentifier name && isIdentifier row.turn &&
        ((member context "desktop_thread_id").isSome || f.leftBehind.all (fun item => item.1 ≠ name))
    | _ => false

def admits (f : Floor X) : FloorAct X → Bool
  | .ticks => f.isClear
  | .starts name _ _ => !f.pending.any (fun c => eqValue c.conversation (.str name))
  | _ => true

/-! What the condition gives. -/

def CanStart (chat : ChatJobs) (c : Claimed) : Prop :=
  ∃ name, c.conversation = .str name ∧ isIdentifier name = true ∧ isIdentifier c.turn = true ∧
    name ∉ chat.conversations

/-- No turn of a claimed request's conversation runs when it is claimed, and its own turn is
refused for capacity, shutdown or the disk only. -/
structure Free (f : Floor X) : Prop where
  claims : ∀ l ∈ f.claims,
    hasTurn l.2.conversations l.1.context (l.1.event.threadId.getD []) = false
  launches : ∀ l ∈ f.launches, ∀ e, l.2 = some e → e = .capacity ∨ e = .disk ∨ e = .stopping

structure Good (f : Floor X) : Prop where
  office : f.office.Sound
  free : f.Free
  logged : ∀ c, f.pending = some c ∨ (c, none) ∈ f.launches → ∃ e ∈ f.office.log, e.claimed = c
  pending : ∀ c, f.pending = some c → CanStart f.chat c

variable {b handlers} {f : Floor X}

theorem CanStart.hasTurn_eq_false {chat : ChatJobs} {c : Claimed} (h : CanStart chat c) :
    hasTurn chat.conversations c.context (c.event.threadId.getD []) = false := by
  obtain ⟨name, hname, -, -, hfree⟩ := h
  unfold Claimed.conversation at hname
  rw [hasTurn, hname, List.any_eq_false]
  intro other hother he
  simp only [eqValue, decide_eq_true_eq] at he
  exact hfree (he ▸ hother)

theorem CanStart.mono {chat chat' : ChatJobs} {c : Claimed} (h : CanStart chat c)
    (hsub : ∀ name ∈ chat'.conversations, c.conversation = .str name → name ∈ chat.conversations) :
    CanStart chat' c := by
  obtain ⟨name, hname, hid, hturn, hfree⟩ := h
  exact ⟨name, hname, hid, hturn, fun hm => hfree (hsub name hm hname)⟩

theorem not_mem_of_local {context : Record} {thread name : Str} {jobs : List Str}
    (hname : conversation context thread = .str name) (hid : isIdentifier name = true)
    (hnative : (member context "desktop_thread_id").isSome = true)
    (hlocal : Store.hasLocalTurn context (some jobs) = false) : name ∉ jobs := by
  obtain ⟨value, hvalue⟩ := Option.isSome_iff_exists.mp hnative
  rw [conversation, hvalue, Option.getD_some] at hname
  subst hname
  unfold Store.hasLocalTurn at hlocal
  rw [hvalue] at hlocal
  have hne : name ≠ [] := by
    rintro rfl
    exact absurd hid (by decide)
  simpa [hne] using hlocal

/-- The request of a held turn is a running row of the thread that is its conversation. -/
theorem Good.running_of_held (h : f.Good) {item : Str × Str} (hheld : f.isHeld item = true) :
    f.office.store.isBusy item.1 = true := by
  simp only [isHeld, List.any_eq_true, Bool.and_eq_true, decide_eq_true_eq] at hheld
  obtain ⟨⟨c, refused⟩, hl, ⟨⟨hstarted, -⟩, hthread⟩, w, hw, ⟨hpeer, hrequest⟩, hrunning⟩ := hheld
  obtain rfl : refused = none := hstarted
  obtain ⟨e, he, rfl⟩ := h.logged c (.inr hl)
  obtain ⟨row, hrow, hkey, -, hevent⟩ := h.office.past e he
  have hsame : row = w := by
    apply List.inj_on_of_nodup_map h.office.unique hrow hw
    rw [Dispatched.key, hrequest, Prod.mk.injEq, Option.some.injEq] at hkey
    rw [Work.key, Work.key, ← hkey.1, ← hkey.2, hpeer]
  subst hsame
  have hplace : some row.thread = some item.1 := by
    rw [← (h.office.named row hrow).2, ← hthread, hevent]
  exact List.any_eq_true.mpr ⟨row, hw, by simp [Option.some.inj hplace, hrunning]⟩

theorem isClear_spec (h : f.isClear = true) {row : Work} (hrow : f.office.store.selected = some row) :
    ∃ name, conversation (f.office.store.contextOf row.peer row.thread) row.thread = .str name ∧
      isIdentifier name = true ∧ isIdentifier row.turn = true ∧
      ((member (f.office.store.contextOf row.peer row.thread) "desktop_thread_id").isSome = true ∨
        ∀ item ∈ f.leftBehind, item.1 ≠ name) := by
  unfold isClear at h
  rw [hrow] at h
  simp only at h
  split at h
  next name hname =>
    simp only [Bool.and_eq_true, Bool.or_eq_true, List.all_eq_true, decide_eq_true_eq] at h
    exact ⟨name, hname, h.1.1, h.1.2, h.2⟩
  · cases h

/-- No turn of the conversation of a selected request is live: a held one keeps its thread busy. -/
theorem Good.not_mem_of_clear (h : f.Good) {row : Work} (hrow : f.office.store.selected = some row)
    {name : Str}
    (hname : conversation (f.office.store.contextOf row.peer row.thread) row.thread = .str name)
    (hid : isIdentifier name = true)
    (hclear : (member (f.office.store.contextOf row.peer row.thread) "desktop_thread_id").isSome = true ∨
      ∀ item ∈ f.leftBehind, item.1 ≠ name)
    (hlocal : Store.hasLocalTurn (f.office.store.contextOf row.peer row.thread)
      (some f.chat.conversations) = false) : name ∉ f.chat.conversations := by
  by_cases hnative : (member (f.office.store.contextOf row.peer row.thread) "desktop_thread_id").isSome = true
  · exact not_mem_of_local hname hid hnative hlocal
  intro hlive
  obtain ⟨item, hitem, rfl⟩ := List.mem_map.mp hlive
  have hheld : f.isHeld item = true := by
    by_contra hloose
    have hbehind : item ∈ f.leftBehind := List.mem_filter.mpr ⟨hitem, by simpa using hloose⟩
    exact (hclear.resolve_left hnative) item hbehind rfl
  have hbusy := h.running_of_held hheld
  rw [Option.not_isSome_iff_eq_none] at hnative
  rw [conversation, hnative, Option.getD_none, Value.str.injEq] at hname
  rw [← hname, (selected_spec hrow).2.2.2.2] at hbusy
  cases hbusy

theorem Good.tick (h : f.Good) (hclear : f.isClear = true) : (f.tick b).Good := by
  unfold Floor.tick
  split
  · exact h
  have hclaim : Attempt.Wp (Store.claim b (some f.chat.conversations)) _ _ f.office.store :=
    claim_spec (N := fun _ _ => False) (some f.chat.conversations) h.office.unique
  unfold Attempt.Wp at hclaim
  unfold Store.transaction
  cases hr : Store.claim b (some f.chat.conversations) f.office.store with
  | error e s' =>
    exact ⟨h.office.settles (N := fun _ _ => False) rfl (.refl _), ⟨h.free.claims, h.free.launches⟩,
      h.logged, h.pending⟩
  | ok r s' =>
    rw [hr] at hclaim
    cases r with
    | none =>
      exact ⟨h.office.settles rfl hclaim, ⟨h.free.claims, h.free.launches⟩, h.logged, h.pending⟩
    | some c =>
      obtain ⟨row, hrow, hlocal, hwork, hpeer, hcontext, hevent, hturn⟩ := hclaim
      obtain ⟨name, hname, hid, hidturn, hfree⟩ := isClear_spec hclear hrow
      have hthread : c.event.threadId = some row.thread := by
        rw [hevent]
        exact (h.office.named row (selected_spec hrow).1).2
      have hcan : CanStart f.chat c := by
        refine ⟨name, ?_, hid, hturn ▸ hidturn, h.not_mem_of_clear hrow hname hid hfree hlocal⟩
        rw [Claimed.conversation, hcontext, hthread]
        exact hname
      refine ⟨h.office.claimed hrow hwork hpeer hevent, ⟨?_, h.free.launches⟩, ?_, ?_⟩
      · intro l hl
        rcases List.mem_append.mp hl with hold | hnew
        · exact h.free.claims l hold
        · rw [List.mem_singleton.mp hnew]
          exact hcan.hasTurn_eq_false
      · rintro c' (hpending | hlaunched)
        · obtain rfl := Option.some.inj hpending
          exact ⟨_, List.mem_append_right _ (List.mem_singleton.mpr rfl), rfl⟩
        · obtain ⟨e, he, hclaimed⟩ := h.logged c' (.inr hlaunched)
          exact ⟨e, List.mem_append_left _ he, hclaimed⟩
      · rintro c' ⟨⟩
        exact hcan

theorem launch_of_canStart {c : Claimed} (h : CanStart f.chat c) {disk : Bool} {e : StartRefusal}
    (he : f.launch c disk = .error e) : e = .capacity ∨ e = .disk ∨ e = .stopping := by
  obtain ⟨name, hname, hid, hturn, hfree⟩ := h
  unfold launch at he
  rw [hname] at he
  split at he
  · exact .inr (.inr (Except.error.inj he).symm)
  · rcases ChatJobs.start_of_not_mem hid hturn hfree he with rfl | rfl
    · exact .inl rfl
    · exact .inr (.inl rfl)

theorem Good.dispatch (h : f.Good) (disk : Bool) : (f.dispatch b disk).Good := by
  unfold Floor.dispatch
  cases hpending : f.pending with
  | none => exact h
  | some c =>
    have hfree : ∀ refused, (∀ e, refused = some e → e = .capacity ∨ e = .disk ∨ e = .stopping) →
        ∀ l ∈ f.launches ++ [(c, refused)], ∀ e, l.2 = some e →
          e = StartRefusal.capacity ∨ e = .disk ∨ e = .stopping := by
      intro refused hrefused l hl
      rcases List.mem_append.mp hl with hold | hnew
      · exact h.free.launches l hold
      · rw [List.mem_singleton.mp hnew]
        exact hrefused
    simp only
    cases hlaunch : f.launch c disk with
    | ok chat =>
      refine ⟨h.office, ⟨h.free.claims, hfree none (fun e he => nomatch he)⟩, ?_, nofun⟩
      rintro c' (hpending' | hlaunched)
      · cases hpending'
      rcases List.mem_append.mp hlaunched with hold | hnew
      · exact h.logged c' (.inr hold)
      · have hsame : c' = c := congrArg Prod.fst (List.mem_singleton.mp hnew)
        rw [hsame]
        exact h.logged c (.inl hpending)
    | error e =>
      refine ⟨h.office.settles rfl
        (settles_transaction (N := fun _ _ => False) (Tidy.complete _ _ _ _ _) h.office.unique),
        ⟨h.free.claims, ?_⟩, ?_, nofun⟩
      · refine hfree (some e) ?_
        rintro e' ⟨⟩
        exact launch_of_canStart (h.pending c hpending) hlaunch
      · rintro c' (hpending' | hlaunched)
        · cases hpending'
        rcases List.mem_append.mp hlaunched with hold | hnew
        · exact h.logged c' (.inr hold)
        · cases List.mem_singleton.mp hnew

theorem Good.work (h : f.Good) (a : WorkAct X) : (f.work b handlers a).Good := by
  have hact : ∀ a, (f.office.act b handlers a).Sound := fun a => (h.office.act a).1
  have hlog : ∀ a, ∀ e ∈ f.office.log, e ∈ (f.office.act b handlers a).log := by
    intro a e he
    cases a with
    | claims jobs =>
      change e ∈ (f.office.claims b jobs).log
      unfold Office.claims
      split
      · exact List.mem_append_left _ he
      · exact he
    | _ => exact he
  unfold Floor.work
  split
  · exact h
  · refine ⟨hact .restarts, ⟨h.free.claims, h.free.launches⟩, ?_, nofun⟩
    rintro c (hpending | hlaunched)
    · cases hpending
    · exact h.logged c (.inr hlaunched)
  · refine ⟨hact _, ⟨h.free.claims, h.free.launches⟩, fun c hc => ?_, h.pending⟩
    obtain ⟨e, he, hclaimed⟩ := h.logged c hc
    exact ⟨e, hlog _ e he, hclaimed⟩

theorem Good.startTurn (h : f.Good) {name turn : Str} {disk : Bool}
    (hother : ∀ c, f.pending = some c → c.conversation ≠ .str name) :
    (f.startTurn name turn disk).Good := by
  unfold Floor.startTurn
  split
  next chat hchat =>
    refine ⟨h.office, ⟨h.free.claims, h.free.launches⟩, h.logged, fun c hc => ?_⟩
    refine (h.pending c hc).mono (fun other hm he => ?_)
    rw [ChatJobs.start_conversations hchat] at hm
    rcases List.mem_append.mp hm with hold | hnew
    · exact hold
    · rw [List.mem_singleton.mp hnew] at he
      exact absurd he (hother c hc)
  · exact h

theorem Good.endTurn (h : f.Good) (name turn : Str) : (f.endTurn name turn).Good := by
  refine ⟨h.office, ⟨h.free.claims, h.free.launches⟩, h.logged, fun c hc => ?_⟩
  refine (h.pending c hc).mono (fun other hm _ => ?_)
  obtain ⟨item, hitem, rfl⟩ := List.mem_map.mp hm
  exact List.mem_map.mpr ⟨item, (List.mem_filter.mp hitem).1, rfl⟩

theorem Good.act (h : f.Good) {a : FloorAct X} (ha : f.admits a = true) :
    (f.act b handlers a).Good := by
  cases a with
  | works a => exact h.work a
  | ticks => exact h.tick ha
  | dispatches disk => exact h.dispatch disk
  | starts name turn disk =>
    refine h.startTurn (fun c hc he => ?_)
    rw [admits, hc, Option.any_some, he] at ha
    simp [eqValue] at ha
  | ends name turn => exact h.endTurn name turn
  | closes => exact ⟨h.office, ⟨h.free.claims, h.free.launches⟩, h.logged, h.pending⟩
  | stops => exact ⟨h.office, ⟨h.free.claims, h.free.launches⟩, h.logged, h.pending⟩

theorem good_start (b : Workbench X) (handlers : Handlers X) (identity : Str) (rest : X) :
    (start identity rest).Good := by
  have hoffice : (Office.run b handlers identity rest []).Sound := Office.sound_run identity rest []
  refine ⟨hoffice, ⟨fun l hl => absurd hl List.not_mem_nil, fun l hl => absurd hl List.not_mem_nil⟩,
    ?_, nofun⟩
  rintro c (hpending | hlaunched)
  · cases hpending
  · cases hlaunched

end Floor

/-! A message queued behind a turn that is then cancelled. -/
section Examples

def chatBench : Workbench Unit := { exampleBench with uuid4 := fun n => List.replicate (n + 1) 48 }

def cancelEvent (n : ℕ) (thread request : Str) : Received :=
  .event ⟨List.replicate n 1, some thread, some request, n, .requestCancel, []⟩

def twoMessages : List (WorkAct Unit) :=
  pairedPhone ++ [.authorizes phone threadA plainContext,
    .handles phone (chatEvent 1 threadA [49]) 7, .handles phone (chatEvent 2 threadA [50]) 7]

def oneTurn : List (FloorAct Unit) := twoMessages.map .works ++ [.ticks, .dispatches true]

/-- The second message waits until the turn of the first has ended. -/
def twoTurns : List (FloorAct Unit) :=
  oneTurn ++ [.ticks, .works (.completes phone [49] (text "Hello") none none), .ends threadA [48], .ticks,
    .dispatches true]

def cancelledTurn : List (FloorAct Unit) :=
  oneTurn ++ [.works (.handles phone (cancelEvent 3 threadA [49]) 7), .ticks, .dispatches true]

end Examples

end Raticode.Device
