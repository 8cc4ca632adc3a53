import Raticode.DeviceSharing

/-! What becomes of a message that the desktop deletes from a conversation which it shares with a
phone. -/
namespace Raticode.Device
open PyDocument Attempt OrderedDict

inductive SharingAct where
  | exchanges (peer : Str) (metadata : Record) (messages : List Record) (context : Record)
      (revision : Value)
  | exports
  | submits (peer thread request : Str) (event : Envelope)
  | cancels (peer thread request : Str) (event : Envelope)
  | claims (jobs : Option (List Str))
  | completes (peer request reply : Str) (error : Option String) (usage : Option Value)

structure SharedRun (Y : Type) where
  store : Store (Workspace Y)
  shown : List Str
  deleted : List Str

variable {Y : Type}

/-- What `local_chat_jobs` says changes from one operation to the next. -/
def Sharing.withJournal (h : Sharing Y) (journal : Option Journal) : Sharing Y := { h with journal }

def sentIds (d : Desk Y) (messages : List Record) : List Str :=
  match cleanMessages d messages with
  | .ok clean => clean.map Message.id
  | .error _ => []

namespace Store

variable (h : Sharing Y) (s : Store (Workspace Y)) (peer thread : Str)

def historyMessages (journal : Option Journal) (rich : Bool) : List Message :=
  (if rich then s.desktopMessages h.toDesk peer thread journal
    else s.messages h.toDesk peer thread false none).filter (fun m => !m.isHidden)

def Contains (i : Str) : Prop :=
  (∃ journal, ∃ m ∈ (s.exportThread (h.withJournal journal) peer thread).messages, m.id = i) ∨
  (∃ journal rich, ∃ m ∈ s.historyMessages h peer thread journal rich, m.id = i) ∨
  ∃ request, ∃ m ∈ h.dispatchedMessages s peer thread request, m.id = i

def isRecorded (i : Str) : Bool :=
  (s.shared peer thread).any (fun v =>
    v.removedIds.contains i || (v.messages.map Message.id).contains i)

end Store

namespace SharedRun

variable (h : Sharing Y) (peer thread : Str)

def accepts (q : SharedRun Y) (p : Str) (metadata : Record) (messages : List Record) (context : Record)
    (revision : Value) : Bool :=
  p = peer && q.store.shares h p metadata revision = some thread &&
    match (q.store.transaction (Store.exchange h p metadata messages context revision)).1 with
    | .ok _ => true
    | .error _ => false

def exchanged (q : SharedRun Y) (p : Str) (metadata : Record) (messages : List Record)
    (context : Record) (revision : Value) : SharedRun Y :=
  let (answer, store) := q.store.transaction (Store.exchange h p metadata messages context revision)
  match answer with
  | .error _ => { q with store }
  | .ok exported =>
    let ids := exported.messages.map Message.id
    if q.accepts h peer thread p metadata messages context revision then
      ⟨store, ids, (q.deleted ++ q.shown).filter (fun i => !(sentIds h.toDesk messages).contains i)⟩
    else if p = peer && Store.desktopThread h metadata = some thread then
      { q with store, shown := q.shown ++ ids }
    else { q with store }

def act (q : SharedRun Y) (a : Option Journal × SharingAct) : SharedRun Y :=
  let h := h.withJournal a.1
  match a.2 with
  | .exchanges p metadata messages context revision =>
    q.exchanged h peer thread p metadata messages context revision
  | .exports =>
    { q with shown := q.shown ++ (q.store.exportThread h peer thread).messages.map Message.id }
  | .submits p t request event => { q with store := (q.store.transaction (h.submit p t request event)).2 }
  | .cancels p t request event =>
    { q with store := (q.store.transaction (Store.cancelRequest h.bench p t request event)).2 }
  | .claims jobs => { q with store := (q.store.transaction (Store.claim h.bench jobs)).2 }
  | .completes p request reply error usage =>
    { q with store := (q.store.transaction (Store.complete h.bench p request reply error usage)).2 }

def run (q : SharedRun Y) (acts : List (Option Journal × SharingAct)) : SharedRun Y :=
  acts.foldl (act h peer thread) q

def records (q : SharedRun Y) (a : Option Journal × SharingAct) : Bool :=
  match a.2 with
  | .exchanges p metadata messages context revision =>
    !q.accepts (h.withJournal a.1) peer thread p metadata messages context revision ||
      q.shown.all (fun i => (sentIds h.toDesk messages).contains i || q.store.isRecorded peer thread i)
  | _ => true

def recordsAll (q : SharedRun Y) : List (Option Journal × SharingAct) → Bool
  | [] => true
  | a :: acts => q.records h peer thread a && (q.act h peer thread a).recordsAll acts

variable {h peer thread} {q : SharedRun Y}

def Removes (peer thread : Str) (q : SharedRun Y) : Prop :=
  ∀ i ∈ q.deleted, IsRemoved peer thread i q.store.rest

theorem not_contains {s : Store (Workspace Y)} {i : Str} (hi : IsRemoved peer thread i s.rest) :
    ¬ s.Contains h peer thread i := by
  rintro (⟨journal, m, hm, hid⟩ | ⟨journal, rich, m, hm, hid⟩ | ⟨request, m, hm, hid⟩)
  -- An export.
  · unfold Store.exportThread at hm
    split at hm
    · exact absurd hm List.not_mem_nil
    · split at hm
      · exact absurd hm List.not_mem_nil
      · exact ne_of_desktop hi _ hm hid
  -- The history, with the presentation or without it.
  · unfold Store.historyMessages at hm
    have hmem := (List.mem_filter.mp hm).1
    split at hmem
    · exact ne_of_desktop hi _ hmem hid
    · exact ne_of_removed hi hmem hid
  -- What a provider is sent.
  · exact ne_of_removed hi (List.mem_of_mem_drop hm) hid

theorem removed_transaction {α : Type} {x : Tx (Workspace Y) α} {i : Str} {s : Store (Workspace Y)}
    (hx : Preserves (fun s : Store (Workspace Y) => IsRemoved peer thread i s.rest) x)
    (hi : IsRemoved peer thread i s.rest) : IsRemoved peer thread i (s.transaction x).2.rest := by
  unfold Store.transaction
  split
  next heq => exact (hx s hi).ok heq
  · exact hi

theorem accepts_of_ok {p : Str} {metadata : Record} {messages : List Record} {context : Record}
    {revision : Value} {exported : Store.Exported} {store : Store (Workspace Y)}
    (hx : q.store.transaction (Store.exchange h p metadata messages context revision) =
      (.ok exported, store)) :
    q.accepts h peer thread p metadata messages context revision = true ↔
      p = peer ∧ q.store.shares h p metadata revision = some thread := by
  unfold accepts
  rw [hx]
  simp

theorem removes_exchanged (hq : q.Removes peer thread) (journal : Option Journal) (p : Str)
    (metadata : Record) (messages : List Record) (context : Record) (revision : Value)
    (hrecords : q.records h peer thread (journal, .exchanges p metadata messages context revision) = true) :
    (q.exchanged (h.withJournal journal) peer thread p metadata messages context revision).Removes
      peer thread := by
  have hrecord : q.accepts (h.withJournal journal) peer thread p metadata messages context revision =
      true → ∀ i ∈ q.shown, i ∉ sentIds h.toDesk messages → q.store.isRecorded peer thread i = true := by
    intro haccepts i hi hsent
    change (!q.accepts (h.withJournal journal) peer thread p metadata messages context revision ||
      q.shown.all _) = true at hrecords
    rw [haccepts, Bool.not_true, Bool.false_or] at hrecords
    rcases Bool.or_eq_true_iff.mp (List.all_eq_true.mp hrecords i hi) with hmem | hrec
    · exact absurd (List.contains_iff_mem.mp hmem) hsent
    · exact hrec
  generalize hx : q.store.transaction (Store.exchange (h.withJournal journal) p metadata messages context
    revision) = result
  obtain ⟨answer, store⟩ := result
  unfold exchanged
  rw [hx]
  cases answer with
  | error e =>
    -- Nothing is taken over of an exchange that fails.
    have hrest : store.rest = q.store.rest := by
      unfold Store.transaction at hx
      split at hx
      · cases hx
      · cases hx
        rfl
    intro i hi
    change IsRemoved peer thread i store.rest
    rw [hrest]
    exact hq i hi
  | ok exported =>
    have hspec := (exchange_spec q.store p metadata messages context revision).ok
      (Store.ok_of_transaction hx)
    dsimp only
    split_ifs with haccepts hthis
    · have hshares := (accepts_of_ok hx).mp haccepts
      obtain ⟨rfl, hshares⟩ := hshares
      rw [hshares] at hspec
      obtain ⟨clean, v, hclean, hremoved, hrest⟩ := hspec
      have hsent : sentIds h.toDesk messages = clean.map Message.id := by
        have hclean : cleanMessages h.toDesk messages = .ok clean := hclean
        rw [sentIds, hclean]
      intro i hi
      obtain ⟨hi, hnot⟩ := List.mem_filter.mp hi
      have hnot : i ∉ clean.map Message.id := by
        have hnot : (!(sentIds h.toDesk messages).contains i) = true := hnot
        rw [hsent] at hnot
        simpa using hnot
      refine ⟨v, ?_, ?_⟩
      · change store.rest.value p thread = some v
        rw [hrest, value_stored, if_pos ⟨rfl, rfl⟩]
      · rw [hremoved, mem_removedAfter]
        refine ⟨hnot, ?_⟩
        rcases List.mem_append.mp hi with hi | hi
        · obtain ⟨u, hu, hmem⟩ := hq i hi
          exact ⟨u, hu, .inl hmem⟩
        · have hrec := hrecord haccepts i hi (hsent ▸ hnot)
          unfold Store.isRecorded at hrec
          rw [Option.any_eq_true] at hrec
          obtain ⟨u, hu, hmem⟩ := hrec
          refine ⟨u, hu, ?_⟩
          rcases Bool.or_eq_true_iff.mp hmem with hmem | hmem
          · exact .inl (List.contains_iff_mem.mp hmem)
          · exact .inr (List.contains_iff_mem.mp hmem)
    all_goals
      -- Another conversation is stored, or none.
      intro i hi
      have hother : ¬ (p = peer ∧ q.store.shares (h.withJournal journal) p metadata revision =
          some thread) := fun hboth => haccepts ((accepts_of_ok hx).mpr hboth)
      obtain ⟨u, hu, hmem⟩ := hq i hi
      refine ⟨u, ?_, hmem⟩
      change store.rest.value peer thread = some u
      rw [← hu]
      split at hspec
      · rw [hspec]
      next thread' hthread' =>
        obtain ⟨clean, v, -, -, hrest⟩ := hspec
        rw [hrest, value_stored, if_neg]
        rintro ⟨rfl, rfl⟩
        exact hother ⟨rfl, hthread'⟩

theorem removes_act (hq : q.Removes peer thread) (a : Option Journal × SharingAct)
    (hrecords : q.records h peer thread a = true) : (q.act h peer thread a).Removes peer thread := by
  obtain ⟨journal, a⟩ := a
  cases a with
  | exchanges p metadata messages context revision =>
    exact removes_exchanged hq journal p metadata messages context revision hrecords
  | exports => exact hq
  | submits p t request event =>
    exact fun i hi => removed_transaction (removed_submit p t request event) (hq i hi)
  | cancels p t request event =>
    exact fun i hi => removed_transaction (preserves_cancelRequest detached_rest p t request event) (hq i hi)
  | claims jobs => exact fun i hi => removed_transaction (rest_claim jobs) (hq i hi)
  | completes p request reply error usage =>
    exact fun i hi => removed_transaction (rest_complete keeps_removed p request reply error usage)
      (hq i hi)

/-- Every message the run has deleted stays removed while the run goes on. -/
theorem removes_run (hq : q.Removes peer thread) (acts : List (Option Journal × SharingAct))
    (hrecords : q.recordsAll h peer thread acts = true) : (q.run h peer thread acts).Removes peer thread := by
  induction acts generalizing q with
  | nil => exact hq
  | cons a acts ih =>
    obtain ⟨hfirst, hrest⟩ := Bool.and_eq_true_iff.mp hrecords
    exact ih (removes_act hq a hfirst) hrest

/-- What the desktop has deleted stays deleted, in a run whose exchanges leave out no message that
the desktop was shown but one that is stored or was removed. -/
theorem deleted_stays_deleted (h : Sharing Y) (peer thread : Str) (s : Store (Workspace Y))
    (acts : List (Option Journal × SharingAct))
    (hrecords : recordsAll h peer thread ⟨s, [], []⟩ acts = true) :
    ∀ i ∈ (run h peer thread ⟨s, [], []⟩ acts).deleted,
      ¬ (run h peer thread ⟨s, [], []⟩ acts).store.Contains h peer thread i :=
  fun i hi => not_contains
    (removes_run (q := ⟨s, [], []⟩) (fun _ hi => absurd hi List.not_mem_nil) acts hrecords i hi)

end SharedRun

/-! A phone's message that the desktop deletes. -/
section Examples
open SharedRun

def sharingDesk : Sharing Unit where
  toDesk := plainDesk
  denied _ _ _ := false
  replySize _ reply := reply.length
  attachmentsSize _ items := items.length
  journal := none
  outer :=
    { toDesktop := plainDesk.toDesktop
      deleteRequested := fun _ _ _ => false
      metadata := fun _ _ _ _ => .error (.pairing "file_unavailable")
      nameFromMessage := fun w _ _ _ => .ok w
      saveAttachments := fun w _ _ _ => .ok w
      attachment := fun _ _ _ _ => .error (.pairing "file_unavailable")
      history := fun _ _ _ _ => []
      transcript := fun s _ _ => (s.rest, true)
      shareReply := fun s _ => .ok (s.rest, none)
      childThread := fun _ _ _ _ => .error (.pairing "project_not_open")
      sha256 := fun _ => []
      deny := fun w _ _ => w
      forget := fun w _ => w }

def sharingTables : Store (Workspace Unit) :=
  { phoneTables with rest := ⟨[], [], [phone], [], [], ()⟩ }

def sharedMetadata : Record :=
  [(.str (text "id"), .str (text "t")), (.str (text "title"), .str (text "Notes"))]

def sharedThread : Str := text "raticode-desktop-thread:t"

def sharedGrant : Record :=
  plainContext ++ [(.str (text "project_path"), .str (text "/p")),
    (.str (text "provider_permissions"), .dict [(.str (text "claude"), .str (text "default"))])]

def phoneRequest : Str := text "01234567-89ab-cdef-0123-456789abcdf0"

def phoneMessage : Envelope :=
  ⟨[1], some sharedThread, some phoneRequest, 1, .chatSubmit,
    [(.str (text "text"), .str (text "hi")), (.str (text "attachment_ids"), .list [])]⟩

def deletingAfter (reply : Str) (error : Option String) (revision : ℤ) :
    List (Option Journal × SharingAct) :=
  [(none, .exchanges phone sharedMetadata [] sharedGrant .null),
    (none, .submits phone sharedThread phoneRequest phoneMessage), (none, .claims (some [])),
    (none, .completes phone phoneRequest reply error none), (none, .exports),
    (none, .exchanges phone sharedMetadata [] sharedGrant (.int revision))]

/-- A message whose turn ended well is gone. -/
theorem finished_message_deleted :
    phoneRequest ∈ (run sharingDesk phone sharedThread ⟨sharingTables, [], []⟩
        (deletingAfter (text "done") none 2)).deleted ∧
      ∀ i ∈ (run sharingDesk phone sharedThread ⟨sharingTables, [], []⟩
          (deletingAfter (text "done") none 2)).deleted,
        ¬ (run sharingDesk phone sharedThread ⟨sharingTables, [], []⟩
          (deletingAfter (text "done") none 2)).store.Contains sharingDesk phone sharedThread i :=
  ⟨by decide +kernel, deleted_stays_deleted sharingDesk phone sharedThread sharingTables
    (deletingAfter (text "done") none 2) (by decide +kernel)⟩

/-- A message whose turn failed comes back. -/
theorem failed_message_returns : ¬ ∀ i ∈ (run sharingDesk phone sharedThread ⟨sharingTables, [], []⟩
      (deletingAfter [] (some "provider_failed") 1)).deleted,
    ¬ (run sharingDesk phone sharedThread ⟨sharingTables, [], []⟩
      (deletingAfter [] (some "provider_failed") 1)).store.Contains sharingDesk phone sharedThread i := by
  intro hgone
  have hrun : phoneRequest ∈ (run sharingDesk phone sharedThread ⟨sharingTables, [], []⟩
        (deletingAfter [] (some "provider_failed") 1)).deleted ∧
      phoneRequest ∈ ((run sharingDesk phone sharedThread ⟨sharingTables, [], []⟩
        (deletingAfter [] (some "provider_failed") 1)).store.exportThread (sharingDesk.withJournal none) phone
          sharedThread).messages.map Message.id := by decide +kernel
  obtain ⟨hdeleted, hshown⟩ := hrun
  obtain ⟨m, hm, hid⟩ := List.mem_map.mp hshown
  exact hgone phoneRequest hdeleted (.inl ⟨none, m, hm, hid⟩)

end Examples

end Raticode.Device
