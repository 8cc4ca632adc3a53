import Mathlib.Data.List.Dedup
import Mathlib.Data.List.Sort
import Raticode.DeviceHidden

/-! `DeviceWorkspace.exchange`, by which the desktop shares a conversation of its own with a phone,
and what becomes of the messages that it leaves out, while phones send requests that are claimed and
completed. -/
namespace Raticode.Device
open PyDocument Attempt OrderedDict

structure Sharing (Y : Type) extends Desk Y where
  /-- A row of `device_workspace_denied`. -/
  denied : Y → Str → Str → Bool
  /-- `len(self._encode(peer, {"text": text}))`. -/
  replySize : Str → Str → ℕ
  /-- `len(self._encode(peer, {"attachments": …}))`. -/
  attachmentsSize : Str → List Value → ℕ
  /-- `local_chat_jobs`. -/
  journal : Option Journal
  outer : Workbench (Workspace Y)

variable {Y : Type}

/-! What the desktop sends. -/
section Cleaning

variable (d : Desk Y)

/-- `[^/\\]{1,200}` behind 32 digits and a dash. -/
def isStorageName (s : Str) : Bool :=
  (s.take 32).length = 32 && (s.take 32).all isLowerHex && (s.drop 32).head? = some 0x2d &&
    1 ≤ (s.drop 33).length && (s.drop 33).length ≤ 200 &&
    (s.drop 33).all (fun c => c ≠ 0x2f && c ≠ 0x5c)

/-- An entry of `attachments(message, desktop=True)`. -/
def desktopAttachment (item : Record) : Record :=
  let storage := d.str (getOr item "storageName" (.str []))
  Message.attachment d item ++
    Message.entry "type" (.str (Message.attachmentMime d item)) ++
    if isStorageName storage then Message.entry "storageName" (.str storage) else []

def desktopAttachments (message : Record) : List Value :=
  match member message "attachments" with
  | some (.list items) => (items.take 8).filterMap (fun
    | .dict item => some (.dict (desktopAttachment d item))
    | _ => none)
  | _ => []

/-- The trace of `presentation(message, bounded=False)`, which is kept whole. -/
def wholeTrace (message : Record) : Record :=
  match member message "trace" with
  | some (.dict raw) => Message.entry "trace" (.dict (Message.traceRecord
      (Message.traceKeys.filterMap (fun key => match member raw key with
        | none | some .null => none
        | some value => some (key, d.str value)))))
  | _ => []

/-- What `exchange` keeps of a message beside its id, its role and its body. -/
def keptMembers (message : Record) : Record :=
  Message.presentation d ⟨[], [], [], message.filter (fun p => !isName (text "trace") p.1)⟩ ++
    wholeTrace d message ++
    (match member message "kind" with
      | some (.str kind) => if hiddenKinds.contains kind then Message.entry "kind" (.str kind) else []
      | _ => []) ++
    if isTruthy (getValue message "attachments") then
      Message.entry "attachments" (.list (desktopAttachments d message)) else []

def isHashable : Value → Bool
  | .list _ | .dict _ => false
  | _ => true

def messageRoles : List Str := [text "user", text "assistant", text "system"]

def cleanMessage (index : ℕ) (message : Record) : Except Fault (Option Message) :=
  if !isHashable (getValue message "role") then .error .typeError
  else
    match getValue message "role", getValue message "body" with
    | .str role, .str body =>
      if !messageRoles.contains role then .ok none
      else if !isHashable (getValue message "kind") then .error .typeError
      else .ok (some ⟨(d.str (getOr message "id" (.str (text "legacy-" ++ decimal index)))).take 160,
        role, body, keptMembers d message⟩)
    | _, _ => .ok none

def cleanMessages (messages : List Record) : Except Fault (List Message) := do
  let clean ← messages.zipIdx.mapM (fun p => cleanMessage d p.2 p.1)
  return clean.filterMap id

end Cleaning

/-! What a shared conversation takes part in. -/
namespace Sharing

variable (h : Sharing Y)

/-- `put`, in the tables of the conversations. -/
def keep (w : Workspace Y) (peer thread : Str) (value : SharedThread) : Except Fault (Workspace Y) :=
  if w.hasRoom h.toDesk peer thread value then .ok (w.stored peer thread value)
  else .error (.pairing "workspace_history_quota")

def isBlank (c : ℕ) : Bool := PyText.isSpace (Char.ofNat c)

/-- `str.split`, from the word read so far. -/
def words (word : Str) : Str → List Str
  | [] => if word = [] then [] else [word]
  | c :: w =>
    if isBlank c then (if word = [] then [] else [word]) ++ words [] w else words (word ++ [c]) w

def titleOf (trimmed : Str) : Str :=
  let title := (text " ").intercalate ((words [] trimmed).take 8)
  (if title.length < trimmed.length then title ++ text "..." else title).take 160

/-- `name_from_message`, as far as the tables of the conversations go. -/
def nameFromMessage (w : Workspace Y) (peer thread : Str) (value : Value) :
    Except Fault (Workspace Y) :=
  match value with
  | .str s =>
    let trimmed := Scan.trim isBlank s
    if trimmed = [] then .ok w
    else
      match w.value peer thread with
      | none => .ok w
      | some v =>
        if isTruthy (getValue v.more "auto_title") ||
            !eqValue (getValue v.metadata "title") (.str (text "New thread")) then .ok w
        else do
          let revision ← Store.nextRevision v.revision
          h.keep w peer thread
            { v with revision, more := setMember v.more "auto_title" (.str (titleOf trimmed)) }
  | _ => .error .typeError

def saveAttachments (w : Workspace Y) (peer request : Str) (attachments : List Record) :
    Except Fault (Workspace Y) :=
  let items := attachments.map Value.dict
  let used := ((w.attachments.filter (fun a => a.peer = peer)).map
    (fun a => h.attachmentsSize peer a.items)).sum
  if 32 * 1024 * 1024 < used + h.attachmentsSize peer items then
    .error (.pairing "attachment_history_quota")
  else .ok { w with attachments := w.attachments ++ [⟨peer, request, items⟩] }

def dispatched (m : Message) : Value :=
  let saved := match member m.more "attachments" with
    | some (.list items) => items.filter (fun
      | .dict item => isTruthy (getValue item "storageName")
      | _ => false)
    | _ => []
  .dict ([(.str (text "role"), .str m.role), (.str (text "content"), .str m.body)] ++
    if saved.isEmpty then [] else Message.entry "attachments" (.list saved))

def dispatchedMessages (s : Store (Workspace Y)) (peer thread request : Str) : List Message :=
  let messages := s.messages h.toDesk peer thread true (some request)
  messages.drop (messages.length - 200)

def history (s : Store (Workspace Y)) (peer thread request : Str) : List Value :=
  match s.shared peer thread with
  | some _ => (h.dispatchedMessages s peer thread request).map dispatched
  | none => h.outer.history s peer thread request

/-- The reply in `device_transcript`, where only those of the last twenty requests stay. The thread
of a reply is that of its request. -/
def transcript (s : Store (Workspace Y)) (row : Work) (reply : Str) : Workspace Y × Bool :=
  let recent := ((s.turns row.peer row.thread).reverse.take 20).map Work.request
  let left := s.rest.transcripts.filter (fun t => !(t.peer = row.peer &&
    (s.workOf row.peer t.request).any (fun w => w.thread = row.thread) && !recent.contains t.request))
  let used := ((left.filter (fun t => t.peer = row.peer)).map
    (fun t => h.replySize row.peer t.text)).sum
  let size := ((encodeUtf8 reply).map List.length).getD 0
  if historyBytes < used + size then ({ s.rest with transcripts := left }, false)
  else
    ({ s.rest with transcripts := left.filter (fun t => !(t.peer = row.peer && t.request = row.request)) ++
        [⟨row.peer, row.request, reply⟩] }, true)

/-- The part of `complete` that keeps the messages of a shared conversation. -/
def shareReply (s : Store (Workspace Y)) (row : Work) :
    Except Fault (Workspace Y × Option (Record × Record)) :=
  match s.shared row.peer row.thread with
  | none => .ok (s.rest, none)
  | some value =>
    let messages := s.messages h.toDesk row.peer row.thread false none
    match s.grantOf row.peer row.thread with
    | none => do
      let rest ← h.keep s.rest row.peer row.thread { value with messages }
      return (rest, none)
    | some grant => do
      let revision ← Store.nextRevision (Store.revisionOf grant.context)
      let context := setMember grant.context "revision" revision
      let rest ← h.keep s.rest row.peer row.thread { value with messages, revision }
      let details := { s with rest }.details h.toDesk row.peer row.thread h.journal context false false
      return (rest, some (context, Store.threadSnapshot context details))

def bench : Workbench (Workspace Y) :=
  { h.outer with
    toDesktop := h.toDesktop
    deleteRequested := fun w peer thread => (w.value peer thread).any SharedThread.deleteRequested
    nameFromMessage := h.nameFromMessage
    saveAttachments := h.saveAttachments
    history := h.history
    transcript := h.transcript
    shareReply := h.shareReply }

end Sharing

/-! Sharing. -/
namespace Store

variable (h : Sharing Y) (peer : Str)

inductive Exported where
  | nothing
  | revoked
  | shown (revision : Value) (messages : List Message)

def Exported.messages : Exported → List Message
  | .shown _ messages => messages
  | _ => []

/-- `export`. -/
def exportThread (s : Store (Workspace Y)) (thread : Str) : Exported :=
  match s.shared peer thread with
  | none => .nothing
  | some value =>
    match s.grantOf peer thread with
    | none => .revoked
    | some _ => .shown value.revision (s.desktopMessages h.toDesk peer thread h.journal)

/-- `wire_id` of the desktop's name of a conversation, where it has one. -/
def desktopThread (metadata : Record) : Option Str :=
  match member metadata "id" with
  | some (.str name) =>
    if name.isEmpty || 160 < name.length then none
    else some (h.uuid5 (text "raticode-desktop-thread:" ++ name))
  | _ => none

def isStale (s : Store (Workspace Y)) (thread : Str) (revision : Value) : Bool :=
  (s.shared peer thread).any (fun old => old.deleteRequested || !eqValue revision old.revision)

def removedAfter (old : Option SharedThread) (clean : List Message) : List Str :=
  (((old.map SharedThread.removedIds).getD [] ++
    (old.map (fun v => v.messages.map Message.id)).getD []).dedup.filter
      (fun id => !(clean.map Message.id).contains id)).insertionSort (fun a b => ¬ b < a)

def grantKeys : List String := ["project_path", "permission_mode", "workflow", "project_identity"]

def sharedContext (context : Record) (native revision : Value) (current : Option Grant) :
    Record × Bool :=
  let context := setMember (setMember (setMember context "desktop_thread_id" native)
    "allow_thread_create" (.bool (isTruthy (getValue context "project_path")))) "revision" revision
  match current with
  | none => (context, false)
  | some grant =>
    let context := if isTruthy (getValue grant.context "parent_thread") then
      setMember (setMember context "parent_thread" (getValue grant.context "parent_thread"))
        "allow_thread_create" (.bool false) else context
    (context, grantKeys.any (fun key =>
      !eqValue (getValue grant.context key) (getValue context key)) &&
        !isTruthy (getValue context "desktop_parity"))

/-- The part of `exchange` that stores what the desktop sends. -/
def share (thread : Str) (metadata : Record) (messages : List Record) (context : Record) :
    Tx (Workspace Y) Exported := do
  let s ← peek
  if 10000 < messages.length || 8 * 1024 * 1024 < h.encodedSize (.list (messages.map Value.dict)) then
    raise "workspace_history_quota"
  else do
    let clean ← lift (cleanMessages h.toDesk messages)
    let old := s.shared peer thread
    let revision ← lift (nextRevision ((old.map SharedThread.revision).getD (.int 0)))
    let (context, changed) := sharedContext context (getValue metadata "id") revision
      (s.grantOf peer thread)
    doIf changed (revokeThreadTree peer thread)
    putGrant peer thread context
    putShared h.toDesk peer thread
      ⟨metadata, clean, revision, removedAfter old clean, none, false, false, false, []⟩
    let s ← peek
    pure (s.exportThread h peer thread)

def exchange (metadata : Record) (messages : List Record) (context : Record) (revision : Value) :
    Tx (Workspace Y) Exported := do
  trusted peer
  let s ← peek
  if !s.isEnabled peer then raise "workspace_sharing_disabled"
  else
    match desktopThread h metadata with
    | none => raise "invalid_desktop_thread"
    | some thread =>
      if h.denied s.rest.others peer thread then pure .revoked
      else if s.isStale peer thread revision then pure (s.exportThread h peer thread)
      else share h peer thread metadata messages context

end Store

namespace Sharing

variable (h : Sharing Y)

def isNamed (v : SharedThread) : Bool := isTruthy (getValue v.more "auto_title")

/-- The part of `name_from_message` that concerns the grant, which gets the name and the revision. -/
def nameGrant (s t : Store (Workspace Y)) (peer thread : Str) : Store (Workspace Y) :=
  match t.shared peer thread with
  | none => t
  | some v =>
    if !isNamed v || (s.shared peer thread).any isNamed then t
    else
      let named := fun context : Record =>
        setMember (setMember context "title" (getValue v.more "auto_title")) "revision" v.revision
      { t with grants := t.grants.map (fun g =>
          if g.peer = peer && g.thread = thread then { g with context := named g.context } else g) }

/-- The branch for `chat.submit`. -/
def submit (peer thread request : Str) (event : Envelope) : Tx (Workspace Y) (List Envelope) := do
  let s ← peek
  let answers ← Store.submit h.bench peer thread request event
  let t ← peek
  put (nameGrant s t peer thread)
  pure answers

end Sharing

/-! What has been removed is not among the messages. -/
section Removed

variable {d : Desk Y} {s : Store (Workspace Y)} {peer thread : Str} {removed : List Str}
  {result : Dict Str Message}

def FreeOf (removed : List Str) (result : Dict Str Message) : Prop :=
  ∀ p ∈ result, p.2.id = p.1 ∧ p.1 ∉ removed

theorem FreeOf.set (hfree : FreeOf removed result) {m : Message} (hm : m.id ∉ removed) :
    FreeOf removed (result.set m.id m) := by
  intro p hp
  rcases Dict.mem_set hp with hp | rfl
  · exact hfree p hp
  · exact ⟨rfl, hm⟩

theorem FreeOf.setDefault (hfree : FreeOf removed result) {m : Message} (hm : m.id ∉ removed) :
    FreeOf removed (result.setDefault m.id m) := by
  unfold Dict.setDefault
  split_ifs
  · exact hfree
  · exact hfree.set hm

theorem freeOf_byId {messages : List Message} (hm : ∀ m ∈ messages, m.id ∉ removed) :
    FreeOf removed (Store.byId messages) := by
  have hfold : ∀ result, FreeOf removed result →
      FreeOf removed (messages.foldl (fun result m => Dict.set result m.id m) result) := by
    induction messages with
    | nil => exact fun _ hfree => hfree
    | cons m messages ih =>
      intro result hfree
      rw [List.foldl_cons]
      exact ih (fun m' hm' => hm m' (List.mem_cons_of_mem m hm')) _
        (hfree.set (hm m List.mem_cons_self))
  exact hfold [] (fun p hp => absurd hp List.not_mem_nil)

theorem id_withAttachments (w : Work) (m : Message) :
    (s.withAttachments d peer thread w m).id = m.id := by
  unfold Store.withAttachments
  split
  · rfl
  · dsimp only
    split_ifs
    · rfl
    · rfl

theorem freeOf_addTurn (hfree : FreeOf removed result) (w : Work) :
    FreeOf removed (s.addTurn d peer thread removed result w) := by
  have hrequest : FreeOf removed (Store.addRequest removed result w) := by
    unfold Store.addRequest
    split_ifs with hremoved
    · exact hfree
    · exact hfree.setDefault (m := ⟨w.request, text "user", Store.payloadText w.event.payload, []⟩)
        (fun hmem => hremoved (List.contains_iff_mem.mpr hmem))
  have hattachments : FreeOf removed
      (s.addAttachments d peer thread (Store.addRequest removed result w) w) := by
    unfold Store.addAttachments
    split
    next m hget =>
      obtain ⟨hid, hkey⟩ := hrequest _ (Dict.mem_of_get hget)
      have hsame : (s.withAttachments d peer thread w m).id = w.request :=
        (id_withAttachments w m).trans hid
      rw [← hsame]
      apply hrequest.set
      rw [hsame]
      exact hkey
    · exact hrequest
  unfold Store.addTurn Store.addReply
  dsimp only
  split
  next transcript _ =>
    split_ifs with hremoved
    · exact hattachments
    · exact hattachments.setDefault
        (m := ⟨text "reply-" ++ w.request, text "assistant", transcript.text, []⟩)
        (fun hmem => hremoved (List.contains_iff_mem.mpr hmem))
  · exact hattachments

theorem not_removed_of_mem {dispatch : Bool} {through : Option Str} {m : Message}
    (hm : m ∈ s.messages d peer thread dispatch through) :
    m.id ∉ s.removedIds peer thread dispatch through := by
  unfold Store.messages at hm
  obtain ⟨p, hp, rfl⟩ := List.mem_map.mp (List.mem_filter.mp hm).1
  have hfold : ∀ (rows : List Work) (result : Dict Str Message),
      FreeOf (s.removedIds peer thread dispatch through) result → FreeOf
        (s.removedIds peer thread dispatch through) (rows.foldl
          (s.addTurn d peer thread (s.removedIds peer thread dispatch through)) result) := by
    intro rows
    induction rows with
    | nil => exact fun _ hfree => hfree
    | cons w rows ih => exact fun result hfree => ih _ (freeOf_addTurn hfree w)
  have hfree := hfold _ _ (freeOf_byId (fun m hm => by
    simpa using (List.mem_filter.mp hm).2)) p hp
  rw [hfree.1]
  exact hfree.2

variable {i : Str}

def IsRemoved (peer thread i : Str) (w : Workspace Y) : Prop :=
  ∃ v, w.value peer thread = some v ∧ i ∈ v.removedIds

theorem ne_of_removed (hi : IsRemoved peer thread i s.rest) {dispatch : Bool} {through : Option Str}
    {m : Message} (hm : m ∈ s.messages d peer thread dispatch through) : m.id ≠ i := by
  obtain ⟨v, hv, hmem⟩ := hi
  rintro rfl
  apply not_removed_of_mem hm
  have hshared : s.shared peer thread = some v := hv
  simp only [Store.removedIds, hshared, Option.map_some, Option.getD_some, List.mem_append]
  exact .inl (.inl (.inl hmem))

theorem ne_of_showTurn (hi : IsRemoved peer thread i s.rest) (journal : Option Journal) (w : Work)
    {messages : List Message} (hm : ∀ m ∈ messages, m.id ≠ i) :
    ∀ m ∈ s.showTurn peer thread journal messages w, m.id ≠ i := by
  obtain ⟨v, hv, hremoved⟩ := hi
  have hmapped : ∀ m ∈ messages.map (fun m : Message =>
      if m.id = w.request then m.put "origin" (.str (text "phone")) else m), m.id ≠ i := by
    intro m hmem
    obtain ⟨m', hm', rfl⟩ := List.mem_map.mp hmem
    split_ifs
    · exact hm m' hm'
    · exact hm m' hm'
  unfold Store.showTurn
  cases journal with
  | none => exact hmapped
  | some journal =>
    dsimp only
    split_ifs
    · exact hmapped
    · exact hmapped
    · intro m hmem
      unfold Store.insertTurn at hmem
      dsimp only at hmem
      rcases List.mem_append.mp hmem with hmem | hmem
      · rcases List.mem_append.mp hmem with hmem | hmem
        · exact hmapped m (List.mem_filter.mp (List.mem_of_mem_take hmem)).1
        · -- What is projected has been checked as well.
          have hkept := (List.mem_filter.mp hmem).2
          have hshared : s.shared peer thread = some v := hv
          rintro rfl
          simp [hshared, hremoved] at hkept
      · exact hmapped m (List.mem_filter.mp (List.mem_of_mem_drop hmem)).1

theorem ne_of_desktop (hi : IsRemoved peer thread i s.rest) (journal : Option Journal) {m : Message}
    (hm : m ∈ s.desktopMessages d peer thread journal) : m.id ≠ i := by
  have hfold : ∀ (rows : List Work) (messages : List Message), (∀ m ∈ messages, m.id ≠ i) →
      ∀ m ∈ rows.foldl (s.showTurn peer thread journal) messages, m.id ≠ i := by
    intro rows
    induction rows with
    | nil => exact fun _ hall => hall
    | cons w rows ih => exact fun messages hall => ih _ (ne_of_showTurn hi journal w hall)
  exact hfold _ _ (fun m hm => ne_of_removed hi hm) m hm

end Removed

/-! What the work does to the tables of the other subsystems is what its workbench does. -/
section Frames

open Store
variable {X : Type} {Q : X → Prop} {b : Workbench X}

theorem detached_rest : Detached (fun s : Store X => Q s.rest) :=
  ⟨fun _ _ _ _ hs => hs, fun _ _ _ hs => hs⟩

structure Workbench.Keeps (b : Workbench X) (Q : X → Prop) : Prop where
  name : ∀ rest rest' peer thread value, Q rest →
    b.nameFromMessage rest peer thread value = .ok rest' → Q rest'
  attachments : ∀ rest rest' peer request items, Q rest →
    b.saveAttachments rest peer request items = .ok rest' → Q rest'
  transcript : ∀ s row reply, Q s.rest → Q (b.transcript s row reply).1
  reply : ∀ s row shared, Q s.rest → b.shareReply s row = .ok shared → Q shared.1

theorem rest_submit (hb : b.Keeps Q) (peer thread request : Str) (event : Envelope) :
    Preserves (fun s : Store X => Q s.rest) (submit b peer thread request event) := by
  apply preserves_submit detached_rest
  · exact fun s rest peer thread value => hb.name s.rest rest peer thread value
  · exact fun s rest peer request items => hb.attachments s.rest rest peer request items

theorem rest_claim (jobs : Option (List Str)) :
    Preserves (fun s : Store X => Q s.rest) (claim b jobs) := by
  refine .peek (fun s hs => ?_)
  split
  · exact .pure _
  next row _ =>
    dsimp only
    split
    · exact .pure _
    · refine (Preserves.put ?_).bind (fun _ => ?_)
      · exact hs
      · split
        · refine .peek (fun t ht => (Preserves.put ?_).bind (fun _ =>
            (preserves_status detached_rest.silent _ _ _ _ _ _).bind (fun _ => .pure _)))
          exact ht
        · exact .fail _
        · exact (preserves_status detached_rest.silent _ _ _ _ _ _).bind (fun _ =>
            .peek (fun _ _ => .pure _))

theorem rest_emitParts (peer request : Str) (event : Envelope) (parts : List (ℕ × Str × Bool)) :
    Preserves (fun s : Store X => Q s.rest) (emitParts b peer request event parts) := by
  induction parts with
  | nil => exact .pure _
  | cons part parts ih => exact (preserves_emit detached_rest.silent _ _ _ _ _ _).bind (fun _ => ih)

theorem rest_reportJob (row : Work) (state : WorkState) (detail : String) (usage : Option Value) :
    Preserves (fun s : Store X => Q s.rest) (reportJob b row state detail usage) :=
  (preserves_needValue _ _).bind (fun _ =>
    (preserves_emitJob detached_rest.silent _ _ _ _ _ _ _).bind (fun _ => .pure _))

theorem rest_doIf (condition : Bool) {x : Tx X Unit}
    (hx : Preserves (fun s : Store X => Q s.rest) x) :
    Preserves (fun s : Store X => Q s.rest) (doIf condition x) := by
  unfold doIf
  split
  · exact hx
  · exact .pure _

theorem rest_sendReply (hb : b.Keeps Q) (row : Work) (reply : Str) :
    Preserves (fun s : Store X => Q s.rest) (sendReply b row reply) := by
  intro s hs
  unfold sendReply
  rw [wp_bind, wp_peek, wp_bind, wp_lift]
  refine ⟨fun shared hshared => ?_, fun _ _ => hs⟩
  have hnext : Q shared.1 := hb.reply s row shared hs hshared
  have hsnapshot : Preserves (fun s : Store X => Q s.rest) (sendSnapshot b row shared.2) := by
    unfold sendSnapshot
    split
    · exact .pure _
    · refine .peek (fun t ht => (Preserves.put ?_).bind (fun _ =>
        (preserves_emit detached_rest.silent _ _ _ _ _ _).bind (fun _ => .pure _)))
      exact ht
  rw [wp_bind, wp_put]
  exact (hsnapshot.bind (fun _ => rest_emitParts _ _ _ _)) _ hnext

theorem rest_complete (hb : b.Keeps Q) (peer request reply : Str) (error : Option String)
    (usage : Option Value) :
    Preserves (fun s : Store X => Q s.rest) (complete b peer request reply error usage) := by
  refine (preserves_trusted _).bind (fun _ => .peek (fun s hs => ?_))
  split
  · exact .fail _
  next row _ =>
    split
    · unfold finishCancelled
      exact (rest_doIf _ (rest_reportJob _ _ _ _)).bind (fun _ =>
        (preserves_status detached_rest.silent _ _ _ _ _ _).bind (fun _ => .pure _))
    · split
      · exact .fail _
      · have htranscript : Preserves (fun s : Store X => Q s.rest) (keepTranscript b row reply error) := by
          unfold keepTranscript
          split
          · exact .pure _
          · refine .peek (fun t ht => (Preserves.put ?_).bind (fun _ => .pure _))
            exact hb.transcript t row reply ht
        unfold finishRunning
        refine htranscript.bind (fun error => (rest_doIf _ (rest_sendReply hb _ _)).bind (fun _ => ?_))
        unfold reportEnding
        refine Preserves.bind ((rest_doIf _ (rest_reportJob _ _ _ _)).bind (fun _ =>
          (preserves_emit detached_rest.silent _ _ _ _ _ _).bind (fun _ => .pure _))) (fun _ => ?_)
        refine .peek (fun t ht => .put ?_)
        exact ht

end Frames

/-! Nothing but an exchange takes back what has been removed. -/
section Keeping

variable {h : Sharing Y} {peer thread i : Str}

theorem value_stored (w : Workspace Y) (peer thread peer' thread' : Str) (v : SharedThread) :
    (w.stored peer' thread' v).value peer thread =
      if peer' = peer ∧ thread' = thread then some v else w.value peer thread := by
  unfold Workspace.stored Workspace.value
  rw [List.find?_append]
  split_ifs with hsame
  · obtain ⟨rfl, rfl⟩ := hsame
    have hnone : (w.threads.filter (fun row => !Workspace.isThread peer' thread' row)).find?
        (Workspace.isThread peer' thread') = none := by
      rw [List.find?_eq_none]
      intro row hrow
      simpa using (List.mem_filter.mp hrow).2
    rw [hnone]
    simp [Workspace.isThread]
  · have hnew : Workspace.isThread peer thread ⟨peer', thread', v⟩ = false := by
      simpa [Workspace.isThread] using hsame
    have hkept : (w.threads.filter (fun row => !Workspace.isThread peer' thread' row)).find?
        (Workspace.isThread peer thread) = w.threads.find? (Workspace.isThread peer thread) := by
      rw [List.find?_filter]
      congr 1
      funext row
      -- No row is of both conversations.
      by_cases hrow : Workspace.isThread peer thread row = true
      · have hother : Workspace.isThread peer' thread' row = false := by
          simp only [Workspace.isThread, Bool.and_eq_true, decide_eq_true_eq] at hrow
          simp only [Workspace.isThread, Bool.and_eq_false_iff, decide_eq_false_iff_not]
          by_contra hboth
          simp only [not_or, not_not] at hboth
          exact hsame ⟨hboth.1.symm.trans hrow.1, hboth.2.symm.trans hrow.2⟩
        simp [hrow, hother]
      · simp [Bool.eq_false_iff.mpr hrow]
    rw [hkept, List.find?_cons, hnew, List.find?_nil, Option.or_none]

theorem isRemoved_keep {w w' : Workspace Y} {peer' thread' : Str} {v v' : SharedThread}
    (hi : IsRemoved peer thread i w) (hv : w.value peer' thread' = some v)
    (hkeep : h.keep w peer' thread' v' = .ok w') (hsame : v'.removedIds = v.removedIds) :
    IsRemoved peer thread i w' := by
  unfold Sharing.keep at hkeep
  split at hkeep
  · cases hkeep
    obtain ⟨u, hu, hmem⟩ := hi
    by_cases hthis : peer' = peer ∧ thread' = thread
    · refine ⟨v', by rw [value_stored, if_pos hthis], ?_⟩
      rw [hthis.1, hthis.2, hu, Option.some.injEq] at hv
      rw [hsame, ← hv]
      exact hmem
    · exact ⟨u, by rw [value_stored, if_neg hthis]; exact hu, hmem⟩
  · cases hkeep

theorem keeps_removed : h.bench.Keeps (IsRemoved peer thread i) where
  name rest rest' peer' thread' value hi hname := by
    change h.nameFromMessage rest peer' thread' value = .ok rest' at hname
    unfold Sharing.nameFromMessage at hname
    split at hname
    · dsimp only at hname
      split_ifs at hname
      · cases hname
        exact hi
      · split at hname
        · cases hname
          exact hi
        next v hv =>
          split_ifs at hname
          · cases hname
            exact hi
          · obtain ⟨revision, -, hkeep⟩ := Attempt.bind_ok hname
            exact isRemoved_keep hi hv hkeep rfl
    · cases hname
  attachments rest rest' peer' request items hi hsave := by
    change h.saveAttachments rest peer' request items = .ok rest' at hsave
    unfold Sharing.saveAttachments at hsave
    dsimp only at hsave
    split_ifs at hsave
    cases hsave
    exact hi
  transcript s row reply hi := by
    change IsRemoved peer thread i (h.transcript s row reply).1
    unfold Sharing.transcript
    dsimp only
    split_ifs
    · exact hi
    · exact hi
  reply s row shared hi hshare := by
    change h.shareReply s row = .ok shared at hshare
    unfold Sharing.shareReply at hshare
    split at hshare
    · cases hshare
      exact hi
    next v hv =>
      dsimp only at hshare
      split at hshare
      · obtain ⟨rest, hkeep, hshare⟩ := Attempt.bind_ok hshare
        cases hshare
        exact isRemoved_keep hi hv hkeep rfl
      · obtain ⟨revision, -, hshare⟩ := Attempt.bind_ok hshare
        obtain ⟨rest, hkeep, hshare⟩ := Attempt.bind_ok hshare
        cases hshare
        exact isRemoved_keep hi hv hkeep rfl

theorem mem_removedAfter {old : Option SharedThread} {clean : List Message} :
    i ∈ Store.removedAfter old clean ↔ i ∉ clean.map Message.id ∧
      ∃ v, old = some v ∧ (i ∈ v.removedIds ∨ i ∈ v.messages.map Message.id) := by
  have hunion : i ∈ (old.map SharedThread.removedIds).getD [] ++
      (old.map (fun v => v.messages.map Message.id)).getD [] ↔
        ∃ v, old = some v ∧ (i ∈ v.removedIds ∨ i ∈ v.messages.map Message.id) := by
    cases old with
    | none => simp
    | some v => simp
  rw [Store.removedAfter, List.mem_insertionSort, List.mem_filter, List.mem_dedup, hunion]
  simp [and_comm]

theorem nameGrant_rest (s t : Store (Workspace Y)) (peer thread : Str) :
    (Sharing.nameGrant s t peer thread).rest = t.rest := by
  unfold Sharing.nameGrant
  split
  · rfl
  · split_ifs
    · rfl
    · rfl

theorem removed_submit (peer' thread' request : Str) (event : Envelope) :
    Preserves (fun s : Store (Workspace Y) => IsRemoved peer thread i s.rest)
      (h.submit peer' thread' request event) := by
  refine .peek (fun s hs => (rest_submit keeps_removed _ _ _ _).bind (fun answers =>
    .peek (fun t ht => (Preserves.put ?_).bind (fun _ => .pure _))))
  rw [nameGrant_rest]
  exact ht

def Store.shares (h : Sharing Y) (s : Store (Workspace Y)) (peer : Str) (metadata : Record)
    (revision : Value) : Option Str :=
  match Store.desktopThread h metadata with
  | none => none
  | some thread =>
    if h.denied s.rest.others peer thread || s.isStale peer thread revision then none else some thread

theorem exchange_spec (s : Store (Workspace Y)) (peer : Str) (metadata : Record)
    (messages : List Record) (context : Record) (revision : Value) :
    Wp (Store.exchange h peer metadata messages context revision)
      (fun _ t => match s.shares h peer metadata revision with
        | none => t.rest = s.rest
        | some thread => ∃ clean v, cleanMessages h.toDesk messages = .ok clean ∧
            v.removedIds = Store.removedAfter (s.shared peer thread) clean ∧
            t.rest = s.rest.stored peer thread v)
      (fun _ _ => True) s := by
  unfold Store.exchange
  rw [wp_bind]
  refine ((preserves_trusted (P := fun t : Store (Workspace Y) => t = s) peer) s rfl).mono ?_
    (fun _ _ _ => trivial)
  rintro _ t rfl
  rw [wp_bind, wp_peek]
  split
  · trivial
  · split
    · trivial
    next thread hthread =>
      have hshares : t.shares h peer metadata revision =
          if h.denied t.rest.others peer thread || t.isStale peer thread revision then none
          else some thread := by
        rw [Store.shares, hthread]
      split
      next hdenied =>
        rw [wp_pure, hshares, hdenied]
        rfl
      next hallowed =>
        split
        next hstale =>
          rw [wp_pure, hshares, hstale, Bool.or_true]
          rfl
        next hfresh =>
          rw [hshares, Bool.eq_false_iff.mpr hallowed, Bool.eq_false_iff.mpr hfresh]
          change Wp _ (fun _ u => ∃ clean v, cleanMessages h.toDesk messages = .ok clean ∧
            v.removedIds = Store.removedAfter (t.shared peer thread) clean ∧
            u.rest = t.rest.stored peer thread v) _ t
          unfold Store.share
          rw [wp_bind, wp_peek]
          split
          · trivial
          · rw [wp_bind, wp_lift]
            refine ⟨fun clean hclean => ?_, fun _ _ => trivial⟩
            rw [wp_bind, wp_lift]
            refine ⟨fun next _ => ?_, fun _ _ => trivial⟩
            have hrevoke : Preserves (fun u : Store (Workspace Y) => u.rest = t.rest)
                (Store.doIf (Store.sharedContext context (getValue metadata "id") next
                  (t.grantOf peer thread)).2 (Store.revokeThreadTree peer thread)) := by
              apply rest_doIf (Q := fun rest => rest = t.rest)
              exact .peek (fun u hu => .put hu)
            rw [wp_bind]
            refine (hrevoke t rfl).mono ?_ (fun _ _ _ => trivial)
            intro _ u hu
            rw [wp_bind]
            change Wp (Store.putShared h.toDesk peer thread _ >>= _) _ _ _
            rw [wp_bind]
            unfold Store.putShared
            rw [wp_bind, wp_peek]
            split
            · trivial
            · rw [wp_put, wp_bind, wp_peek, wp_pure]
              refine ⟨clean, ⟨metadata, clean, next, Store.removedAfter (t.shared peer thread) clean, none,
                false, false, false, []⟩, hclean, rfl, ?_⟩
              rw [← hu]

end Keeping

end Raticode.Device
