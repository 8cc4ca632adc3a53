import Raticode.DeviceWorkspace
import Raticode.Guarded
import Raticode.Unseen

/-! What a phone sees of the conversations does not depend on the bodies of the messages that
are hidden from it, while no search finds one of them first and the quota of the conversations
decides alike. -/
namespace Raticode.Device
open PyDocument Attempt OrderedDict

variable {Y : Type}

def Message.withoutHidden (m : Message) : Message := if m.isHidden then { m with body := [] } else m

def SharedThread.withoutHidden (v : SharedThread) : SharedThread :=
  { v with messages := v.messages.map Message.withoutHidden }

def Workspace.withoutHidden (w : Workspace Y) : Workspace Y :=
  { w with threads := w.threads.map (fun row => { row with value := row.value.withoutHidden }) }

def Store.withoutHidden (s : Store (Workspace Y)) : Store (Workspace Y) :=
  { s with rest := s.rest.withoutHidden }

def DifferInHidden (s t : Store (Workspace Y)) : Prop := s.withoutHidden = t.withoutHidden

/-! What the members of a record are after one of them has been set. -/

theorem member_eq_find (record : Record) (name : String) :
    member record name = (record.find? (fun p => isName (text name) p.1)).map Prod.snd := rfl

theorem member_setName {record : Record} {name : Str} {value : Value} {other : String}
    (h : name ≠ text other) : member (setName record name value) other = member record other := by
  -- No key has both names.
  have hother : ∀ key, isName name key = true → isName (text other) key = false := by
    intro key hkey
    cases key with
    | str s =>
      simp only [isName, decide_eq_true_eq, decide_eq_false_iff_not] at hkey ⊢
      exact fun hs => h (hkey.symm.trans hs)
    | _ => rfl
  rw [member_eq_find, member_eq_find]
  unfold setName
  split_ifs with hany
  · -- A member of this name is changed in its place.
    clear hany
    induction record with
    | nil => rfl
    | cons p record ih =>
      rw [List.map_cons, List.find?_cons, List.find?_cons]
      by_cases hp : isName name p.1 = true
      · simp only [if_pos hp, hother p.1 hp]
        exact ih
      · simp only [if_neg hp]
        cases isName (text other) p.1 with
        | true => rfl
        | false => exact ih
  · have hnew : isName (text other) (.str name) = false := decide_eq_false h
    simp only [List.find?_append, List.find?_cons, hnew, List.find?_nil, Option.or_none]

namespace Message
variable {m : Message}

@[simp] theorem id_withoutHidden : m.withoutHidden.id = m.id := by
  unfold withoutHidden
  split_ifs
  · rfl
  · rfl

@[simp] theorem more_withoutHidden : m.withoutHidden.more = m.more := by
  unfold withoutHidden
  split_ifs
  · rfl
  · rfl

@[simp] theorem isHidden_withoutHidden : m.withoutHidden.isHidden = m.isHidden := by
  rw [isHidden, more_withoutHidden, isHidden]

theorem withoutHidden_of_shown (h : m.isHidden = false) : m.withoutHidden = m := by
  rw [withoutHidden, h]
  rfl

theorem put_withoutHidden {name : String} (h : text name ≠ text "kind") (value : Value) :
    m.withoutHidden.put name value = (m.put name value).withoutHidden := by
  have hkind : (m.put name value).isHidden = m.isHidden := by
    rw [isHidden, put, isHidden]
    simp only [setMember, member_setName h]
  unfold withoutHidden
  rw [hkind]
  split_ifs
  · rfl
  · rfl

end Message

theorem filter_shown (messages : List Message) :
    (messages.map Message.withoutHidden).filter (fun m => !m.isHidden) =
      messages.filter (fun m => !m.isHidden) := by
  induction messages with
  | nil => rfl
  | cons m messages ih =>
    rw [List.map_cons, List.filter_cons, List.filter_cons, Message.isHidden_withoutHidden, ih]
    cases h : m.isHidden with
    | true => rfl
    | false => rw [Message.withoutHidden_of_shown h]

/-! The messages of a conversation. -/
namespace Store
variable {d : Desk Y} {s t : Store (Workspace Y)} {peer thread : Str}

theorem shared_withoutHidden : s.withoutHidden.shared peer thread =
    (s.shared peer thread).map SharedThread.withoutHidden := by
  simp only [shared, Workspace.value, withoutHidden, Workspace.withoutHidden, List.find?_map,
    Option.map_map]
  rfl

theorem removedIds_withoutHidden (dispatch : Bool) (through : Option Str) :
    s.withoutHidden.removedIds peer thread dispatch through = s.removedIds peer thread dispatch through := by
  unfold removedIds
  rw [shared_withoutHidden, Option.map_map]
  rfl

theorem withAttachments_withoutHidden (w : Work) (m : Message) :
    s.withoutHidden.withAttachments d peer thread w m.withoutHidden =
      (s.withAttachments d peer thread w m).withoutHidden := by
  have hname : text "attachments" ≠ text "kind" := by decide
  unfold withAttachments
  rw [Message.more_withoutHidden,
    show s.withoutHidden.rest.attachments = s.rest.attachments from rfl]
  cases s.rest.attachments.find? (fun a => a.peer = peer && a.request = w.request) with
  | some stored => exact Message.put_withoutHidden hname _
  | none =>
    simp only
    split_ifs
    · exact Message.put_withoutHidden hname _
    · rfl

abbrev hide (result : Dict Str Message) : Dict Str Message :=
  result.map (fun p => (p.1, p.2.withoutHidden))

theorem setDefault_hide (result : Dict Str Message) (id : Str) (m : Message) (h : m.more = []) :
    (hide result).setDefault id m = hide (result.setDefault id m) := by
  have hshown : m.withoutHidden = m := by
    apply Message.withoutHidden_of_shown
    rw [Message.isHidden, h]
    rfl
  calc (hide result).setDefault id m = (hide result).setDefault id m.withoutHidden := by rw [hshown]
    _ = hide (result.setDefault id m) := Dict.setDefault_map _ result id m

theorem addRequest_hide (removed : List Str) (result : Dict Str Message) (w : Work) :
    addRequest removed (hide result) w = hide (addRequest removed result w) := by
  unfold addRequest
  split_ifs
  · rfl
  · exact setDefault_hide result _ _ rfl

theorem addAttachments_hide (result : Dict Str Message) (w : Work) :
    s.withoutHidden.addAttachments d peer thread (hide result) w =
      hide (s.addAttachments d peer thread result w) := by
  unfold addAttachments
  rw [Dict.get_map]
  cases result.get w.request with
  | none => rfl
  | some m =>
    simp only [Option.map_some]
    rw [withAttachments_withoutHidden]
    exact Dict.set_map _ result _ _

theorem addReply_hide (removed : List Str) (result : Dict Str Message) (w : Work) :
    s.withoutHidden.addReply peer removed (hide result) w = hide (s.addReply peer removed result w) := by
  unfold addReply
  rw [show s.withoutHidden.rest.transcripts = s.rest.transcripts from rfl]
  cases s.rest.transcripts.find? (fun t => t.peer = peer && t.request = w.request) with
  | none => rfl
  | some transcript =>
    simp only
    split_ifs
    · rfl
    · exact setDefault_hide result _ _ rfl

theorem addTurn_withoutHidden (removed : List Str) (result : Dict Str Message) (w : Work) :
    s.withoutHidden.addTurn d peer thread removed (hide result) w =
      hide (s.addTurn d peer thread removed result w) := by
  rw [addTurn, addRequest_hide, addAttachments_hide, addReply_hide, addTurn]

theorem byId_withoutHidden (messages : List Message) :
    byId (messages.map Message.withoutHidden) = hide (byId messages) := by
  have hloop : ∀ result : Dict Str Message,
      (messages.map Message.withoutHidden).foldl (fun result m => result.set m.id m) (hide result) =
        hide (messages.foldl (fun result m => result.set m.id m) result) := by
    induction messages with
    | nil => exact fun _ => rfl
    | cons m messages ih =>
      intro result
      rw [List.map_cons, List.foldl_cons, List.foldl_cons, Message.id_withoutHidden, Dict.set_map]
      exact ih _
  exact hloop []

theorem messages_withoutHidden (dispatch : Bool) (through : Option Str) :
    s.withoutHidden.messages d peer thread dispatch through =
      (s.messages d peer thread dispatch through).map Message.withoutHidden := by
  have hstored : ((s.withoutHidden.shared peer thread).map SharedThread.messages).getD [] =
      (((s.shared peer thread).map SharedThread.messages).getD []).map Message.withoutHidden := by
    rw [shared_withoutHidden]
    cases s.shared peer thread with
    | none => rfl
    | some v => rfl
  have hloop : ∀ (rows : List Work) (removed : List Str) (result : Dict Str Message),
      rows.foldl (s.withoutHidden.addTurn d peer thread removed) (hide result) =
        hide (rows.foldl (s.addTurn d peer thread removed) result) := by
    intro rows removed
    induction rows with
    | nil => exact fun _ => rfl
    | cons w rows ih =>
      intro result
      rw [List.foldl_cons, List.foldl_cons, addTurn_withoutHidden]
      exact ih _
  have hids : ∀ removed : List Str, ((fun m : Message => !removed.contains m.id) ∘ Message.withoutHidden) =
      fun m => !removed.contains m.id := by
    intro removed
    funext m
    simp only [Function.comp, Message.id_withoutHidden]
  unfold messages
  simp only
  rw [hstored, removedIds_withoutHidden, List.filter_map, hids, byId_withoutHidden]
  rw [show s.withoutHidden.turns peer thread = s.turns peer thread from rfl, hloop, Dict.values_map,
    List.filter_map]
  congr 1
  apply List.filter_congr
  intro m _
  simp only [Function.comp, Message.more_withoutHidden]

/-! The messages as the desktop shows them. -/

theorem any_id_withoutHidden (messages : List Message) (id : Str) :
    (messages.map Message.withoutHidden).any (fun m => m.id = id) = messages.any (fun m => m.id = id) := by
  rw [List.any_map]
  congr 1
  funext m
  simp only [Function.comp, Message.id_withoutHidden]

theorem insertTurn_withoutHidden (request : Str) (projected messages : List Message) :
    insertTurn request (projected.map Message.withoutHidden) (messages.map Message.withoutHidden) =
      (insertTurn request projected messages).map Message.withoutHidden := by
  have hids : (projected.map Message.withoutHidden).map Message.id = projected.map Message.id := by
    rw [List.map_map]
    apply List.map_congr_left
    exact fun m _ => Message.id_withoutHidden
  have hfilter : (messages.map Message.withoutHidden).filter
      (fun m => !(projected.map Message.id).contains m.id) =
      (messages.filter (fun m => !(projected.map Message.id).contains m.id)).map
        Message.withoutHidden := by
    rw [List.filter_map]
    congr 1
    apply List.filter_congr
    intro m _
    simp only [Function.comp, Message.id_withoutHidden]
  unfold insertTurn
  simp only
  rw [hids, hfilter]
  generalize messages.filter (fun m => !(projected.map Message.id).contains m.id) = rest
  have hindex : (rest.map Message.withoutHidden).findIdx? (fun m => decide (m.id = request)) =
      rest.findIdx? (fun m => decide (m.id = request)) := by
    rw [List.findIdx?_map]
    congr 1
    funext m
    simp only [Function.comp, Message.id_withoutHidden]
  rw [hindex, List.length_map, List.map_append, List.map_append, List.map_take, List.map_drop]

theorem showTurn_alike (h : DifferInHidden s t) {first second : List Message}
    (hm : first.map Message.withoutHidden = second.map Message.withoutHidden) (journal : Option Journal)
    (w : Work) : (s.showTurn peer thread journal first w).map Message.withoutHidden =
      (t.showTurn peer thread journal second w).map Message.withoutHidden := by
  have hshared : (s.shared peer thread).map SharedThread.withoutHidden =
      (t.shared peer thread).map SharedThread.withoutHidden := by
    rw [← shared_withoutHidden, ← shared_withoutHidden, h]
  have hnative : (s.shared peer thread).map (fun v => getValue v.metadata "id") =
      (t.shared peer thread).map (fun v => getValue v.metadata "id") := by
    have hmap := congrArg (Option.map (fun v : SharedThread => getValue v.metadata "id")) hshared
    rw [Option.map_map, Option.map_map] at hmap
    exact hmap
  have hremoved : (s.shared peer thread).map SharedThread.removedIds =
      (t.shared peer thread).map SharedThread.removedIds := by
    have hmap := congrArg (Option.map SharedThread.removedIds) hshared
    rw [Option.map_map, Option.map_map] at hmap
    exact hmap
  -- The request is marked in both before anything is inserted behind it.
  have hmark : ∀ messages : List Message, (messages.map (fun m =>
      if m.id = w.request then m.put "origin" (.str (text "phone")) else m)).map Message.withoutHidden =
      (messages.map Message.withoutHidden).map (fun m =>
        if m.id = w.request then m.put "origin" (.str (text "phone")) else m) := by
    intro messages
    rw [List.map_map, List.map_map]
    apply List.map_congr_left
    intro m _
    simp only [Function.comp, Message.id_withoutHidden]
    split_ifs
    · rw [Message.put_withoutHidden (by decide)]
    · rfl
  have hmarked := hmark first
  rw [hm, ← hmark second] at hmarked
  unfold showTurn
  simp only
  rw [hnative, hremoved]
  generalize first.map (fun m => if m.id = w.request then m.put "origin" (.str (text "phone")) else m) =
    first at hmarked ⊢
  generalize second.map (fun m => if m.id = w.request then m.put "origin" (.str (text "phone")) else m) =
    second at hmarked ⊢
  cases journal with
  | none => exact hmarked
  | some journal =>
    simp only
    rw [← any_id_withoutHidden first, hmarked, any_id_withoutHidden second]
    split_ifs
    · exact hmarked
    · exact hmarked
    · rw [← insertTurn_withoutHidden, hmarked, insertTurn_withoutHidden]

theorem desktopMessages_alike (h : DifferInHidden s t) (journal : Option Journal) :
    (s.desktopMessages d peer thread journal).map Message.withoutHidden =
      (t.desktopMessages d peer thread journal).map Message.withoutHidden := by
  have hturns : s.turns peer thread = t.turns peer thread := by
    change s.withoutHidden.turns peer thread = t.withoutHidden.turns peer thread
    rw [h]
  have hstart : (s.messages d peer thread false none).map Message.withoutHidden =
      (t.messages d peer thread false none).map Message.withoutHidden := by
    rw [← messages_withoutHidden, ← messages_withoutHidden, h]
  unfold desktopMessages
  rw [hturns]
  generalize s.messages d peer thread false none = first at hstart ⊢
  generalize t.messages d peer thread false none = second at hstart ⊢
  induction t.turns peer thread generalizing first second with
  | nil => exact hstart
  | cons w rows ih =>
    rw [List.foldl_cons, List.foldl_cons]
    exact ih _ _ (showTurn_alike h hstart journal w)

theorem historyPage_alike {first second : List Message}
    (hm : first.map Message.withoutHidden = second.map Message.withoutHidden)
    (payload context : Record) (rich : Bool) :
    historyPage d payload context rich first = historyPage d payload context rich second := by
  have hshown : first.filter (fun m => !m.isHidden) = second.filter (fun m => !m.isHidden) := by
    rw [← filter_shown first, hm, filter_shown second]
  unfold historyPage
  rw [hshown]

/-! Search. -/

def hides (d : Desk Y) (s : Store (Workspace Y)) (peer : Str) (payload : Record) : Bool :=
  needle d payload = [] || (s.grantsOf peer).all (fun g =>
    match firstMatch d (needle d payload) (s.messages d peer g.thread false none) with
    | some m => !m.isHidden
    | none => true)

theorem firstMatch_shown {needle : Str} {messages : List Message}
    (h : ∀ m, firstMatch d needle messages = some m → m.isHidden = false) :
    firstMatch d needle messages = firstMatch d needle (messages.filter (fun m => !m.isHidden)) := by
  unfold firstMatch at h ⊢
  induction messages with
  | nil => rfl
  | cons m messages ih =>
    rw [List.find?_cons] at h ⊢
    rw [List.filter_cons]
    cases hfound : (find needle (d.normalize m.body)).isSome with
    | true =>
      rw [hfound] at h
      have hm := h m rfl
      rw [hm, Bool.not_false, if_pos rfl, List.find?_cons, hfound]
    | false =>
      rw [hfound] at h
      simp only
      rw [ih h]
      cases m.isHidden with
      | true => rfl
      | false => rw [Bool.not_false, if_pos rfl, List.find?_cons, hfound]

theorem search_alike (h : DifferInHidden s t) {payload : Record} (hs : s.hides d peer payload = true)
    (ht : t.hides d peer payload = true) : s.search d peer payload = t.search d peer payload := by
  have hgrants : s.grantsOf peer = t.grantsOf peer := by
    change s.withoutHidden.grantsOf peer = t.withoutHidden.grantsOf peer
    rw [h]
  have hupdated : ∀ thread, s.updatedAt d peer thread = t.updatedAt d peer thread := by
    intro thread
    have hread : ∀ u : Store (Workspace Y),
        u.updatedAt d peer thread = u.withoutHidden.updatedAt d peer thread := by
      intro u
      unfold updatedAt
      rw [shared_withoutHidden, Option.map_map]
      rfl
    rw [hread s, h, ← hread t]
  unfold search
  simp only
  by_cases hneedle : needle d payload = []
  · rw [if_pos hneedle, if_pos hneedle]
  rw [if_neg hneedle, if_neg hneedle, hgrants]
  unfold hides at hs ht
  rw [decide_eq_false hneedle, Bool.false_or, List.all_eq_true] at hs ht
  rw [hgrants] at hs
  -- Each conversation has the same first match, which is none of the hidden messages.
  have hfirst : ∀ {u : Store (Workspace Y)} {g : Grant},
      (match firstMatch d (needle d payload) (u.messages d peer g.thread false none) with
        | some m => !m.isHidden
        | none => true) = true →
      firstMatch d (needle d payload) (u.messages d peer g.thread false none) =
        firstMatch d (needle d payload)
          ((u.withoutHidden.messages d peer g.thread false none).filter (fun m => !m.isHidden)) := by
    intro u g hu
    rw [messages_withoutHidden, filter_shown]
    apply firstMatch_shown
    intro m hm
    rw [hm] at hu
    simpa using hu
  have hmatch : (t.grantsOf peer).filterMap (fun g =>
      (s.threadMatch d peer (needle d payload) g).map (fun found => (s.updatedAt d peer g.thread, found))) =
      (t.grantsOf peer).filterMap (fun g =>
        (t.threadMatch d peer (needle d payload) g).map
          (fun found => (t.updatedAt d peer g.thread, found))) := by
    apply List.filterMap_congr
    intro g hg
    rw [hupdated]
    congr 1
    unfold threadMatch
    rw [hfirst (hs g hg), hfirst (ht g hg), h]
  rw [hmatch]

/-! What the operations make of two such sets of tables. -/

theorem details_alike (h : DifferInHidden s t) (journal : Option Journal) (context : Record)
    (resources activity : Bool) : s.details d peer thread journal context resources activity =
      t.details d peer thread journal context resources activity := by
  have hread : ∀ u : Store (Workspace Y), u.details d peer thread journal context resources activity =
      u.withoutHidden.details d peer thread journal context resources activity := by
    intro u
    unfold details
    rw [shared_withoutHidden]
    cases u.shared peer thread with
    | none => rfl
    | some v => rfl
  rw [hread s, h, ← hread t]

theorem rest_alike (h : DifferInHidden s t) :
    t = { s with rest := t.rest } ∧ t.rest.withoutHidden = s.rest.withoutHidden := by
  unfold DifferInHidden withoutHidden at h
  rw [Store.mk.injEq] at h
  obtain ⟨registry, grants, inbox, inboxReads, work, jobIds, threadRequests, outbox, sequences, rest,
    drawn, performed⟩ := h
  refine ⟨?_, rest.symm⟩
  rw [Store.mk.injEq]
  exact ⟨registry.symm, grants.symm, inbox.symm, inboxReads.symm, work.symm, jobIds.symm,
    threadRequests.symm, outbox.symm, sequences.symm, rfl, drawn.symm, performed.symm⟩

theorem withoutHidden_rest (u : Store (Workspace Y)) {w : Workspace Y}
    (hw : w.withoutHidden = u.rest.withoutHidden) :
    ({ u with rest := w } : Store (Workspace Y)).withoutHidden = u.withoutHidden := by
  unfold withoutHidden
  simp only
  rw [hw]

theorem alike_of_rest {u v : Store (Workspace Y)} (hu : v = { u with rest := v.rest })
    (hw : v.rest.withoutHidden = u.rest.withoutHidden) : u.withoutHidden = v.withoutHidden := by
  rw [hu]
  exact (withoutHidden_rest u hw).symm

theorem unseeing_of_rest {α : Type} {x : Tx (Workspace Y) α}
    (h : ∀ (s : Store (Workspace Y)) (w : Workspace Y), w.withoutHidden = s.rest.withoutHidden →
      seen withoutHidden x s = seen withoutHidden x { s with rest := w }) : Unseeing withoutHidden x := by
  intro s t hst
  obtain ⟨ht, hrest⟩ := rest_alike hst
  rw [ht]
  exact h s t.rest hrest

theorem emit_unseeing (target request : Option Str) (kind : Kind) (payload : Record) :
    Unseeing withoutHidden (emit d.toDesktop peer target request kind payload) := by
  apply unseeing_of_rest
  intro s w hw
  have hothers : w.withoutHidden.others = s.rest.withoutHidden.others := by rw [hw]
  change w.others = s.rest.others at hothers
  have hlast : ({ s with rest := w } : Store (Workspace Y)).lastSequence d.toDesktop peer =
      s.lastSequence d.toDesktop peer := by
    unfold lastSequence
    simp only [Desk.toDesktop, hothers]
    rfl
  have hnext : ({ s with rest := w } : Store (Workspace Y)).nextEvent d.toDesktop peer target request
      kind payload = s.nextEvent d.toDesktop peer target request kind payload := by
    unfold nextEvent
    rw [hlast]
  have hspent : ({ s with rest := w } : Store (Workspace Y)).spent d.toDesktop peer =
      { s.spent d.toDesktop peer with rest := w } := by
    unfold spent
    rw [hlast]
  have hof : ({ s with rest := w } : Store (Workspace Y)).ofPeer peer = s.ofPeer peer := rfl
  have hused : ({ s with rest := w } : Store (Workspace Y)).usedBytes peer = s.usedBytes peer := rfl
  unfold seen
  rw [emit_eq, emit_eq, hof, hused, hnext, hlast, hspent]
  split_ifs
  · exact Prod.ext rfl (withoutHidden_rest s hw).symm
  · exact Prod.ext rfl (withoutHidden_rest (s.spent d.toDesktop peer) hw).symm
  · exact Prod.ext rfl (withoutHidden_rest (s.spent d.toDesktop peer) hw).symm
  · refine Prod.ext rfl ?_
    exact (withoutHidden_rest { s.spent d.toDesktop peer with outbox := _ } hw).symm

theorem answer_unseeing (target request : Option Str) (kind : Kind) (payload : Record) :
    Unseeing withoutHidden (do
      let answer ← emit d.toDesktop peer target request kind payload
      pure [answer] : Tx (Workspace Y) (List Envelope)) :=
  (emit_unseeing target request kind payload).bind (fun answer => .pure [answer])

theorem reject_unseeing (event : Envelope) (code : String) (detail : Str) :
    Unseeing withoutHidden (reject d peer event code detail) :=
  answer_unseeing _ _ _ _

theorem trusted_unseeing : Unseeing withoutHidden (trusted peer : Tx (Workspace Y) Unit) := by
  apply unseeing_of_rest
  intro s w hw
  have hview := (withoutHidden_rest s hw).symm
  apply seen_bind
  · exact seen_peek (seen_lift _ hview)
  · intro row s' t' h
    split_ifs
    · exact seen_fail _ h
    · exact seen_pure () h

theorem pending_unseeing (after : ℤ) (limit : ℕ) :
    Unseeing withoutHidden (pending peer after limit : Tx (Workspace Y) (List Envelope)) := by
  apply trusted_unseeing.bind
  intro _
  apply unseeing_of_rest
  intro s w hw
  exact seen_peek (seen_pure _ (withoutHidden_rest s hw).symm)

theorem isKnown_unseeing (event : Envelope) (digest : Str) :
    Unseeing withoutHidden (isKnown peer event digest : Tx (Workspace Y) Bool) := by
  apply unseeing_of_rest
  intro s w hw
  have hview := (withoutHidden_rest s hw).symm
  apply seen_peek
  rw [show Store.prior { s with rest := w } peer event.id = s.prior peer event.id from rfl]
  cases s.prior peer event.id with
  | some receipt =>
    simp only
    split_ifs
    · exact seen_fail _ hview
    · exact seen_pure true hview
  | none =>
    change seen withoutHidden (if _ then _ else if _ then _ else _) s = _
    split_ifs with hquota hsequence
    · exact seen_fail _ hview
    · exact seen_fail _ hview
    · exact seen_pure false hview

theorem recordInbound_unseeing (event : Envelope) (digest : Str) (now : ℚ) :
    Unseeing withoutHidden (recordInbound peer event digest now : Tx (Workspace Y) Unit) := by
  apply unseeing_of_rest
  intro s w hw
  have hview := (withoutHidden_rest s hw).symm
  apply seen_peek
  simp only
  split_ifs
  · apply seen_bind (seen_lift _ hview)
    intro rows _ _ _
    exact seen_put (alike_of_rest rfl hw)
  · apply seen_bind (seen_lift _ hview)
    intro rows _ _ _
    exact seen_put (alike_of_rest rfl hw)

theorem putGrant_unseeing (peer thread : Str) (context : Record) :
    Unseeing withoutHidden (putGrant peer thread context : Tx (Workspace Y) Unit) := by
  apply unseeing_of_rest
  intro s w hw
  exact seen_peek (seen_put (alike_of_rest rfl hw))

/-! Changes to a conversation. -/

theorem shared_alike (h : DifferInHidden s t) (peer thread : Str) :
    (s.shared peer thread).map SharedThread.withoutHidden =
      (t.shared peer thread).map SharedThread.withoutHidden := by
  rw [← shared_withoutHidden, ← shared_withoutHidden, h]

theorem shared_cases (h : DifferInHidden s t) (peer thread : Str) :
    (s.shared peer thread = none ∧ t.shared peer thread = none) ∨
    ∃ v v', s.shared peer thread = some v ∧ t.shared peer thread = some v' ∧
      v.withoutHidden = v'.withoutHidden := by
  have hmap := shared_alike h peer thread
  cases hs : s.shared peer thread with
  | none =>
    rw [hs, Option.map_none, eq_comm, Option.map_eq_none_iff] at hmap
    exact .inl ⟨rfl, hmap⟩
  | some v =>
    rw [hs, Option.map_some, eq_comm, Option.map_eq_some_iff] at hmap
    obtain ⟨v', hv', heq⟩ := hmap
    exact .inr ⟨v, v', rfl, hv', heq.symm⟩

theorem stored_withoutHidden (w : Workspace Y) (peer thread : Str) (v : SharedThread) :
    (w.stored peer thread v).withoutHidden = w.withoutHidden.stored peer thread v.withoutHidden := by
  unfold Workspace.stored Workspace.withoutHidden
  simp only [List.map_append, List.filter_map, List.map_cons, List.map_nil]
  rfl

theorem store_alike (h : DifferInHidden s t) {v v' : SharedThread} (hv : v.withoutHidden = v'.withoutHidden) :
    DifferInHidden { s with rest := s.rest.stored peer thread v }
      { t with rest := t.rest.stored peer thread v' } := by
  obtain ⟨ht, hrest⟩ := rest_alike h
  apply alike_of_rest
  · rw [ht]
  · change (t.rest.stored peer thread v').withoutHidden = (s.rest.stored peer thread v).withoutHidden
    rw [stored_withoutHidden, stored_withoutHidden, hrest, hv]

theorem putShared_alike {β : Type} (h : DifferInHidden s t) {v v' : SharedThread}
    (hv : v.withoutHidden = v'.withoutHidden)
    (hroom : s.rest.hasRoom d peer thread v = t.rest.hasRoom d peer thread v')
    {f : Unit → Tx (Workspace Y) β}
    (hf : DifferInHidden { s with rest := s.rest.stored peer thread v }
        { t with rest := t.rest.stored peer thread v' } →
      s.rest.hasRoom d peer thread v = true →
      seen withoutHidden (f ()) { s with rest := s.rest.stored peer thread v } =
        seen withoutHidden (f ()) { t with rest := t.rest.stored peer thread v' }) :
    seen withoutHidden (putShared d peer thread v >>= f) s =
      seen withoutHidden (putShared d peer thread v' >>= f) t := by
  cases hs : s.rest.hasRoom d peer thread v with
  | false =>
    have hraise : ∀ {u : Store (Workspace Y)} {x : SharedThread},
        u.rest.hasRoom d peer thread x = false → (putShared d peer thread x >>= f) u =
          .error (.pairing "workspace_history_quota") u := by
      intro u x hu
      apply run_bind_error
      change (if !u.rest.hasRoom d peer thread x then _ else _ : Tx (Workspace Y) Unit) u = _
      rw [hu]
      rfl
    unfold seen
    rw [hraise hs, hraise (hroom ▸ hs)]
    exact Prod.ext rfl h
  | true =>
    have hput : ∀ {u : Store (Workspace Y)} {x : SharedThread},
        u.rest.hasRoom d peer thread x = true → (putShared d peer thread x >>= f) u =
          f () { u with rest := u.rest.stored peer thread x } := by
      intro u x hu
      apply run_bind_ok
      change (if !u.rest.hasRoom d peer thread x then _ else _ : Tx (Workspace Y) Unit) u = _
      rw [hu]
      rfl
    have hafter := hf (store_alike h hv) hs
    unfold seen at hafter ⊢
    rw [hput hs, hput (hroom ▸ hs)]
    exact hafter

theorem adopted_withoutHidden (event : Envelope) (previous : Record) (revision : Value)
    (v : SharedThread) : (adopted d event previous revision v).withoutHidden =
      adopted d event previous revision v.withoutHidden := rfl

theorem organize_withoutHidden (stamp action : Str) (v : SharedThread) :
    (organize stamp action v).withoutHidden = organize stamp action v.withoutHidden := by
  unfold organize
  simp only
  split_ifs <;> rfl

theorem managed_withoutHidden (stamp action : Str) (context : Record) (v : SharedThread) :
    (managed stamp action context v).withoutHidden = managed stamp action context v.withoutHidden := by
  unfold managed
  rw [← organize_withoutHidden]
  rfl

theorem applyContext_alike (h : DifferInHidden s t) (m : Moment) (event : Envelope)
    (previous context : Record)
    (hroom : ∀ revision v v', member context "revision" = some revision →
      s.shared peer thread = some v → t.shared peer thread = some v' →
      s.rest.hasRoom d peer thread (adopted d event previous revision v) =
        t.rest.hasRoom d peer thread (adopted d event previous revision v')) :
    seen withoutHidden (applyContext d peer thread m event previous context) s =
      seen withoutHidden (applyContext d peer thread m event previous context) t := by
  -- The snapshot at the end shows nothing that is hidden.
  have hlast : Unseeing withoutHidden (do
      let u ← peek
      let answer ← emit d.toDesktop peer event.threadId event.requestId .threadSnapshot
        (threadSnapshot context (u.details d peer thread m.journal context true false))
      pure [answer] : Tx (Workspace Y) (List Envelope)) := by
    intro u u' hu
    apply seen_peek
    rw [details_alike hu]
    exact answer_unseeing _ _ _ _ u u' hu
  have hgrant : ∀ u : Store (Workspace Y), ∃ grants,
      putGrant peer thread context u = .ok () { u with grants } := fun u => ⟨_, rfl⟩
  obtain ⟨grants, hs⟩ := hgrant s
  obtain ⟨grants', ht⟩ := hgrant t
  have hput := putGrant_unseeing peer thread context s t h
  unfold seen at hput
  rw [hs, ht] at hput
  have hview : DifferInHidden { s with grants } { t with grants := grants' } := (Prod.mk.inj hput).2
  unfold applyContext
  have hrun : ∀ {x : Tx (Workspace Y) (List Envelope)} {u : Store (Workspace Y)} {g : List Grant},
      putGrant peer thread context u = .ok () { u with grants := g } →
      seen withoutHidden (putGrant peer thread context >>= fun _ => x) u =
        seen withoutHidden x { u with grants := g } := by
    intro x u g hu
    unfold seen
    rw [run_bind_ok hu]
  rw [hrun hs, hrun ht]
  apply seen_peek
  rcases shared_cases h peer thread with ⟨hns, hnt⟩ | ⟨v, v', hvs, hvt, hv⟩
  · rw [show Store.shared { s with grants } peer thread = none from hns,
      show Store.shared { t with grants := grants' } peer thread = none from hnt]
    exact hlast _ _ hview
  · rw [show Store.shared { s with grants } peer thread = some v from hvs,
      show Store.shared { t with grants := grants' } peer thread = some v' from hvt]
    cases hrevision : member context "revision" with
    | none =>
      simp only [needValue, hrevision]
      exact seen_fail _ hview
    | some revision =>
      simp only [needValue, hrevision]
      have hadopted : (adopted d event previous revision v).withoutHidden =
          (adopted d event previous revision v').withoutHidden := by
        rw [adopted_withoutHidden, adopted_withoutHidden, hv]
      apply putShared_alike hview hadopted (hroom revision v v' hrevision hvs hvt)
      exact fun hstored _ => hlast _ _ hstored

theorem isEnabled_alike (h : DifferInHidden s t) : s.isEnabled peer = t.isEnabled peer := by
  change s.withoutHidden.isEnabled peer = t.withoutHidden.isEnabled peer
  rw [h]

theorem hasRoom_stored (w : Workspace Y) (v v' : SharedThread) :
    (w.stored peer thread v).hasRoom d peer thread v' = w.hasRoom d peer thread v' := by
  have hrows : (w.stored peer thread v).threads.filter (fun row => row.peer = peer && row.thread ≠ thread) =
      w.threads.filter (fun row => row.peer = peer && row.thread ≠ thread) := by
    unfold Workspace.stored
    simp only [List.filter_append, List.filter_filter]
    have hself : ([⟨peer, thread, v⟩] : List SharedRow).filter
        (fun row => row.peer = peer && row.thread ≠ thread) = [] := by simp
    rw [hself, List.append_nil]
    apply List.filter_congr
    intro row _
    simp only [Workspace.isThread]
    by_cases hp : row.peer = peer <;> by_cases ht : row.thread = thread <;> simp [hp, ht]
  unfold Workspace.hasRoom Workspace.used
  rw [hrows]

theorem shared_stored (u : Store (Workspace Y)) (v : SharedThread) :
    shared { u with rest := u.rest.stored peer thread v } peer thread = some v := by
  have hnone : (u.rest.threads.filter (fun row => !Workspace.isThread peer thread row)).find?
      (Workspace.isThread peer thread) = none := by
    apply List.find?_eq_none.mpr
    intro row hrow
    have hkept := (List.mem_filter.mp hrow).2
    simpa using hkept
  have hself : Workspace.isThread peer thread ⟨peer, thread, v⟩ = true := by
    simp [Workspace.isThread]
  unfold shared Workspace.value Workspace.stored
  rw [List.find?_append, hnone, Option.none_or, List.find?_cons, hself]
  rfl

theorem adopted_managed {event : Envelope} {previous context : Record} {revision : Value}
    (hkind : event.kind = .threadManage) (hrevision : member context "revision" = some revision)
    (stamp action : Str) (v : SharedThread) :
    adopted d event previous revision (managed stamp action context v) =
      managed stamp action context v := by
  have hcontext : revisionOf context = revision := by
    rw [revisionOf, getOr, hrevision]
    rfl
  have hchooses : choosesResources d event previous = false := by
    unfold choosesResources
    rw [hkind]
    rfl
  unfold adopted managed
  rw [hchooses, hkind, hcontext, Bool.or_false]
  simp

def storedBy (d : Desk Y) (s : Store (Workspace Y)) (peer thread : Str) (m : Moment) (event : Envelope)
    (context : Record) : Option SharedThread :=
  if isOutdated event context ||
      ((s.shared peer thread).map SharedThread.deleteRequested).getD false then none
  else if event.kind = .threadManage then
    if !s.isEnabled peer then none
    else
      match managedContext context (actionOf event) with
      | .error _ => none
      | .ok next => (s.shared peer thread).map (managed (d.stamp m.now) (actionOf event) next)
  else
    match m.configure context event.payload with
    | .error _ => none
    | .ok next => (s.shared peer thread).bind (fun v =>
        (member next "revision").map (fun revision => adopted d event context revision v))

def hasRoomFor (d : Desk Y) (s : Store (Workspace Y)) (peer : Str) (m : Moment) (event : Envelope) :
    Bool :=
  ((event.threadId.bind (s.grantOf peer)).bind (fun grant =>
    (s.storedBy d peer grant.thread m event grant.context).map
      (s.rest.hasRoom d peer grant.thread))).getD true

theorem manage_alike (h : DifferInHidden s t) (m : Moment) (event : Envelope) (context : Record)
    (hkind : event.kind = .threadManage)
    (hroom : ∀ next v v', managedContext context (actionOf event) = .ok next →
      s.isEnabled peer = true → s.shared peer thread = some v → t.shared peer thread = some v' →
      s.rest.hasRoom d peer thread (managed (d.stamp m.now) (actionOf event) next v) =
        t.rest.hasRoom d peer thread (managed (d.stamp m.now) (actionOf event) next v')) :
    seen withoutHidden (manage d peer thread m event (actionOf event) context) s =
      seen withoutHidden (manage d peer thread m event (actionOf event) context) t := by
  apply seen_peek
  rcases shared_cases h peer thread with ⟨hns, hnt⟩ | ⟨v, v', hvs, hvt, hv⟩
  · rw [hns, hnt]
    exact reject_unseeing _ _ _ s t h
  rw [hvs, hvt]
  simp only
  rw [← isEnabled_alike h]
  cases henabled : s.isEnabled peer with
  | false => exact reject_unseeing _ _ _ s t h
  | true =>
    cases hnext : managedContext context (actionOf event) with
    | error e => exact seen_fail _ h
    | ok next =>
      have hmanaged : (managed (d.stamp m.now) (actionOf event) next v).withoutHidden =
          (managed (d.stamp m.now) (actionOf event) next v').withoutHidden := by
        rw [managed_withoutHidden, managed_withoutHidden, hv]
      have hverdict := hroom next v v' hnext henabled hvs hvt
      apply putShared_alike h hmanaged hverdict
      intro hstored _
      -- The second time, the same conversation is stored.
      apply applyContext_alike hstored
      intro revision w w' hrevision hws hwt
      rw [shared_stored, Option.some.injEq] at hws hwt
      rw [← hws, ← hwt, adopted_managed hkind hrevision, adopted_managed hkind hrevision]
      change (s.rest.stored peer thread _).hasRoom d peer thread _ =
        (t.rest.stored peer thread _).hasRoom d peer thread _
      rw [hasRoom_stored, hasRoom_stored, hverdict]

theorem change_alike (h : DifferInHidden s t) (m : Moment) (event : Envelope) (context : Record)
    (hroom : ((s.storedBy d peer thread m event context).map (s.rest.hasRoom d peer thread)).getD true =
      ((t.storedBy d peer thread m event context).map (t.rest.hasRoom d peer thread)).getD true) :
    seen withoutHidden (change d peer thread m event context) s =
      seen withoutHidden (change d peer thread m event context) t := by
  have hdeleted : (s.shared peer thread).map SharedThread.deleteRequested =
      (t.shared peer thread).map SharedThread.deleteRequested := by
    have hmap := congrArg (Option.map SharedThread.deleteRequested) (shared_alike h peer thread)
    rw [Option.map_map, Option.map_map] at hmap
    exact hmap
  apply seen_peek
  rw [hdeleted]
  unfold storedBy at hroom
  rw [hdeleted, isEnabled_alike h] at hroom
  split_ifs with houtdated hdelete hmanage
  · exact reject_unseeing _ _ _ s t h
  · exact reject_unseeing _ _ _ s t h
  · simp only [houtdated, hdelete, Bool.or_self, Bool.false_eq_true, if_false, if_pos hmanage] at hroom
    apply manage_alike h m event context hmanage
    intro next v v' hnext henabled hvs hvt
    rw [isEnabled_alike h] at henabled
    rw [henabled, hnext, hvs, hvt] at hroom
    exact hroom
  · simp only [houtdated, hdelete, Bool.or_self, Bool.false_eq_true, if_false, if_neg hmanage] at hroom
    unfold updateContext
    cases hnext : m.configure context event.payload with
    | error message => exact reject_unseeing _ _ _ s t h
    | ok next =>
      apply applyContext_alike h
      intro revision v v' hrevision hvs hvt
      rw [hnext, hvs, hvt] at hroom
      simp only [Option.bind_some, hrevision, Option.map_some, Option.getD_some] at hroom
      exact hroom

theorem readHistory_unseeing (journal : Option Journal) (event : Envelope) (context : Record) :
    Unseeing withoutHidden (readHistory d peer thread journal event context) := by
  intro s t h
  apply seen_peek
  have hpage : ∀ {rich : Bool} {first second : List Message},
      first.map Message.withoutHidden = second.map Message.withoutHidden →
      historyPage d event.payload context rich first = historyPage d event.payload context rich second :=
    fun hm => historyPage_alike hm _ _ _
  simp only
  split_ifs
  · rw [hpage (desktopMessages_alike h journal)]
    exact answer_unseeing _ _ _ _ s t h
  · have hmessages : (s.messages d peer thread false none).map Message.withoutHidden =
        (t.messages d peer thread false none).map Message.withoutHidden := by
      rw [← messages_withoutHidden, ← messages_withoutHidden, h]
    rw [hpage hmessages]
    exact answer_unseeing _ _ _ _ s t h

theorem handleThread_alike (h : DifferInHidden s t) (m : Moment) (event : Envelope)
    (hroom : event.kind ≠ .threadHistoryRequest →
      s.hasRoomFor d peer m event = t.hasRoomFor d peer m event) :
    seen withoutHidden (handleThread d peer m event) s =
      seen withoutHidden (handleThread d peer m event) t := by
  have hgrant : s.grantOf peer = t.grantOf peer := by
    change s.withoutHidden.grantOf peer = t.withoutHidden.grantOf peer
    rw [h]
  unfold hasRoomFor at hroom
  rw [hgrant] at hroom
  apply seen_peek
  rw [hgrant]
  cases hg : event.threadId.bind (t.grantOf peer) with
  | none => exact reject_unseeing _ _ _ s t h
  | some grant =>
    simp only
    split_ifs with hkind
    · exact readHistory_unseeing m.journal event grant.context s t h
    · rw [hg] at hroom
      exact change_alike h m event grant.context (hroom hkind)

theorem answerSearch_alike (h : DifferInHidden s t) (event : Envelope)
    (hs : s.hides d peer event.payload = true) (ht : t.hides d peer event.payload = true) :
    seen withoutHidden (answerSearch d peer event) s = seen withoutHidden (answerSearch d peer event) t := by
  apply seen_peek
  rw [search_alike h hs ht]
  exact answer_unseeing _ _ _ _ s t h

theorem sync_unseeing (m : Moment) (event : Envelope) : Unseeing withoutHidden (sync d peer m event) := by
  intro s t h
  have hprune : ∀ cursor, DifferInHidden (s.pruneAcknowledged peer cursor) (t.pruneAcknowledged peer cursor) := by
    intro cursor
    change (s.withoutHidden.pruneAcknowledged peer cursor) = (t.withoutHidden.pruneAcknowledged peer cursor)
    rw [h]
  have hrest : Unseeing withoutHidden (do
      let events ← pending peer (intOr 0 (getValue event.payload "after_sequence"))
        (intOr 100 (getValue event.payload "limit")).toNat
      let u ← peek
      let threads ← lift (((u.grantsOf peer).mergeSort (fun g h => decide (g.thread ≤ h.thread))).mapM
        (u.syncThread d peer m event.payload))
      let answer ← emit d.toDesktop peer event.threadId event.requestId .syncSnapshot
        (syncSnapshot d m event.payload events threads)
      pure (events ++ [answer]) : Tx (Workspace Y) (List Envelope)) := by
    apply (pending_unseeing _ _).bind
    intro events u u' hu
    apply seen_peek
    have hgrants : u.grantsOf peer = u'.grantsOf peer := by
      change u.withoutHidden.grantsOf peer = u'.withoutHidden.grantsOf peer
      rw [hu]
    have hthread : u.syncThread d peer m event.payload = u'.syncThread d peer m event.payload := by
      funext grant
      unfold syncThread
      simp only [details_alike hu]
    rw [hgrants, hthread]
    apply seen_bind (seen_lift _ hu)
    intro threads v v' hv
    exact ((emit_unseeing _ _ _ _).bind (fun answer => .pure (events ++ [answer]))) v v' hv
  apply seen_peek
  split
  · exact seen_bind (seen_put (hprune _)) (fun _ => hrest)
  · exact hrest s t h

theorem addressed_alike {reason : String} {x : Tx (Workspace Y) (List Envelope)}
    (h : seen withoutHidden x s = seen withoutHidden x t) :
    seen withoutHidden (addressed reason x) s = seen withoutHidden (addressed reason x) t := by
  unfold seen at h ⊢
  unfold addressed
  cases hs : x s with
  | ok a s' =>
    cases ht : x t with
    | ok b t' =>
      rw [hs, ht] at h
      exact h
    | error e t' =>
      rw [hs, ht] at h
      cases (Prod.mk.inj h).1
  | error e s' =>
    cases ht : x t with
    | ok b t' =>
      rw [hs, ht] at h
      cases (Prod.mk.inj h).1
    | error e' t' =>
      rw [hs, ht] at h
      obtain ⟨he, hview⟩ := Prod.mk.inj h
      cases he
      cases e with
      | validation => exact Prod.ext rfl hview
      | _ => exact Prod.ext rfl hview

theorem answerError_unseeing (target request : Option Str) (reason : String) :
    Unseeing withoutHidden (answerError d.toDesktop peer target request reason) :=
  fun s t h => addressed_alike (answer_unseeing _ _ _ _ s t h)

theorem refuseBody_unseeing (event : Envelope) (digest : Str) (reason : String) (now : ℚ) :
    Unseeing withoutHidden (refuseBody d.toDesktop peer event digest reason now) := by
  apply trusted_unseeing.bind
  intro _
  split_ifs
  · exact answerError_unseeing _ _ _
  · apply unseeing_of_rest
    intro s w hw
    have hview := (withoutHidden_rest s hw).symm
    apply seen_peek
    rw [show Store.prior { s with rest := w } peer event.id = s.prior peer event.id from rfl]
    cases s.prior peer event.id with
    | some receipt => exact pending_unseeing 0 100 _ _ hview
    | none =>
      exact (recordInbound_unseeing event digest now).bind (fun _ => answerError_unseeing _ _ _) _ _ hview

theorem transaction_alike {α : Type} {x : Tx (Workspace Y) α} (h : DifferInHidden s t)
    (hx : seen withoutHidden x s = seen withoutHidden x t) :
    (s.transaction x).1 = (t.transaction x).1 ∧
      DifferInHidden (s.transaction x).2 (t.transaction x).2 := by
  unfold seen at hx
  unfold transaction
  cases hs : x s with
  | ok a s' =>
    cases ht : x t with
    | ok b t' =>
      rw [hs, ht] at hx
      obtain ⟨hab, hview⟩ := Prod.mk.inj hx
      exact ⟨hab, hview⟩
    | error e t' =>
      rw [hs, ht] at hx
      cases (Prod.mk.inj hx).1
  | error e s' =>
    cases ht : x t with
    | ok b t' =>
      rw [hs, ht] at hx
      cases (Prod.mk.inj hx).1
    | error e' t' =>
      rw [hs, ht] at hx
      obtain ⟨he, hview⟩ := Prod.mk.inj hx
      refine ⟨congrArg Except.error (Except.error.inj he), ?_⟩
      -- The tables are as they were, but for what no transaction takes back.
      have hdrawn : s'.withoutHidden.drawn = t'.withoutHidden.drawn := by rw [hview]
      have hperformed : s'.withoutHidden.performed = t'.withoutHidden.performed := by rw [hview]
      obtain ⟨ht', hrest⟩ := rest_alike h
      apply alike_of_rest
      · rw [ht']
        change s'.drawn = t'.drawn at hdrawn
        change s'.performed = t'.performed at hperformed
        simp only [hdrawn, hperformed]
      · exact hrest

def isNew (d : Desktop (Workspace Y)) (s : Store (Workspace Y)) (peer : Str) (event : Envelope) : Bool :=
  match (trusted peer >>= fun _ => isKnown peer event (d.digest event) : Tx (Workspace Y) Bool) s with
  | .ok known _ => !known
  | .error .. => false

def AfterRecording (s s' : Store (Workspace Y)) : Prop :=
  ∃ inbox inboxReads registry, s' = { s with inbox, inboxReads, registry } ∧ s'.isActive = s.isActive

theorem recordInbound_records {event : Envelope} {digest : Str} {now : ℚ} {s' : Store (Workspace Y)}
    (h : recordInbound peer event digest now s = .ok () s') : AfterRecording s s' := by
  have hactive : (s.registry.update peer (fun p => { p with lastSeen := some now })).peers.any =
      s.registry.peers.any ∘ fun f p => f (if p.deviceId = peer then { p with lastSeen := some now } else p) := by
    funext f
    unfold Registry.update
    rw [List.any_map]
    rfl
  have hsame : ∀ inbox inboxReads, isActive { s with
      inbox, inboxReads, registry := s.registry.update peer (fun p => { p with lastSeen := some now }) } =
      s.isActive := by
    intro inbox inboxReads
    funext p
    unfold isActive
    simp only [hactive, Function.comp]
    congr 1
    funext row
    split_ifs
    · rfl
    · rfl
  unfold recordInbound at h
  rw [run_bind_ok (x := peek) rfl] at h
  split_ifs at h
  · cases hrows : insertReceipt s.inboxReads ⟨peer, event.id, digest, event.sequence⟩ with
    | error e =>
      rw [hrows] at h
      cases h
    | ok rows =>
      rw [hrows, run_bind_ok (x := lift _) rfl] at h
      cases h
      exact ⟨_, _, _, rfl, hsame _ _⟩
  · cases hrows : insertReceipt s.inbox ⟨peer, event.id, digest, event.sequence⟩ with
    | error e =>
      rw [hrows] at h
      cases h
    | ok rows =>
      rw [hrows, run_bind_ok (x := lift _) rfl] at h
      cases h
      exact ⟨_, _, _, rfl, hsame _ _⟩

theorem trusted_ok {s' : Store (Workspace Y)} (h : trusted peer s = .ok () s') : s' = s := by
  rcases trusted_cases s peer with hok | ⟨f, herror⟩
  · rw [hok] at h
    cases h
    rfl
  · rw [herror] at h
    cases h

theorem isKnown_ok {event : Envelope} {digest : Str} {known : Bool} {s' : Store (Workspace Y)}
    (h : isKnown peer event digest s = .ok known s') : s' = s := by
  rcases isKnown_cases s peer event digest with ⟨-, hok⟩ | ⟨reason, -, -, herror⟩ | ⟨-, -, -, hok⟩
  · rw [hok] at h
    cases h
    rfl
  · rw [herror] at h
    cases h
  · rw [hok] at h
    cases h
    rfl

theorem handleBody_alike (h : DifferInHidden s t)
    (body : Str → Envelope → Tx (Workspace Y) (List Envelope)) (event : Envelope) (now : ℚ)
    (hbody : s.isNew d.toDesktop peer event = true → ∀ s' t', DifferInHidden s' t' → AfterRecording s s' →
      AfterRecording t t' → seen withoutHidden (body peer event) s' = seen withoutHidden (body peer event) t') :
    seen withoutHidden (handleBody body peer event (d.toDesktop.digest event) now) s =
      seen withoutHidden (handleBody body peer event (d.toDesktop.digest event) now) t := by
  apply seen_bind_of_run (trusted_unseeing s t h)
  intro _ s₁ t₁ hs₁ ht₁ _
  cases trusted_ok hs₁
  cases trusted_ok ht₁
  apply seen_bind_of_run (isKnown_unseeing event _ s t h)
  intro known s₁ t₁ hs₂ ht₂ _
  cases isKnown_ok hs₂
  cases isKnown_ok ht₂
  split_ifs with hknown
  · exact pending_unseeing 0 100 s t h
  · have hnew : s.isNew d.toDesktop peer event = true := by
      unfold isNew
      rw [run_bind_ok hs₁, hs₂]
      simpa using hknown
    apply seen_bind_of_run (recordInbound_unseeing event _ now s t h)
    intro _ s₁ t₁ hs₃ ht₃ hview
    exact hbody hnew s₁ t₁ hview (recordInbound_records hs₃) (recordInbound_records ht₃)

theorem handle_alike (h : DifferInHidden s t)
    (body : Str → Envelope → Tx (Workspace Y) (List Envelope)) (event : Envelope) (now : ℚ)
    (hbody : s.isNew d.toDesktop peer event = true → ∀ s' t', DifferInHidden s' t' → AfterRecording s s' →
      AfterRecording t t' → seen withoutHidden (body peer event) s' = seen withoutHidden (body peer event) t') :
    (s.handle d.toDesktop body peer (.event event) now).1 =
        (t.handle d.toDesktop body peer (.event event) now).1 ∧
      DifferInHidden (s.handle d.toDesktop body peer (.event event) now).2
        (t.handle d.toDesktop body peer (.event event) now).2 := by
  obtain ⟨hresult, hview⟩ := transaction_alike h (handleBody_alike h body event now hbody)
  rw [handle_event, handle_event]
  generalize s.transaction (handleBody body peer event (d.toDesktop.digest event) now) = first at hresult hview ⊢
  generalize t.transaction (handleBody body peer event (d.toDesktop.digest event) now) = second at hresult hview ⊢
  obtain ⟨result, u⟩ := first
  obtain ⟨result', u'⟩ := second
  simp only at hresult hview
  cases hresult
  cases result with
  | ok answers => exact ⟨rfl, hview⟩
  | error f =>
    simp only
    cases refusalReason f with
    | none => exact ⟨rfl, hview⟩
    | some reason => exact transaction_alike hview (refuseBody_unseeing event _ reason now u u' hview)

end Store

/-! Runs. -/

def phoneKinds : List Kind :=
  [.threadHistoryRequest, .threadSearchRequest, .threadManage, .threadContextUpdate, .syncRequest]

structure PhoneRequest where
  peer : Str
  event : Envelope
  moment : Moment
  ofPhone : event.kind ∈ phoneKinds

structure Answering (Y : Type) where
  store : Store (Workspace Y)
  answers : List (Except Fault (List Envelope))

namespace Answering
open Store
variable (d : Desk Y) (other : Str → Envelope → Tx (Workspace Y) (List Envelope))

def answer (s : Store (Workspace Y)) (r : PhoneRequest) :
    Except Fault (List Envelope) × Store (Workspace Y) :=
  s.handle d.toDesktop (workspaceBody d r.moment other) r.peer (.event r.event) r.moment.now

def step (a : Answering Y) (r : PhoneRequest) : Answering Y :=
  ⟨(answer d other a.store r).2, a.answers ++ [(answer d other a.store r).1]⟩

def run (s : Store (Workspace Y)) (requests : List PhoneRequest) : Answering Y :=
  requests.foldl (step d other) ⟨s, []⟩

def stepBoth (p : Answering Y × Answering Y) (r : PhoneRequest) : Answering Y × Answering Y :=
  (step d other p.1 r, step d other p.2 r)

/-- A request does not come upon what is hidden: a search finds no hidden message before the
first one that is shown, in neither store, and the quota of the conversations lets a change into
both stores or into none. An event that has been answered before is not looked at again. -/
def spared (p : Answering Y × Answering Y) (r : PhoneRequest) : Bool :=
  !p.1.store.isNew d.toDesktop r.peer r.event ||
  match r.event.kind with
  | .threadSearchRequest =>
    p.1.store.hides d r.peer r.event.payload && p.2.store.hides d r.peer r.event.payload
  | .threadManage | .threadContextUpdate =>
    p.1.store.hasRoomFor d r.peer r.moment r.event == p.2.store.hasRoomFor d r.peer r.moment r.event
  | _ => true

variable {d other} {p : Answering Y × Answering Y}

theorem hasRoomFor_records {s s' : Store (Workspace Y)} (h : AfterRecording s s') (peer : Str) (m : Moment)
    (event : Envelope) : s'.hasRoomFor d peer m event = s.hasRoomFor d peer m event := by
  obtain ⟨inbox, inboxReads, registry, rfl, hactive⟩ := h
  have henabled : isEnabled { s with inbox, inboxReads, registry } peer = s.isEnabled peer := by
    unfold isEnabled
    rw [hactive]
  unfold hasRoomFor storedBy
  rw [henabled]
  rfl

theorem hides_records {s s' : Store (Workspace Y)} (h : AfterRecording s s') (peer : Str) (payload : Record) :
    s'.hides d peer payload = s.hides d peer payload := by
  obtain ⟨inbox, inboxReads, registry, rfl, -⟩ := h
  rfl

theorem step_alike (h : DifferInHidden p.1.store p.2.store) (ha : p.1.answers = p.2.answers)
    (r : PhoneRequest) (hspared : spared d p r = true) :
    DifferInHidden (stepBoth d other p r).1.store (stepBoth d other p r).2.store ∧
      (stepBoth d other p r).1.answers = (stepBoth d other p r).2.answers := by
  have hbody : p.1.store.isNew d.toDesktop r.peer r.event = true → ∀ s' t', DifferInHidden s' t' →
      AfterRecording p.1.store s' → AfterRecording p.2.store t' →
      seen withoutHidden (workspaceBody d r.moment other r.peer r.event) s' =
        seen withoutHidden (workspaceBody d r.moment other r.peer r.event) t' := by
    intro hnew s' t' hst hs ht
    unfold spared at hspared
    rw [hnew, Bool.not_true, Bool.false_or] at hspared
    have hkinds := r.ofPhone
    simp only [phoneKinds, List.mem_cons, List.not_mem_nil, or_false] at hkinds
    unfold workspaceBody
    rcases hkinds with hk | hk | hk | hk | hk
    -- A history, a search, the two changes and a synchronization.
    · rw [hk]
      exact handleThread_alike hst r.moment r.event (fun hne => absurd hk hne)
    · rw [hk] at hspared ⊢
      obtain ⟨hhs, hht⟩ := Bool.and_eq_true_iff.mp hspared
      rw [← hides_records hs] at hhs
      rw [← hides_records ht] at hht
      exact answerSearch_alike hst r.event hhs hht
    · rw [hk] at hspared ⊢
      apply handleThread_alike hst r.moment r.event
      intro _
      rw [hasRoomFor_records hs, hasRoomFor_records ht]
      exact eq_of_beq hspared
    · rw [hk] at hspared ⊢
      apply handleThread_alike hst r.moment r.event
      intro _
      rw [hasRoomFor_records hs, hasRoomFor_records ht]
      exact eq_of_beq hspared
    · rw [hk]
      exact sync_unseeing r.moment r.event s' t' hst
  have halike : (answer d other p.1.store r).1 = (answer d other p.2.store r).1 ∧
      DifferInHidden (answer d other p.1.store r).2 (answer d other p.2.store r).2 :=
    handle_alike h (workspaceBody d r.moment other) r.event r.moment.now hbody
  refine ⟨halike.2, ?_⟩
  unfold stepBoth step
  rw [ha, halike.1]

theorem foldl_stepBoth (requests : List PhoneRequest) : requests.foldl (stepBoth d other) p =
    (requests.foldl (step d other) p.1, requests.foldl (step d other) p.2) := by
  induction requests generalizing p with
  | nil => rfl
  | cons r requests ih => exact ih

/-- What is hidden reaches no phone: two desktops that differ only in the bodies of hidden
messages give the same answers and post the same events, while no request comes upon what is
hidden. -/
theorem hidden_unseen (d : Desk Y) (other : Str → Envelope → Tx (Workspace Y) (List Envelope))
    (s t : Store (Workspace Y)) (hdiffer : DifferInHidden s t) (requests : List PhoneRequest)
    (hspared : Guarded.Along (stepBoth d other) (fun p r => spared d p r = true) (⟨s, []⟩, ⟨t, []⟩)
      requests) :
    (run d other s requests).answers = (run d other t requests).answers ∧
      (run d other s requests).store.outbox = (run d other t requests).store.outbox := by
  have hkept := hspared.invariant (I := fun p => DifferInHidden p.1.store p.2.store ∧
    p.1.answers = p.2.answers) (fun p r hp hr => step_alike hp.1 hp.2 r hr) ⟨hdiffer, rfl⟩
  rw [foldl_stepBoth] at hkept
  obtain ⟨hstore, hanswers⟩ := hkept
  refine ⟨hanswers, ?_⟩
  change (run d other s requests).store.withoutHidden.outbox =
    (run d other t requests).store.withoutHidden.outbox
  exact congrArg Store.outbox hstore

end Answering

/-! A conversation whose memory is found. -/
section Examples
open Answering

def plainDesk : Desk Unit where
  valid _ := true
  size _ := 1000
  digest event := event.id
  jobDigest thread _ := thread
  uuid4 := decimal
  uuid5 name := name
  remoteRequests _ _ := 0
  encodedSize _ := 100
  valueSize _ value := (value.messages.map (fun m => m.body.length)).sum + 1000
  str
    | .str s => s
    | _ => []
  normalize s := s
  stamp _ := text "2026-01-01T00:00:00+00:00"
  metadata _ _ _ _ := none
  resourceOptions _ := []

def quietMoment : Moment := ⟨7, none, fun context _ => .ok context, fun _ => []⟩

def noOther : Str → Envelope → Tx (Workspace Unit) (List Envelope) := fun _ _ => pure []

def memoryKind : Record := [(.str (text "kind"), .str (text "memory"))]

def remembering (memory : String) : Store (Workspace Unit) :=
  let thread : SharedThread :=
    { metadata := [], messages :=
        [⟨text "m0", text "system", text memory, memoryKind⟩,
          ⟨text "m1", text "user", text "hello there", []⟩],
      revision := .int 1, removedIds := [], organization := none, deleteRequested := false,
      contextModified := false, resourcesModified := false, more := [] }
  { phoneTables with
    grants := [⟨phone, [7], [(.str (text "title"), .str (text "Notes")),
      (.str (text "provider"), .str (text "codex")), (.str (text "model"), .str (text "large")),
      (.str (text "revision"), .int 1)]⟩]
    rest := ⟨[⟨phone, [7], thread⟩], [], [phone], [], [], ()⟩ }

theorem remembering_differ (first second : String) :
    DifferInHidden (remembering first) (remembering second) := by
  have hhidden : ∀ body : Str, (⟨text "m0", text "system", body, memoryKind⟩ : Message).withoutHidden =
      ⟨text "m0", text "system", [], memoryKind⟩ := fun _ => if_pos rfl
  unfold DifferInHidden remembering Store.withoutHidden Workspace.withoutHidden
  simp only [SharedThread.withoutHidden, List.map_cons, hhidden]

def searchFor (query : String) : PhoneRequest where
  peer := phone
  event := ⟨[1], none, some [2], 1, .threadSearchRequest, [(.str (text "query"), .str (text query))]⟩
  moment := quietMoment
  ofPhone := by simp [phoneKinds]

def archiveThread : PhoneRequest where
  peer := phone
  event := ⟨[5], some [7], some [6], 3, .threadManage, [(.str (text "expected_revision"), .int 1),
    (.str (text "action"), .str (text "archive"))]⟩
  moment := quietMoment
  ofPhone := by simp [phoneKinds]

theorem remembered_unseen :
    (run plainDesk noOther (remembering "the key is 1234") [archiveThread, searchFor "hello"]).answers =
      (run plainDesk noOther (remembering "the key is 9876") [archiveThread, searchFor "hello"]).answers ∧
    (run plainDesk noOther (remembering "the key is 1234") [archiveThread, searchFor "hello"]).store.outbox =
      (run plainDesk noOther (remembering "the key is 9876")
        [archiveThread, searchFor "hello"]).store.outbox :=
  hidden_unseen plainDesk noOther (remembering "the key is 1234") (remembering "the key is 9876")
    (remembering_differ _ _) [archiveThread, searchFor "hello"] (by decide +kernel)

def payloads (answers : List (Except Fault (List Envelope))) : List Value :=
  answers.flatMap (fun
    | .ok events => events.map (fun e => .dict e.payload)
    | .error _ => [])

/-- The memory is found, and shown in the result. -/
theorem memory_found : ¬ ∀ s t : Store (Workspace Unit), DifferInHidden s t →
    (run plainDesk noOther s [searchFor "key"]).answers =
      (run plainDesk noOther t [searchFor "key"]).answers := by
  intro h
  have hsame := h (remembering "the key is 1234") (remembering "the key is 9876")
    (remembering_differ _ _)
  have hdiffer : eqItems (payloads (run plainDesk noOther (remembering "the key is 1234")
      [searchFor "key"]).answers) (payloads (run plainDesk noOther (remembering "the key is 9876")
      [searchFor "key"]).answers) = false := by decide +kernel
  have hequal : eqItems (payloads (run plainDesk noOther (remembering "the key is 9876")
      [searchFor "key"]).answers) (payloads (run plainDesk noOther (remembering "the key is 9876")
      [searchFor "key"]).answers) = true := by decide +kernel
  rw [hsame, hequal] at hdiffer
  cases hdiffer

end Examples

end Raticode.Device
