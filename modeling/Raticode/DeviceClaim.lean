import Raticode.DeviceDispatch

/-! Which request a claim serves, and whether its turn can start. -/
namespace Raticode.Device
open PyDocument Attempt

/-! Whether there is room for an event. -/
namespace Store
variable {X : Type}

def nextEvent (d : Desktop X) (s : Store X) (peer : Str) (thread request : Option Str) (kind : Kind)
    (payload : Record) : Envelope :=
  ⟨d.uuid4 s.drawn, thread, request, s.lastSequence d peer + 1, kind, payload⟩

def fits (d : Desktop X) (s : Store X) (peer : Str) (thread request : Option Str) (kind : Kind)
    (payload : Record) : Bool :=
  (s.ofPeer peer).length < outboxEvents &&
    d.valid (s.nextEvent d peer thread request kind payload) &&
    s.usedBytes peer + d.size (s.nextEvent d peer thread request kind payload) ≤ outboxBytes

def spent (d : Desktop X) (s : Store X) (peer : Str) : Store X :=
  { s with
    drawn := s.drawn + 1
    sequences := (peer, s.lastSequence d peer + 1) :: s.sequences.filter (fun p => p.1 ≠ peer) }

theorem emit_eq (d : Desktop X) (s : Store X) (peer : Str) (thread request : Option Str)
    (kind : Kind) (payload : Record) :
    emit d peer thread request kind payload s =
      if outboxEvents ≤ (s.ofPeer peer).length then .error (.pairing "outbox_quota") s
      else if !d.valid (s.nextEvent d peer thread request kind payload) then
        .error .validation (s.spent d peer)
      else if outboxBytes < s.usedBytes peer + d.size (s.nextEvent d peer thread request kind payload)
      then .error (.pairing "outbox_byte_quota") (s.spent d peer)
      else .ok (s.nextEvent d peer thread request kind payload) { s.spent d peer with
          outbox := s.outbox ++ [⟨peer, s.lastSequence d peer + 1,
            s.nextEvent d peer thread request kind payload,
            d.size (s.nextEvent d peer thread request kind payload)⟩] } := by
  unfold emit
  change (if outboxEvents ≤ (s.ofPeer peer).length then _ else _ : Tx X Envelope) s = _
  split
  · rfl
  · change (if !d.valid (s.nextEvent d peer thread request kind payload) then _ else _ :
      Tx X Envelope) (s.spent d peer) = _
    split
    · rfl
    · split
      next hbytes => exact (if_pos hbytes).symm
      next hbytes => exact (if_neg hbytes).symm

theorem emit_cases (d : Desktop X) (s : Store X) (peer : Str) (thread request : Option Str)
    (kind : Kind) (payload : Record) :
    (s.fits d peer thread request kind payload = true ∧ ∃ e s',
      emit d peer thread request kind payload s = .ok e s' ∧ s'.work = s.work) ∨
    (s.fits d peer thread request kind payload = false ∧ ∃ e s',
      emit d peer thread request kind payload s = .error e s') := by
  rw [emit_eq]
  unfold fits
  split_ifs with hcount hvalid hbytes
  · exact .inr ⟨by simp [Nat.not_lt.mpr hcount], _, _, rfl⟩
  · refine .inr ⟨?_, _, _, rfl⟩
    simp only [Bool.not_eq_true'] at hvalid
    simp [hvalid]
  · exact .inr ⟨by simp [Nat.not_le.mpr hbytes], _, _, rfl⟩
  · refine .inl ⟨?_, _, _, rfl, rfl⟩
    simp only [Bool.not_eq_true, Bool.not_eq_false'] at hvalid
    simp [Nat.not_le.mp hcount, hvalid, Nat.not_lt.mp hbytes]

end Store

/-! Which request is served. -/

/-- `context.get("desktop_thread_id", thread)`. -/
def conversation (context : Record) (thread : Str) : Value :=
  (member context "desktop_thread_id").getD (.str thread)

def hasTurn (jobs : List Str) (context : Record) (thread : Str) : Bool :=
  jobs.any (fun j => eqValue (conversation context thread) (.str j))

namespace Store
variable {X : Type} (b : Workbench X)

def isReady (s : Store X) (jobs : List Str) (w : Work) : Bool :=
  s.isEligible w && !hasTurn jobs (s.contextOf w.peer w.thread) w.thread

def attachmentsOf (s : Store X) (row : Work) : Except Fault (List Value) :=
  (attachmentIds row.event.payload).mapM (b.attachment s.rest row.peer row.thread)

def Serves (s : Store X) (jobs : List Str) : Prop :=
  (∃ w ∈ s.work, s.isReady jobs w = true) →
    ∃ w ∈ s.work, s.isReady jobs w = true ∧
      ((∃ c s', s.transaction (claim b (some jobs)) = (.ok (some c), s') ∧ c.peer = w.peer ∧
        c.event.requestId = some w.request) ∨
      ∃ s', s.transaction (claim b (some jobs)) = (.ok none, s') ∧
        ∃ code, s.attachmentsOf b w = .error (.pairing code) ∧
        ∃ w' ∈ s'.work, w.SameAs w' ∧ w'.state = .failed)

/-- The request that the query selects can be served: its own conversation has no turn, its
attachments are there or gone for good, and its own peer's outbox has room for its
status. -/
def CanServe (s : Store X) (jobs : List Str) (row : Work) : Prop :=
  hasTurn jobs (s.contextOf row.peer row.thread) row.thread = false ∧
  match s.attachmentsOf b row with
  | .ok _ => s.fits b.toDesktop row.peer row.event.threadId row.event.requestId .requestStatus
      (statusPayload "running" "Rem dispatch started") = true
  | .error (.pairing _) => s.fits b.toDesktop row.peer row.event.threadId row.event.requestId
      .requestStatus (statusPayload "failed" "Attachment expired or unavailable") = true
  | .error _ => False

variable {b} {s : Store X} {jobs : List Str}

theorem hasTurn_of_hasLocalTurn {context : Record} {thread : Str}
    (h : hasLocalTurn context (some jobs) = true) : hasTurn jobs context thread = true := by
  unfold hasLocalTurn at h
  split at h
  next native jobs' hnative hjobs =>
    cases hjobs
    rw [Bool.and_eq_true] at h
    refine List.any_eq_true.mpr ⟨native, List.contains_iff_mem.mp h.2, ?_⟩
    rw [conversation, hnative]
    simp [eqValue]
  · cases h

theorem fits_setWork (d : Desktop X) (which : Work → Bool) (state : WorkState) (peer : Str)
    (thread request : Option Str) (kind : Kind) (payload : Record) :
    (s.setWork which state).fits d peer thread request kind payload =
      s.fits d peer thread request kind payload := rfl

/-- The end of `claim`, for a request whose turn can start. -/
def dispatch (b : Workbench X) (s : Store X) (row : Work) : Tx X (Option Claimed) :=
  match s.attachmentsOf b row with
  | .error (.pairing _) => do
    let s ← peek
    put (s.setWork (isRequest row.peer row.request) .failed)
    let _ ← status b.toDesktop row.peer row.event.threadId row.event.requestId "failed"
      "Attachment expired or unavailable"
    pure none
  | .error e => fail e
  | .ok attachments => do
    let event := { row.event with payload := withText row.event.payload }
    let _ ← status b.toDesktop row.peer event.threadId event.requestId "running"
      "Rem dispatch started"
    let s' ← peek
    pure (some ⟨row.peer, event, row.turn, s.contextOf row.peer row.thread,
      b.history s' row.peer row.thread row.request, attachments⟩)

theorem claim_selected {row : Work} (hrow : s.selected = some row)
    (hlocal : hasLocalTurn (s.contextOf row.peer row.thread) (some jobs) = false) :
    match s.attachmentsOf b row with
    | .ok _ =>
      if s.fits b.toDesktop row.peer row.event.threadId row.event.requestId .requestStatus
        (statusPayload "running" "Rem dispatch started") then
        ∃ c s', claim b (some jobs) s = .ok (some c) s' ∧ c.peer = row.peer ∧
          c.event.requestId = row.event.requestId
      else ∃ e s', claim b (some jobs) s = .error e s'
    | .error (.pairing _) =>
      if s.fits b.toDesktop row.peer row.event.threadId row.event.requestId .requestStatus
        (statusPayload "failed" "Attachment expired or unavailable") then
        ∃ s', claim b (some jobs) s = .ok none s' ∧
          s'.work = (s.setWork (isRequest row.peer row.request) .failed).work
      else ∃ e s', claim b (some jobs) s = .error e s'
    | .error _ => ∃ e s', claim b (some jobs) s = .error e s' := by
  have hstart : claim b (some jobs) s =
      dispatch b s row (s.setWork (isRequest row.peer row.request) .running) := by
    unfold claim
    rw [show ∀ f : Store X → Tx X (Option Claimed), (peek >>= f) s = f s s from fun _ => rfl]
    simp only [hrow, hlocal, Bool.false_eq_true, if_false]
    rfl
  rw [hstart, dispatch]
  cases s.attachmentsOf b row with
  | ok attachments =>
    simp only
    rcases emit_cases b.toDesktop (s.setWork (isRequest row.peer row.request) .running) row.peer
      row.event.threadId row.event.requestId .requestStatus
      (statusPayload "running" "Rem dispatch started") with
      ⟨hfits, e, s', hemit, -⟩ | ⟨hfits, e, s', hemit⟩
    · rw [fits_setWork] at hfits
      rw [if_pos hfits]
      refine ⟨⟨row.peer, { row.event with payload := withText row.event.payload }, row.turn,
        s.contextOf row.peer row.thread, b.history s' row.peer row.thread row.request, attachments⟩,
        s', ?_, rfl, rfl⟩
      simp only [status, bind, EStateM.bind, hemit]
      rfl
    · rw [fits_setWork] at hfits
      rw [if_neg (by simp [hfits])]
      refine ⟨e, s', ?_⟩
      simp only [status, bind, EStateM.bind, hemit]
  | error f =>
    cases f with
    | pairing code =>
      simp only
      rcases emit_cases b.toDesktop ((s.setWork (isRequest row.peer row.request) .running).setWork
        (isRequest row.peer row.request) .failed) row.peer row.event.threadId row.event.requestId
        .requestStatus (statusPayload "failed" "Attachment expired or unavailable") with
        ⟨hfits, e, s', hemit, hwork⟩ | ⟨hfits, e, s', hemit⟩
      · rw [fits_setWork, fits_setWork] at hfits
        rw [if_pos hfits]
        refine ⟨s', ?_, hwork.trans (setWork_setWork _ _ _ _ _)⟩
        simp only [peek, put, status, bind, EStateM.bind, hemit]
        rfl
      · rw [fits_setWork, fits_setWork] at hfits
        rw [if_neg (by simp [hfits])]
        refine ⟨e, s', ?_⟩
        simp only [peek, put, status, bind, EStateM.bind, hemit]
    | _ => exact ⟨_, _, rfl⟩

theorem transaction_ok {α : Type} {x : Tx X α} {a : α} {t : Store X} (h : x s = .ok a t) :
    s.transaction x = (.ok a, t) := by
  rw [transaction, h]

theorem ok_of_transaction {α : Type} {x : Tx X α} {a : α} {t : Store X}
    (h : s.transaction x = (.ok a, t)) : x s = .ok a t := by
  unfold transaction at h
  split at h
  next heq =>
    cases h
    exact heq
  · cases h

theorem isReady_iff {w : Work} : s.isReady jobs w = true ↔
    s.isEligible w = true ∧ hasTurn jobs (s.contextOf w.peer w.thread) w.thread = false := by
  rw [isReady, Bool.and_eq_true, Bool.not_eq_true']

theorem claim_local {row : Work} (hrow : s.selected = some row)
    (hlocal : hasLocalTurn (s.contextOf row.peer row.thread) (some jobs) = true) :
    claim b (some jobs) s = .ok none s := by
  unfold claim
  rw [show ∀ f : Store X → Tx X (Option Claimed), (peek >>= f) s = f s s from fun _ => rfl]
  simp only [hrow, hlocal, if_true]
  rfl

theorem eq_of_named (hs : UniqueWork s) (hn : ∀ w ∈ s.work, w.Named) {w row : Work} (hw : w ∈ s.work)
    (hrow : row ∈ s.work) (hpeer : row.peer = w.peer)
    (hrequest : row.event.requestId = some w.request) : w = row := by
  rw [(hn row hrow).1, Option.some.injEq] at hrequest
  apply List.inj_on_of_nodup_map hs hw hrow
  rw [Work.key, Work.key, hpeer, hrequest]

theorem canServe_of_serves (hs : UniqueWork s) (hn : ∀ w ∈ s.work, w.Named)
    (h : s.Serves b jobs) (hready : ∃ w ∈ s.work, s.isReady jobs w = true) {row : Work}
    (hrow : s.selected = some row) : s.CanServe b jobs row := by
  obtain ⟨w, hw, hwready, hdone⟩ := h hready
  obtain ⟨hmem, haccepted, -⟩ := selected_spec hrow
  obtain ⟨helig, hfree⟩ := isReady_iff.mp hwready
  have hwaccepted : w.state = .accepted := by
    simp only [isEligible, Bool.and_eq_true, decide_eq_true_eq] at helig
    exact helig.1.1.1
  have hreturns : ∃ r s', claim b (some jobs) s = .ok r s' := by
    rcases hdone with ⟨c, s', hc, -⟩ | ⟨s', hc, -⟩
    · exact ⟨_, _, ok_of_transaction hc⟩
    · exact ⟨_, _, ok_of_transaction hc⟩
  have hraises : ¬ ∃ e s', claim b (some jobs) s = .error e s' := by
    rintro ⟨e, s', he⟩
    obtain ⟨r, t, hr⟩ := hreturns
    rw [hr] at he
    cases he
  -- A row that has failed after the claim is one that the claim changed.
  have hfailed : ∀ s' : Store X, (∃ w' ∈ s'.work, w.SameAs w' ∧ w'.state = .failed) →
      s'.work = s.work → False := by
    rintro s' ⟨w', hw', hsame, hstate⟩ hwork
    rw [hwork] at hw'
    rw [List.inj_on_of_nodup_map hs hw' hw hsame.key, hwaccepted] at hstate
    cases hstate
  by_cases hlocal : hasLocalTurn (s.contextOf row.peer row.thread) (some jobs) = true
  · exfalso
    have hnone : claim b (some jobs) s = .ok none s := claim_local hrow hlocal
    rcases hdone with ⟨c, s', hc, -⟩ | ⟨s', hc, -, -, hw'⟩
    · have hok := ok_of_transaction hc
      rw [hnone] at hok
      cases hok
    · have hok := ok_of_transaction hc
      rw [hnone] at hok
      cases hok
      exact hfailed s hw' rfl
  rw [Bool.not_eq_true] at hlocal
  have hclaim := claim_selected (b := b) hrow hlocal
  unfold CanServe
  cases hatt : s.attachmentsOf b row with
  | ok attachments =>
    rw [hatt] at hclaim
    simp only at hclaim ⊢
    split_ifs at hclaim with hfits
    · obtain ⟨c, s', hc, hpeer, hrequest⟩ := hclaim
      rcases hdone with ⟨c', s'', hc', hpeer', hrequest'⟩ | ⟨s'', hc', -⟩
      · have hok := ok_of_transaction hc'
        rw [hc] at hok
        cases hok
        obtain rfl := eq_of_named hs hn hw hmem (hpeer.symm.trans hpeer')
          (hrequest.symm.trans hrequest')
        exact ⟨hfree, hfits⟩
      · have hok := ok_of_transaction hc'
        rw [hc] at hok
        cases hok
    · exact absurd hclaim hraises
  | error f =>
    rw [hatt] at hclaim
    cases f with
    | pairing code =>
      simp only at hclaim ⊢
      split_ifs at hclaim with hfits
      · obtain ⟨s', hc, hwork⟩ := hclaim
        rcases hdone with ⟨c', s'', hc', -⟩ | ⟨s'', hc', -, -, w', hw', hsame, hstate⟩
        · have hok := ok_of_transaction hc'
          rw [hc] at hok
          cases hok
        · have hok := ok_of_transaction hc'
          rw [hc] at hok
          cases hok
          rw [hwork] at hw'
          obtain ⟨v, hv, rfl⟩ := List.mem_map.mp hw'
          split_ifs at hsame hstate with hk
          · have hvw : v = w := List.inj_on_of_nodup_map hs hv hw hsame.key
            have hvrow : v = row := hs.eq_of_isRequest hv hmem hk (by simp [isRequest])
            rw [← hvrow, hvw]
            exact ⟨hfree, by rw [← hvw, hvrow]; exact hfits⟩
          · have hvw : v = w := List.inj_on_of_nodup_map hs hv hw hsame.key
            rw [hvw, hwaccepted] at hstate
            cases hstate
      · exact absurd hclaim hraises
    | _ => exact absurd hclaim hraises

theorem serves_of_canServe (hn : ∀ w ∈ s.work, w.Named) {row : Work} (hrow : s.selected = some row)
    (h : s.CanServe b jobs row) : s.Serves b jobs := by
  intro _
  obtain ⟨hmem, -⟩ := selected_spec hrow
  obtain ⟨hfree, hroom⟩ := h
  have hlocal : hasLocalTurn (s.contextOf row.peer row.thread) (some jobs) = false := by
    by_contra hc
    rw [Bool.not_eq_false] at hc
    rw [hasTurn_of_hasLocalTurn hc] at hfree
    cases hfree
  refine ⟨row, hmem, isReady_iff.mpr ⟨List.find?_some hrow, hfree⟩, ?_⟩
  have hclaim := claim_selected (b := b) hrow hlocal
  cases hatt : s.attachmentsOf b row with
  | ok attachments =>
    rw [hatt] at hclaim hroom
    simp only at hclaim hroom
    rw [if_pos hroom] at hclaim
    obtain ⟨c, s', hc, hpeer, hrequest⟩ := hclaim
    exact .inl ⟨c, s', transaction_ok hc, hpeer, hrequest.trans (hn row hmem).1⟩
  | error f =>
    rw [hatt] at hclaim hroom
    cases f with
    | pairing code =>
      simp only at hclaim hroom
      rw [if_pos hroom] at hclaim
      obtain ⟨s', hc, hwork⟩ := hclaim
      refine .inr ⟨s', transaction_ok hc, code, rfl, { row with state := .failed }, ?_,
        row.sameAs_set _, rfl⟩
      rw [hwork]
      exact List.mem_map.mpr ⟨row, hmem, by simp [isRequest]⟩
    | _ => exact absurd hroom id

theorem serves_iff (hs : UniqueWork s) (hn : ∀ w ∈ s.work, w.Named) :
    s.Serves b jobs ↔ ((∃ w ∈ s.work, s.isReady jobs w = true) →
      ∀ row, s.selected = some row → s.CanServe b jobs row) := by
  refine ⟨fun h hready row hrow => canServe_of_serves hs hn h hready hrow, fun h hready => ?_⟩
  obtain ⟨w, hw, hwready⟩ := hready
  have hsome : (s.work.find? s.isEligible).isSome = true :=
    List.find?_isSome.mpr ⟨w, hw, (isReady_iff.mp hwready).1⟩
  obtain ⟨row, hrow⟩ := Option.isSome_iff_exists.mp hsome
  exact serves_of_canServe hn hrow (h ⟨w, hw, hwready⟩ row hrow) ⟨w, hw, hwready⟩

end Store

/-- One thread does not starve another exactly where the request that the query selects can
itself be served, in every state of every run and for every set of turns. -/
theorem Office.serves_exactly {X : Type} (b : Workbench X) (handlers : Handlers X) (identity : Str)
    (rest : X) (acts : List (WorkAct X)) (jobs : List Str) :
    (run b handlers identity rest acts).store.Serves b jobs ↔
      ((∃ w ∈ (run b handlers identity rest acts).store.work,
        (run b handlers identity rest acts).store.isReady jobs w = true) →
      ∀ row, (run b handlers identity rest acts).store.selected = some row →
        (run b handlers identity rest acts).store.CanServe b jobs row) := by
  have h : (run b handlers identity rest acts).Sound := sound_run identity rest acts
  exact Store.serves_iff h.unique h.named

/-! A phone with a thread of the desktop's own and another one. -/
section Examples

def exampleBench : Workbench Unit where
  valid _ := true
  size _ := 1
  digest e := e.id
  jobDigest thread _ := thread
  uuid4 n := List.replicate n 0
  uuid5 name := name
  remoteRequests _ _ := 0
  deleteRequested _ _ _ := false
  metadata _ _ _ _ := .ok []
  nameFromMessage _ _ _ _ := .ok ()
  saveAttachments _ _ _ _ := .ok ()
  attachment _ _ _ _ := .error (.pairing "file_unavailable")
  history _ _ _ _ := []
  transcript _ _ _ := ((), true)
  shareReply _ _ := .ok ((), none)
  childThread _ _ _ _ := .error (.pairing "project_not_open")
  sha256 _ := []
  deny _ _ _ := ()
  forget _ _ := ()

def exampleHandlers : Handlers Unit where
  handle _ _ := pure []
  apart _ _ := Apart.pure []

def phone : Str := text "01234567-89ab-cdef-0123-456789abcdef"

def phonePin : Bytes := List.replicate 32 7

def threadA : Str := text "01234567-89ab-cdef-0123-456789abcde1"

def threadB : Str := text "01234567-89ab-cdef-0123-456789abcde2"

def nativeThread : Str := text "01234567-89ab-cdef-0123-456789abcde3"

def pairedPhone : List (WorkAct Unit) :=
  [.calls (.propose phone phonePin (text "controller") 10 false 0 0 []),
    .calls (.confirm phone (hexText phonePin) 5 ⟨[], []⟩),
    .calls (.acknowledge phone phonePin (text "controller")
      [(.str (text "type"), .str (text "session.ready_ack")), (.str (text "device_id"), .str phone),
        (.str (text "trust_revision"), .int 1)] 6)]

def plainContext : Record :=
  [(.str (text "provider"), .str (text "claude")), (.str (text "model"), .str (text "m"))]

def nativeContext : Record :=
  plainContext ++ [(.str (text "desktop_thread_id"), .str nativeThread),
    (.str (text "project_path"), .str (text "/p")),
    (.str (text "provider_permissions"), .dict [(.str (text "claude"), .str (text "default"))])]

def chatEvent (n : ℕ) (thread request : Str) : Received :=
  .event ⟨List.replicate n 1, some thread, some request, n, .chatSubmit,
    [(.str (text "text"), .str (text "hi")), (.str (text "attachment_ids"), .list [])]⟩

def twoThreads : List (WorkAct Unit) :=
  pairedPhone ++ [.authorizes phone threadA nativeContext, .authorizes phone threadB plainContext,
    .handles phone (chatEvent 1 threadA [1]) 7, .handles phone (chatEvent 2 threadB [2]) 7]

theorem twoThreads_selected :
    ((Office.run exampleBench exampleHandlers [] () twoThreads).store.selected.map (fun row =>
      hasTurn [nativeThread] ((Office.run exampleBench exampleHandlers [] ()
        twoThreads).store.contextOf row.peer row.thread) row.thread)) = some true ∧
    (Office.run exampleBench exampleHandlers [] () twoThreads).store.work.any
      ((Office.run exampleBench exampleHandlers [] () twoThreads).store.isReady [nativeThread]) = true := by
  decide +kernel

/-- While the desktop has a turn of its own in the first thread, the request of the second
thread is not served. -/
theorem second_thread_starves :
    ¬ (Office.run exampleBench exampleHandlers [] () twoThreads).store.Serves exampleBench
      [nativeThread] := by
  intro h
  have hsound : (Office.run exampleBench exampleHandlers [] () twoThreads).Sound :=
    Office.sound_run [] () twoThreads
  obtain ⟨hselected, hready⟩ := twoThreads_selected
  obtain ⟨row, hrow, hturn⟩ := Option.map_eq_some_iff.mp hselected
  obtain ⟨w, hw, hwready⟩ := List.any_eq_true.mp hready
  have hserve := Store.canServe_of_serves hsound.unique hsound.named h ⟨w, hw, hwready⟩ hrow
  exact absurd (hserve.1.symm.trans hturn) (by decide)

end Examples

end Raticode.Device
