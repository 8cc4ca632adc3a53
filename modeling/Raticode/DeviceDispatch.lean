import Mathlib.Data.List.Nodup
import Mathlib.Logic.Relation
import Raticode.DeviceWork

/-! Work is dispatched at most once, in whatever order requests are made, cancelled,
claimed and completed, peers are removed and paired again, and the backend restarts. -/
namespace Raticode.Device
open PyDocument Attempt

inductive WorkMoves : WorkState → WorkState → Prop
  | start : WorkMoves .accepted .running
  | withdraw : WorkMoves .accepted .cancelled
  | complete : WorkMoves .running .completed
  | fail : WorkMoves .running .failed
  | cancel : WorkMoves .running .cancelled
  | lose : WorkMoves .running .outcomeUnknown

/-- Only the state of a work row may differ. -/
structure Work.SameAs (w w' : Work) : Prop where
  peer : w'.peer = w.peer
  request : w'.request = w.request
  thread : w'.thread = w.thread
  event : w'.event = w.event
  turn : w'.turn = w.turn

theorem Work.SameAs.refl (w : Work) : w.SameAs w := ⟨rfl, rfl, rfl, rfl, rfl⟩

theorem Work.SameAs.trans {a b c : Work} (h : a.SameAs b) (h' : b.SameAs c) : a.SameAs c :=
  ⟨h'.peer.trans h.peer, h'.request.trans h.request, h'.thread.trans h.thread,
    h'.event.trans h.event, h'.turn.trans h.turn⟩

theorem Work.sameAs_set (w : Work) (state : WorkState) : w.SameAs { w with state } :=
  ⟨rfl, rfl, rfl, rfl, rfl⟩

def Work.key (w : Work) : Str × Str := (w.peer, w.request)

theorem Work.SameAs.key {w w' : Work} (h : w.SameAs w') : w'.key = w.key := by
  rw [Work.key, Work.key, h.peer, h.request]

structure Work.Later (w w' : Work) : Prop where
  same : w.SameAs w'
  moves : Relation.ReflTransGen WorkMoves w.state w'.state

theorem Work.Later.refl (w : Work) : w.Later w := ⟨.refl w, .refl⟩

theorem Work.Later.trans {a b c : Work} (h : a.Later b) (h' : b.Later c) : a.Later c :=
  ⟨h.same.trans h'.same, h.moves.trans h'.moves⟩

theorem accepted_of_moves {state state' : WorkState} (h : Relation.ReflTransGen WorkMoves state state')
    (he : state' = .accepted) : state = .accepted := by
  rcases h.cases_tail with hsame | ⟨mid, -, hlast⟩
  · rw [← hsame, he]
  · rw [he] at hlast
    cases hlast

def Work.Named (w : Work) : Prop :=
  w.event.requestId = some w.request ∧ w.event.threadId = some w.thread

theorem Work.SameAs.named {w w' : Work} (h : w.SameAs w') (hn : w.Named) : w'.Named := by
  rw [Work.Named, h.event, h.request, h.thread]
  exact hn

/-- What becomes of the table of work: every row keeps its place and what it was made of, and
of a new row `N` tells the peer and the event. -/
structure Evolves (N : Str → Envelope → Prop) (rows rows' : List Work) : Prop where
  kept : ∀ (i : ℕ) (w : Work), rows[i]? = some w → ∃ w', rows'[i]? = some w' ∧ w.Later w'
  fresh : ∀ (i : ℕ) (w' : Work), rows.length ≤ i → rows'[i]? = some w' →
    Relation.ReflTransGen WorkMoves .accepted w'.state ∧ w'.Named ∧ N w'.peer w'.event
  keys : (rows.map Work.key).Nodup → (rows'.map Work.key).Nodup

def StartsNone (rows rows' : List Work) : Prop :=
  ∀ (i : ℕ) (w' : Work), rows'[i]? = some w' → w'.state = .running →
    ∃ w, rows[i]? = some w ∧ w.state = .running ∧ w.SameAs w'

/-- No row starts running, and every row keeps its place and what it was made of. -/
structure Settles (N : Str → Envelope → Prop) (rows rows' : List Work) : Prop where
  evolves : Evolves N rows rows'
  starts : StartsNone rows rows'

namespace Evolves

variable {N : Str → Envelope → Prop}

theorem refl (rows : List Work) : Evolves N rows rows := by
  refine ⟨fun i w hw => ⟨w, hw, .refl w⟩, fun i w hi hw => ?_, id⟩
  rw [List.getElem?_eq_none hi] at hw
  cases hw

theorem trans {a b c : List Work} (h : Evolves N a b) (h' : Evolves N b c) :
    Evolves N a c := by
  refine ⟨fun i w hw => ?_, fun i w'' hi hw'' => ?_, h'.keys ∘ h.keys⟩
  · obtain ⟨w', hw', hlater⟩ := h.kept i w hw
    obtain ⟨w'', hw'', hlater'⟩ := h'.kept i w' hw'
    exact ⟨w'', hw'', hlater.trans hlater'⟩
  · rcases lt_or_ge i b.length with hlt | hge
    · obtain ⟨w', hw'⟩ : ∃ w', b[i]? = some w' := ⟨_, List.getElem?_eq_getElem hlt⟩
      obtain ⟨v, hv, hlater⟩ := h'.kept i w' hw'
      rw [hw''] at hv
      cases hv
      obtain ⟨hmoves, hnamed, hmade⟩ := h.fresh i w' hi hw'
      refine ⟨hmoves.trans hlater.moves, hlater.same.named hnamed, ?_⟩
      rw [hlater.same.peer, hlater.same.event]
      exact hmade
    · exact h'.fresh i w'' hge hw''

theorem set {rows : List Work} {which : Work → Bool} {state : WorkState}
    (h : ∀ w ∈ rows, which w = true → Relation.ReflTransGen WorkMoves w.state state) :
    Evolves N rows (rows.map (fun w => if which w then { w with state } else w)) := by
  refine ⟨fun i w hw => ?_, fun i w' hi hw' => ?_, fun hkeys => ?_⟩
  · refine ⟨_, by rw [List.getElem?_map, hw]; rfl, ?_⟩
    beta_reduce
    split_ifs with hwhich
    · exact ⟨w.sameAs_set state, h w (List.mem_of_getElem? hw) hwhich⟩
    · exact .refl w
  · rw [List.getElem?_eq_none (by simpa using hi)] at hw'
    cases hw'
  · rw [List.map_map]
    have hsame : (Work.key ∘ fun w => if which w = true then { w with state } else w) = Work.key := by
      funext w
      simp only [Function.comp_apply]
      split_ifs
      · rfl
      · rfl
    rwa [hsame]

end Evolves

namespace Settles

variable {N : Str → Envelope → Prop}

theorem refl (rows : List Work) : Settles N rows rows :=
  ⟨.refl rows, fun _ w hw hr => ⟨w, hw, hr, .refl w⟩⟩

theorem trans {a b c : List Work} (h : Settles N a b) (h' : Settles N b c) :
    Settles N a c := by
  refine ⟨h.evolves.trans h'.evolves, fun i w'' hw'' hr => ?_⟩
  obtain ⟨w', hw', hr', hsame'⟩ := h'.starts i w'' hw'' hr
  obtain ⟨w, hw, hrun, hsame⟩ := h.starts i w' hw' hr'
  exact ⟨w, hw, hrun, hsame.trans hsame'⟩

theorem of_eq {rows rows' : List Work} (h : rows' = rows) : Settles N rows rows' := by
  rw [h]
  exact refl rows

theorem set {rows : List Work} {which : Work → Bool} {state : WorkState}
    (h : ∀ w ∈ rows, which w = true → Relation.ReflTransGen WorkMoves w.state state)
    (hstate : state ≠ .running) :
    Settles N rows (rows.map (fun w => if which w then { w with state } else w)) := by
  refine ⟨.set h, fun i w' hw' hr => ?_⟩
  rw [List.getElem?_map] at hw'
  obtain ⟨w, hw, rfl⟩ := Option.map_eq_some_iff.mp hw'
  split_ifs at hr ⊢ with hwhich
  · exact absurd hr hstate
  · exact ⟨w, hw, hr, .refl w⟩

theorem insert {rows : List Work} {w : Work} (hstate : w.state = .accepted) (hnamed : w.Named)
    (hmade : N w.peer w.event) (hnew : w.key ∉ rows.map Work.key) :
    Settles N rows (rows ++ [w]) := by
  have hlast : ∀ (i : ℕ) (v : Work), rows.length ≤ i → (rows ++ [w])[i]? = some v → v = w := by
    intro i v hi hv
    rw [List.getElem?_append_right hi] at hv
    exact List.mem_singleton.mp (List.mem_of_getElem? hv)
  refine ⟨⟨fun i v hv => ⟨v, ?_, .refl v⟩, fun i v hi hv => ?_, fun hkeys => ?_⟩, fun i v hv hr => ?_⟩
  · rw [List.getElem?_append_left (List.getElem?_eq_some_iff.mp hv).1]
    exact hv
  · rw [hlast i v hi hv, hstate]
    exact ⟨.refl, hnamed, hmade⟩
  · rw [List.map_append, List.map_singleton, ← List.concat_eq_append]
    exact List.Nodup.concat hnew hkeys
  · rcases lt_or_ge i rows.length with hlt | hge
    · rw [List.getElem?_append_left hlt] at hv
      exact ⟨v, hv, hr, .refl v⟩
    · rw [hlast i v hge hv, hstate] at hr
      cases hr

end Settles

/-! What each operation does to the table of work. -/
section Operations

variable {X α β : Type} {b : Workbench X} {s : Store X} {N : Str → Envelope → Prop}

def UniqueWork (s : Store X) : Prop := (s.work.map Work.key).Nodup

def Tidy (N : Str → Envelope → Prop) (x : Tx X α) : Prop :=
  ∀ s : Store X, UniqueWork s → Wp x (fun _ s' => Settles N s.work s'.work) (fun _ _ => True) s

def Apart (x : Tx X α) : Prop :=
  ∀ s : Store X, Wp x (fun _ s' => s'.work = s.work) (fun _ _ => True) s

namespace Apart
open Store

theorem tidy {x : Tx X α} (h : Apart x) : Tidy N x :=
  fun s _ => (h s).mono (fun _ _ he => .of_eq he) (fun _ _ _ => trivial)

theorem pure (a : α) : Apart (Pure.pure a : Tx X α) := fun _ => rfl

theorem fail (e : Fault) : Apart (Attempt.fail e : Tx X α) := fun _ => trivial

theorem peek : Apart (Attempt.peek : Tx X (Store X)) := fun _ => rfl

theorem lift (x : Except Fault α) : Apart (Attempt.lift x : Tx X α) := by
  cases x with
  | ok a => exact pure a
  | error e => exact fail e

theorem bind {x : Tx X α} {f : α → Tx X β} (hx : Apart x) (hf : ∀ a, Apart (f a)) :
    Apart (x >>= f) := by
  intro s
  rw [wp_bind]
  refine (hx s).mono (fun a t ht => ?_) (fun _ _ _ => trivial)
  exact (hf a t).mono (fun _ _ hu => hu.trans ht) (fun _ _ _ => trivial)

theorem fromPairing (x : Pairing α) : Apart (Store.fromPairing x : Tx X α) := lift _

theorem peerRow (peer : Str) : Apart (Store.peerRow peer : Tx X Peer) :=
  peek.bind (fun _ => fromPairing _)

theorem trusted (peer : Str) : Apart (Store.trusted peer : Tx X Unit) := by
  refine (peerRow peer).bind (fun row => ?_)
  split
  · exact fail _
  · exact pure _

theorem draw (d : Desktop X) : Apart (Store.draw d) := fun _ => rfl

theorem nextOutboundSequence (d : Desktop X) (peer : Str) :
    Apart (Store.nextOutboundSequence d peer) := fun _ => rfl

theorem emit (d : Desktop X) (peer : Str) (thread request : Option Str) (kind : Kind)
    (payload : Record) : Apart (Store.emit d peer thread request kind payload) := by
  refine peek.bind (fun s => ?_)
  split
  · exact fail _
  refine (draw d).bind (fun id => (nextOutboundSequence d peer).bind (fun sequence => ?_))
  simp only
  split
  · exact fail _
  · split
    · exact fail _
    · exact fun _ => rfl

theorem status (d : Desktop X) (peer : Str) (thread request : Option Str) (status detail : String) :
    Apart (Store.status d peer thread request status detail) := emit d peer thread request _ _

theorem emitJob (peer : Str) (event : Envelope) (job : Value) (state : Str) (revision : ℤ)
    (detail : String) (usage : Option Value) :
    Apart (Store.emitJob b peer event job state revision detail usage) := emit _ _ _ _ _ _

theorem pending (peer : Str) (after : ℤ) (limit : ℕ) :
    Apart (Store.pending peer after limit : Tx X (List Envelope)) :=
  (trusted peer).bind (fun _ => peek.bind (fun _ => pure _))

theorem needValue (record : Record) (name : String) :
    Apart (Store.needValue record name : Tx X Value) := by
  unfold Store.needValue
  split
  · exact pure _
  · exact fail _

theorem doIf (condition : Bool) {x : Tx X Unit} (hx : Apart x) : Apart (Store.doIf condition x) := by
  unfold Store.doIf
  split
  · exact hx
  · exact pure _

end Apart

theorem UniqueWork.eq_of_isRequest (h : UniqueWork s) {w w' : Work} {peer request : Str}
    (hw : w ∈ s.work) (hw' : w' ∈ s.work) (hk : Store.isRequest peer request w = true)
    (hk' : Store.isRequest peer request w' = true) : w = w' := by
  simp only [Store.isRequest, Bool.and_eq_true, decide_eq_true_eq] at hk hk'
  apply List.inj_on_of_nodup_map h hw hw'
  rw [Work.key, Work.key, hk.1, hk.2, hk'.1, hk'.2]

theorem cancelled_of_open {w : Work} (h : Store.isOpen w = true) :
    Relation.ReflTransGen WorkMoves w.state .cancelled := by
  simp only [Store.isOpen, Bool.or_eq_true, decide_eq_true_eq] at h
  rcases h with he | he
  · rw [he]
    exact .single .withdraw
  · rw [he]
    exact .single .cancel

/-- The event of the row that `spawn_thread` makes: the message of the child's conversation. -/
def Store.Spawned (b : Workbench X) (s : Store X) (peer origin : Str)
    (action : Record) (maker : Str) (event : Envelope) : Prop :=
  maker = peer ∧ event.kind = .chatSubmit ∧ ∃ row child, s.workOf peer origin = some row ∧
    b.childThread s peer (s.contextOf peer row.thread) action = .ok child ∧
    event.threadId = some child.thread ∧ event.payload = child.payload

namespace Tidy
open Store

theorem bind {x : Tx X α} {f : α → Tx X β} (hx : Tidy N x) (hf : ∀ a, Tidy N (f a)) :
    Tidy N (x >>= f) := by
  intro s hs
  rw [wp_bind]
  refine (hx s hs).mono (fun a t ht => ?_) (fun _ _ _ => trivial)
  exact (hf a t (ht.evolves.keys hs)).mono (fun _ _ hu => ht.trans hu) (fun _ _ _ => trivial)

theorem peek {f : Store X → Tx X β}
    (hf : ∀ s, UniqueWork s → Wp (f s) (fun _ s' => Settles N s.work s'.work) (fun _ _ => True) s) :
    Tidy N (Attempt.peek >>= f) := by
  intro s hs
  rw [wp_bind, wp_peek]
  exact hf s hs

theorem rest {s t : Store X} {x : Tx X β} (ht : Settles N s.work t.work) (hx : Apart x) :
    Wp x (fun _ s' => Settles N s.work s'.work) (fun _ _ => True) t := by
  refine (hx t).mono (fun _ u hu => ?_) (fun _ _ _ => trivial)
  rw [hu]
  exact ht

theorem put {s t u : Store X} {f : Unit → Tx X β} (ht : Settles N s.work t.work) (hf : Apart (f ())) :
    Wp (Attempt.put t >>= f) (fun _ s' => Settles N s.work s'.work) (fun _ _ => True) u := by
  rw [wp_bind, wp_put]
  exact rest ht hf

theorem cancel_found (hs : UniqueWork s) {w : Work} {peer request : Str} (hw : w ∈ s.work)
    (hk : isRequest peer request w = true) (ho : isOpen w = true) :
    Settles N s.work (s.setWork (isRequest peer request) .cancelled).work := by
  refine Settles.set (fun v hv hkv => ?_) (by decide)
  rw [hs.eq_of_isRequest hv hw hkv hk]
  exact cancelled_of_open ho

theorem found {rows : List Work} {peer request thread : Str} {w : Work}
    (h : rows.find? (fun w => isRequest peer request w && decide (w.thread = thread)) = some w) :
    w ∈ rows ∧ isRequest peer request w = true := by
  have hp := List.find?_some h
  rw [Bool.and_eq_true] at hp
  exact ⟨List.mem_of_find?_eq_some h, hp.1⟩

theorem isRequest_self {peer request : Str} {w : Work} (h : isRequest peer request w = true) :
    isRequest peer w.request w = true := by
  simp only [isRequest, Bool.and_eq_true, decide_eq_true_eq] at h ⊢
  exact ⟨h.1, trivial⟩

theorem getJob (peer thread : Str) (event : Envelope) : Tidy N (Store.getJob b peer thread event) := by
  refine (Apart.needValue _ _).tidy.bind (fun job => peek (fun s hs => ?_))
  rw [wp_bind]
  refine (Apart.peerRow peer s).mono (fun row t ht => ?_) (fun _ _ _ => trivial)
  simp only
  split
  · exact trivial
  next w hw =>
    obtain ⟨j, -, hj⟩ := Option.bind_eq_some_iff.mp hw
    obtain ⟨hmem, hk⟩ := found hj
    split_ifs with hrole hcancel
    · exact trivial
    · rw [Bool.and_eq_true] at hcancel
      exact put (cancel_found hs hmem (isRequest_self hk) hcancel.2)
        ((Apart.emitJob _ _ _ _ _ _ _).bind (fun _ => Apart.pure _))
    · exact rest (.of_eq ht) ((Apart.emitJob _ _ _ _ _ _ _).bind (fun _ => Apart.pure _))

theorem cancelRequest (peer thread request : Str) (event : Envelope) :
    Tidy N (Store.cancelRequest b peer thread request event) := by
  refine peek (fun s hs => ?_)
  split
  · exact trivial
  next w hw =>
    obtain ⟨hmem, hk⟩ := found hw
    split_ifs with ho
    · exact put (cancel_found hs hmem hk ho)
        ((Apart.status _ _ _ _ _ _).bind (fun _ => Apart.pure _))
    · exact rest (.refl _) (Apart.pending _ _ _)

theorem submitJob (peer thread request : Str) (event : Envelope) :
    Tidy N (Store.submitJob b peer thread request event) := by
  refine peek (fun s hs => ?_)
  rw [wp_bind]
  refine (Apart.peerRow peer s).mono (fun row t ht => ?_) (fun _ _ _ => trivial)
  rw [wp_bind]
  refine (Apart.needValue _ _ t).mono (fun job u hu => ?_) (fun _ _ _ => trivial)
  have hsame : u.work = s.work := hu.trans ht
  split
  · exact rest (.of_eq hsame) ((Apart.emitJob _ _ _ _ _ _ _).bind (fun _ => Apart.pure _))
  · split
    · dsimp only
      split
      · exact trivial
      · exact rest (.of_eq hsame) ((Apart.emitJob _ _ _ _ _ _ _).bind (fun _ => Apart.pure _))
    · dsimp only
      split
      · exact put (.refl _) (Apart.pure _)
      · exact trivial

theorem insertWork {w : Work} (hstate : w.state = .accepted) (hnamed : w.Named)
    (hmade : N w.peer w.event) : Tidy N (Store.insertWork w : Tx X Unit) := by
  refine peek (fun s hs => ?_)
  split
  · exact trivial
  next hnew =>
    refine Settles.insert hstate hnamed hmade (fun hm => hnew ?_)
    obtain ⟨v, hv, hkey⟩ := List.mem_map.mp hm
    refine List.any_eq_true.mpr ⟨v, hv, ?_⟩
    simp only [Work.key, Prod.mk.injEq] at hkey
    simp [isRequest, hkey.1, hkey.2]

theorem replaced {f : Store X → Except Fault X} :
    Apart (do
      let s ← Attempt.peek
      let rest ← Attempt.lift (f s)
      Attempt.put { s with rest } : Tx X Unit) := by
  intro s
  rw [wp_bind, wp_peek, wp_bind, wp_lift]
  exact ⟨fun _ _ => rfl, fun _ _ => trivial⟩

theorem submit {peer thread request : Str} {event : Envelope} (hthread : event.threadId = some thread)
    (hrequest : event.requestId = some request) (hmade : N peer event) :
    Tidy N (Store.submit b peer thread request event) := by
  refine peek (fun s hs => ?_)
  split
  · exact rest (.refl _) ((Apart.emit _ _ _ _ _ _).bind (fun _ => Apart.pure _))
  split
  · split
    · exact trivial
    · exact rest (.refl _) (Apart.pending _ _ _)
  · rw [wp_bind, wp_lift]
    refine ⟨fun attachments _ => ?_, fun _ _ => trivial⟩
    split
    · exact trivial
    · refine ((Apart.draw _).tidy.bind (fun turn => (insertWork rfl ⟨hrequest, hthread⟩ hmade).bind (fun _ => ?_))) s hs
      refine ((Apart.doIf _ replaced).bind (fun _ => (Apart.doIf _ replaced).bind (fun _ => ?_))).tidy
      unfold answerAccepted
      split
      · exact (Apart.needValue _ _).bind (fun job =>
          (Apart.emitJob _ _ _ _ _ _ _).bind (fun _ => Apart.pure _))
      · exact (Apart.emit _ _ _ _ _ _).bind (fun _ => Apart.pure _)

theorem workBody {other : Str → Envelope → Tx X (List Envelope)}
    (hother : ∀ peer event, Apart (other peer event)) {peer : Str} {event : Envelope}
    (hmade : N peer event) : Tidy N (Store.workBody b other peer event) := by
  unfold Store.workBody
  split
  · exact getJob _ _ _
  · exact getJob _ _ _
  · exact cancelRequest _ _ _ _
  next hthread hrequest => exact submit hthread hrequest hmade
  next hthread hrequest =>
    refine (submitJob _ _ _ _).bind (fun answers => ?_)
    split
    · exact (Apart.pure _).tidy
    · exact submit hthread hrequest hmade
  · exact (hother peer event).tidy

theorem recordInbound (peer : Str) (event : Envelope) (digest : Str) (now : ℚ) :
    Apart (Store.recordInbound peer event digest now : Tx X Unit) := by
  intro s
  unfold Store.recordInbound
  rw [wp_bind, wp_peek]
  simp only
  split
  · rw [wp_bind, wp_lift]
    exact ⟨fun _ _ => rfl, fun _ _ => trivial⟩
  · rw [wp_bind, wp_lift]
    exact ⟨fun _ _ => rfl, fun _ _ => trivial⟩

theorem isKnown (peer : Str) (event : Envelope) (digest : Str) :
    Apart (Store.isKnown peer event digest : Tx X Bool) := by
  refine Apart.peek.bind (fun s => ?_)
  split
  · split
    · exact Apart.fail _
    · exact Apart.pure _
  · split
    · exact Apart.fail _
    · split
      · exact Apart.fail _
      · exact Apart.pure _

theorem handleBody {body : Str → Envelope → Tx X (List Envelope)} {peer : Str} {event : Envelope}
    (hbody : Tidy N (body peer event)) (digest : Str) (now : ℚ) :
    Tidy N (Store.handleBody body peer event digest now) := by
  refine (Apart.trusted peer).tidy.bind (fun _ => (isKnown peer event digest).tidy.bind (fun known => ?_))
  split
  · exact (Apart.pending _ _ _).tidy
  · exact (recordInbound _ _ _ _).tidy.bind (fun _ => hbody)

theorem wp_addressed {reason : String} {x : Tx X (List Envelope)}
    {Q : List Envelope → Store X → Prop} {E : Fault → Store X → Prop} {s : Store X}
    (hx : Wp x Q E s) (he : ∀ s', E .validation s' → E (.pairing reason) s') :
    Wp (addressed reason x) Q E s := by
  unfold Wp addressed at *
  cases hr : x s with
  | ok a s' =>
    rw [hr] at hx
    exact hx
  | error e s' =>
    rw [hr] at hx
    cases e with
    | validation => exact he s' hx
    | _ => exact hx

theorem answerError (d : Desktop X) (peer : Str) (thread request : Option Str) (reason : String) :
    Apart (Store.answerError d peer thread request reason) := by
  intro s
  have hemit := ((Apart.emit d peer thread request .error
    (errorPayload (refusal reason).1 (refusal reason).2)).bind
    (fun event => Apart.pure [event])) s
  exact wp_addressed hemit (fun _ _ => trivial)

theorem refuseBody (d : Desktop X) (peer : Str) (event : Envelope) (digest : Str) (reason : String)
    (now : ℚ) : Apart (Store.refuseBody d peer event digest reason now) := by
  refine (Apart.trusted peer).bind (fun _ => ?_)
  split
  · exact answerError _ _ _ _ _
  · refine Apart.peek.bind (fun s => ?_)
    split
    · exact Apart.pending _ _ _
    · exact (recordInbound _ _ _ _).bind (fun _ => answerError _ _ _ _ _)

theorem refuseMalformed (d : Desktop X) (peer : Str) (answer : Option (Option Str × Option Str)) :
    Apart (Store.refuseMalformed d peer answer) := by
  refine (Apart.trusted peer).bind (fun _ => ?_)
  split
  · exact Apart.fail _
  · exact answerError _ _ _ _ _

theorem emitParts (peer request : Str) (event : Envelope) (parts : List (ℕ × Str × Bool)) :
    Apart (Store.emitParts b peer request event parts) := by
  induction parts with
  | nil => exact Apart.pure _
  | cons part parts ih => exact (Apart.emit _ _ _ _ _ _).bind (fun _ => ih)

theorem sendSnapshot (row : Work) (shared : Option (Record × Record)) :
    Apart (Store.sendSnapshot b row shared) := by
  cases shared with
  | none => exact Apart.pure _
  | some shared =>
    obtain ⟨context, snapshot⟩ := shared
    intro s
    unfold Store.sendSnapshot
    rw [wp_bind, wp_peek, wp_bind, wp_put]
    exact ((Apart.emit _ _ _ _ _ _).bind (fun _ => Apart.pure _)) _

theorem sendReply (row : Work) (reply : Str) : Apart (Store.sendReply b row reply) := by
  intro s
  unfold Store.sendReply
  rw [wp_bind, wp_peek, wp_bind, wp_lift]
  refine ⟨fun shared _ => ?_, fun _ _ => trivial⟩
  rw [wp_bind, wp_put]
  exact ((sendSnapshot row shared.2).bind (fun _ => emitParts _ _ _ _)) _

theorem reportJob (row : Work) (state : WorkState) (detail : String) (usage : Option Value) :
    Apart (Store.reportJob b row state detail usage) :=
  (Apart.needValue _ _).bind (fun _ => (Apart.emitJob _ _ _ _ _ _ _).bind (fun _ => Apart.pure _))

theorem keepTranscript (row : Work) (reply : Str) (error : Option String) :
    Apart (Store.keepTranscript b row reply error) := by
  cases error with
  | some error => exact Apart.pure _
  | none => exact fun _ => rfl

theorem reportEnding (row : Work) (error : Option String) (usage : Option Value) :
    Apart (Store.reportEnding b row error usage) :=
  (Apart.doIf _ (reportJob _ _ _ _)).bind (fun _ =>
    (Apart.emit _ _ _ _ _ _).bind (fun _ => Apart.pure _))

theorem ending_moves (error : Option String) :
    Relation.ReflTransGen WorkMoves .running (ending error).1 ∧ (ending error).1 ≠ .running := by
  unfold ending
  split
  · exact ⟨.single .complete, by decide⟩
  · exact ⟨.single .cancel, by decide⟩
  · exact ⟨.single .fail, by decide⟩

theorem complete (peer request reply : Str) (error : Option String) (usage : Option Value) :
    Tidy N (Store.complete b peer request reply error usage) := by
  refine (Apart.trusted peer).tidy.bind (fun _ => peek (fun s hs => ?_))
  split
  · exact trivial
  next row hrow =>
    have hmem : row ∈ s.work := List.mem_of_find?_eq_some hrow
    have hk : isRequest row.peer row.request row = true := by simp [isRequest]
    split_ifs with hcancelled hrunning
    · exact rest (.refl _) ((Apart.doIf _ (reportJob _ _ _ _)).bind (fun _ =>
        (Apart.status _ _ _ _ _ _).bind (fun _ => Apart.pure _)))
    · exact trivial
    · rw [not_not] at hrunning
      unfold finishRunning
      rw [wp_bind]
      refine (keepTranscript row reply error s).mono (fun error' t ht => ?_) (fun _ _ _ => trivial)
      rw [wp_bind]
      refine (Apart.doIf _ (sendReply row reply) t).mono (fun _ u hu => ?_) (fun _ _ _ => trivial)
      rw [wp_bind]
      refine (reportEnding row error' usage u).mono (fun _ v hv => ?_) (fun _ _ _ => trivial)
      rw [wp_bind, wp_peek, wp_put]
      have hwork : v.work = s.work := hv.trans (hu.trans ht)
      obtain ⟨hmoves, hnot⟩ := ending_moves error'
      rw [setWork, hwork]
      refine Settles.set (fun w hw hkw => ?_) hnot
      rw [hs.eq_of_isRequest hw hmem hkw hk, hrunning]
      exact hmoves

theorem trusted_stays (peer : Str) (s : Store X) :
    Wp (Store.trusted peer) (fun _ s' => s' = s) (fun _ _ => True) s := by
  unfold Store.trusted Store.peerRow Store.fromPairing
  rw [wp_bind, wp_bind, wp_peek, wp_lift]
  refine ⟨fun row _ => ?_, fun _ _ => trivial⟩
  split
  · exact trivial
  · rfl

theorem spawnThread (peer origin : Str) (action : Record) (hs : UniqueWork s) :
    Wp (Store.spawnThread b peer origin action)
      (fun _ s' => Settles (s.Spawned b peer origin action) s.work s'.work) (fun _ _ => True) s := by
  unfold Store.spawnThread
  rw [wp_bind]
  refine (trusted_stays peer s).mono (fun _ t ht => ?_) (fun _ _ _ => trivial)
  subst ht
  rw [wp_bind, wp_peek]
  split
  · exact trivial
  split
  · exact trivial
  next row hrow =>
  simp only
  split
  · exact trivial
  split
  · exact .refl _
  rw [wp_bind, wp_lift]
  refine ⟨fun child hchild => ?_, fun _ _ => trivial⟩
  split
  · exact trivial
  split
  · exact trivial
  split
  · exact trivial
  rw [wp_bind, wp_put]
  have hinsert : Tidy (t.Spawned b peer origin action) (do
      let id ← draw b.toDesktop
      let turn ← draw b.toDesktop
      Store.insertWork ⟨peer, b.uuid5 (text "raticode-child:" ++ origin), child.thread,
        ⟨id, some child.thread, some (b.uuid5 (text "raticode-child:" ++ origin)), 0, .chatSubmit,
          child.payload⟩, .accepted, turn⟩ : Tx X Unit) :=
    (Apart.draw _).tidy.bind (fun id => (Apart.draw _).tidy.bind (fun turn =>
      insertWork rfl ⟨rfl, rfl⟩ ⟨rfl, rfl, row, child, hrow, hchild, rfl, rfl⟩))
  exact hinsert _ hs

theorem revokeThreadTree (peer thread : Str) : Tidy N (Store.revokeThreadTree peer thread : Tx X Unit) := by
  refine peek (fun s hs => ?_)
  simp only
  refine Settles.set (fun w _ hw => ?_) (by decide)
  simp only [Bool.and_eq_true] at hw
  exact cancelled_of_open hw.2

theorem authorize (peer thread : Str) (context : Record) :
    Tidy N (Store.authorize peer thread context : Tx X Unit) := by
  refine (Apart.fromPairing _).tidy.bind (fun _ => ?_)
  split
  · exact (Apart.fail _).tidy
  · exact (Apart.trusted peer).tidy.bind (fun _ => (revokeThreadTree peer thread).bind (fun _ =>
      peek (fun s _ => Settles.refl _)))

theorem revokeGrant (peer thread : Str) : Tidy N (Store.revokeGrant b peer thread) := by
  refine peek (fun s hs => ?_)
  rw [wp_bind, wp_put]
  exact revokeThreadTree peer thread _ hs

theorem removePeer (peer : Str) (revokedOnly : Bool) : Tidy N (Store.removePeer b peer revokedOnly) := by
  refine peek (fun s hs => ?_)
  rw [wp_bind]
  refine (Apart.fromPairing _ s).mono (fun registry t ht => ?_) (fun _ _ _ => trivial)
  refine Settles.set (fun w _ hw => ?_) (by decide)
  rw [Bool.and_eq_true] at hw
  exact cancelled_of_open hw.2

theorem recoverAll (rows : List Work) : Apart (Store.recoverAll b rows) := by
  induction rows with
  | nil => exact Apart.pure _
  | cons w rows ih => exact (Apart.status _ _ _ _ _ _).bind (fun _ => ih)

theorem recover : Tidy N (Store.recover b) := by
  refine peek (fun s hs => ?_)
  rw [wp_bind]
  refine (recoverAll _ s).mono (fun _ t ht => ?_) (fun _ _ _ => trivial)
  rw [wp_bind, wp_peek, wp_put, setWork, ht]
  refine Settles.set (fun w _ hw => ?_) (by decide)
  rw [decide_eq_true_eq] at hw
  rw [hw]
  exact .single .lose

end Tidy

theorem setWork_setWork (s : Store X) (peer request : Str) (state state' : WorkState) :
    ((s.setWork (Store.isRequest peer request) state).setWork (Store.isRequest peer request)
      state').work = (s.setWork (Store.isRequest peer request) state').work := by
  simp only [Store.setWork, List.map_map]
  refine List.map_congr_left (fun w _ => ?_)
  simp only [Function.comp_apply]
  by_cases h : Store.isRequest peer request w = true
  · have h' : Store.isRequest peer request { w with state } = true := h
    simp only [h, h', if_true]
  · simp only [h, Bool.false_eq_true, if_false]

theorem selected_spec {row : Work} (h : s.selected = some row) :
    row ∈ s.work ∧ row.state = .accepted ∧ s.isActive row.peer = true ∧
      (s.grantOf row.peer row.thread).isSome = true ∧ s.isBusy row.thread = false := by
  have hp := List.find?_some h
  simp only [Store.isEligible, Bool.and_eq_true, decide_eq_true_eq, Bool.not_eq_true'] at hp
  exact ⟨List.mem_of_find?_eq_some h, hp.1.1.1, hp.1.1.2, hp.1.2, hp.2⟩

theorem claim_spec (jobs : Option (List Str)) (hs : UniqueWork s) :
    Wp (Store.claim b jobs)
      (fun r s' => match r with
        | none => Settles N s.work s'.work
        | some c => ∃ row, s.selected = some row ∧
            Store.hasLocalTurn (s.contextOf row.peer row.thread) jobs = false ∧
            s'.work = (s.setWork (Store.isRequest row.peer row.request) .running).work ∧
            c.peer = row.peer ∧ c.context = s.contextOf row.peer row.thread ∧
            c.event = { row.event with payload := withText row.event.payload } ∧
            c.turn = row.turn)
      (fun _ _ => True) s := by
  unfold Store.claim
  rw [wp_bind, wp_peek]
  split
  · exact Settles.refl _
  next row hrow =>
    obtain ⟨hmem, haccepted, -⟩ := selected_spec hrow
    have hself : Store.isRequest row.peer row.request row = true := by simp [Store.isRequest]
    have honly : ∀ w ∈ s.work, Store.isRequest row.peer row.request w = true → w.state = .accepted := by
      intro w hw hk
      rw [hs.eq_of_isRequest hw hmem hk hself]
      exact haccepted
    simp only
    split
    · exact Settles.refl _
    next hlocal =>
      rw [wp_bind, wp_put]
      split
      · rw [wp_bind, wp_peek, wp_bind, wp_put, wp_bind]
        refine (Apart.status _ _ _ _ _ _ _).mono (fun _ t ht => ?_) (fun _ _ _ => trivial)
        rw [wp_pure, ht, setWork_setWork]
        refine Settles.set (fun w hw hk => ?_) (by decide)
        rw [honly w hw hk]
        exact (Relation.ReflTransGen.single .start).tail .fail
      · trivial
      · rw [wp_bind]
        refine (Apart.status _ _ _ _ _ _ _).mono (fun _ t ht => ?_) (fun _ _ _ => trivial)
        rw [wp_bind, wp_peek, wp_pure]
        exact ⟨row, hrow, by simpa using hlocal, ht, rfl, rfl, rfl, rfl⟩

end Operations

/-! Every run. -/

structure Handlers (X : Type) where
  handle : Str → Envelope → Tx X (List Envelope)
  apart : ∀ peer event, Apart (handle peer event)

structure Dispatched (X : Type) where
  claimed : Claimed
  before : Store X

def Dispatched.key {X : Type} (e : Dispatched X) : Str × Option Str :=
  (e.claimed.peer, e.claimed.event.requestId)

structure Office (X : Type) where
  store : Store X
  log : List (Dispatched X)

inductive WorkAct (X : Type) where
  | handles (peer : Str) (received : Received) (now : ℚ)
  | spawns (peer origin : Str) (action : Record)
  | claims (jobs : Option (List Str))
  | completes (peer request reply : Str) (error : Option String) (usage : Option Value)
  | authorizes (peer thread : Str) (context : Record)
  | revokesGrant (peer thread : Str)
  | removes (peer : Str) (revokedOnly : Bool)
  | calls (op : Op)
  | restarts
  | works (tables : Store X)

/-- What an act makes a row of, whose row it is and with what event: the event that is
handled, or the message of a child. -/
def WorkAct.Makes {X : Type} (b : Workbench X) (s : Store X) : WorkAct X → Str → Envelope → Prop
  | .handles peer (.event event) _, maker, taken => maker = peer ∧ taken = event
  | .spawns peer origin action, maker, taken => s.Spawned b peer origin action maker taken
  | _, _, _ => False

namespace Office
variable {X : Type} (b : Workbench X) (handlers : Handlers X)

def commits {α : Type} (o : Office X) (x : Tx X α) : Office X :=
  { o with store := (o.store.transaction x).2 }

def claims (o : Office X) (jobs : Option (List Str)) : Office X :=
  match o.store.transaction (Store.claim b jobs) with
  | (.ok (some claimed), store) => ⟨store, o.log ++ [⟨claimed, o.store⟩]⟩
  | (_, store) => { o with store }

def act (o : Office X) : WorkAct X → Office X
  | .handles peer received now =>
    { o with store := (o.store.handle b.toDesktop (Store.workBody b handlers.handle) peer received now).2 }
  | .spawns peer origin action => o.commits (Store.spawnThread b peer origin action)
  | .claims jobs => o.claims b jobs
  | .completes peer request reply error usage =>
    o.commits (Store.complete b peer request reply error usage)
  | .authorizes peer thread context => o.commits (Store.authorize peer thread context)
  | .revokesGrant peer thread => o.commits (Store.revokeGrant b peer thread)
  | .removes peer revokedOnly => o.commits (Store.removePeer b peer revokedOnly)
  | .calls op => { o with store := { o.store with registry := o.store.registry.after op } }
  | .restarts => o.commits (Store.recover b)
  | .works tables => { o with store := { tables with work := o.store.work } }

def run (identity : Str) (rest : X) (acts : List (WorkAct X)) : Office X :=
  acts.foldl (act b handlers) ⟨.empty identity rest, []⟩

end Office

section Steps

variable {X α : Type} {b : Workbench X} {handlers : Handlers X} {s : Store X}
  {N : Str → Envelope → Prop}

theorem settles_of_wp {x : Tx X α}
    (h : Wp x (fun _ s' => Settles N s.work s'.work) (fun _ _ => True) s) :
    Settles N s.work (s.transaction x).2.work := by
  unfold Store.transaction
  unfold Wp at h
  cases hr : x s with
  | ok a s' =>
    rw [hr] at h
    exact h
  | error e s' => exact .refl _

theorem settles_transaction {x : Tx X α} (hx : Tidy N x) (hs : UniqueWork s) :
    Settles N s.work (s.transaction x).2.work := settles_of_wp (hx s hs)

theorem settles_handle (hs : UniqueWork s) (peer : Str) (received : Received) (now : ℚ) :
    Settles (WorkAct.Makes b s (.handles peer received now)) s.work
      (s.handle b.toDesktop (Store.workBody b handlers.handle) peer received now).2.work := by
  unfold Store.handle
  split
  · exact settles_transaction (Tidy.refuseMalformed _ _ _).tidy hs
  next event =>
    have hbody : Settles (WorkAct.Makes b s (.handles peer (.event event) now)) s.work
        (s.transaction (Store.handleBody
        (Store.workBody b handlers.handle) peer event (b.digest event) now)).2.work :=
      settles_transaction (Tidy.handleBody (Tidy.workBody handlers.apart ⟨rfl, rfl⟩) _ _) hs
    have hrefuse : ∀ (t : Store X) (reason : String),
        Settles (WorkAct.Makes b s (.handles peer (.event event) now)) s.work t.work →
        Settles (WorkAct.Makes b s (.handles peer (.event event) now)) s.work (t.transaction (Store.refuseBody b.toDesktop peer event (b.digest event)
          reason now)).2.work := fun t reason ht =>
      ht.trans (settles_transaction (Tidy.refuseBody _ _ _ _ _ _).tidy (ht.evolves.keys hs))
    split
    next code t heq =>
      rw [heq] at hbody
      split
      · exact hbody
      · exact hrefuse _ _ hbody
    next t heq =>
      rw [heq] at hbody
      exact hrefuse _ _ hbody
    next t heq =>
      rw [heq] at hbody
      exact hrefuse _ _ hbody
    · exact hbody

/-- Each request has one row, each thread at most one running row, and the log names a request
once, with the event its row holds. -/
structure Office.Sound (o : Office X) : Prop where
  unique : UniqueWork o.store
  named : ∀ w ∈ o.store.work, w.Named
  single : ∀ w ∈ o.store.work, ∀ w' ∈ o.store.work, w.state = .running → w'.state = .running →
    w.thread = w'.thread → w.key = w'.key
  once : (o.log.map Dispatched.key).Nodup
  past : ∀ e ∈ o.log, ∃ w ∈ o.store.work, e.key = (w.peer, some w.request) ∧ w.state ≠ .accepted ∧
    e.claimed.event = { w.event with payload := withText w.event.payload }

theorem Evolves.named {rows rows' : List Work} (h : Evolves N rows rows')
    (hn : ∀ w ∈ rows, w.Named) : ∀ w ∈ rows', w.Named := by
  intro w' hw'
  obtain ⟨i, hi⟩ := List.mem_iff_getElem?.mp hw'
  rcases lt_or_ge i rows.length with hlt | hge
  · obtain ⟨w, hw⟩ : ∃ w, rows[i]? = some w := ⟨_, List.getElem?_eq_getElem hlt⟩
    obtain ⟨v, hv, hlater⟩ := h.kept i w hw
    rw [hi] at hv
    cases hv
    exact hlater.same.named (hn w (List.mem_of_getElem? hw))
  · exact (h.fresh i w' hge hi).2.1

theorem Evolves.past {rows rows' : List Work} (h : Evolves N rows rows') {e : Dispatched X}
    (he : ∃ w ∈ rows, e.key = (w.peer, some w.request) ∧ w.state ≠ .accepted ∧
      e.claimed.event = { w.event with payload := withText w.event.payload }) :
    ∃ w ∈ rows', e.key = (w.peer, some w.request) ∧ w.state ≠ .accepted ∧
      e.claimed.event = { w.event with payload := withText w.event.payload } := by
  obtain ⟨w, hw, hkey, hstate, hevent⟩ := he
  obtain ⟨i, hi⟩ := List.mem_iff_getElem?.mp hw
  obtain ⟨w', hw', hlater⟩ := h.kept i w hi
  refine ⟨w', List.mem_of_getElem? hw', ?_, ?_, ?_⟩
  · rw [hlater.same.peer, hlater.same.request]
    exact hkey
  · exact fun hc => hstate (accepted_of_moves hlater.moves hc)
  · rw [hlater.same.event]
    exact hevent

theorem Office.Sound.settles {o o' : Office X} (h : o.Sound) (hlog : o'.log = o.log)
    (hs : Settles N o.store.work o'.store.work) : o'.Sound := by
  refine ⟨hs.evolves.keys h.unique, hs.evolves.named h.named, ?_, ?_, ?_⟩
  · intro w hw w' hw' hr hr' hthread
    obtain ⟨i, hi⟩ := List.mem_iff_getElem?.mp hw
    obtain ⟨j, hj⟩ := List.mem_iff_getElem?.mp hw'
    obtain ⟨v, hv, hrv, hsame⟩ := hs.starts i w hi hr
    obtain ⟨v', hv', hrv', hsame'⟩ := hs.starts j w' hj hr'
    rw [hsame.key, hsame'.key]
    refine h.single v (List.mem_of_getElem? hv) v' (List.mem_of_getElem? hv') hrv hrv' ?_
    rw [← hsame.thread, ← hsame'.thread]
    exact hthread
  · rw [hlog]
    exact h.once
  · intro e he
    rw [hlog] at he
    exact hs.evolves.past (h.past e he)

theorem evolves_claimed (hs : UniqueWork s) {row : Work} (hrow : s.selected = some row) :
    Evolves N s.work (s.setWork (Store.isRequest row.peer row.request) .running).work := by
  obtain ⟨hmem, haccepted, -⟩ := selected_spec hrow
  refine Evolves.set (fun w hw hk => ?_)
  rw [hs.eq_of_isRequest hw hmem hk (by simp [Store.isRequest]), haccepted]
  exact .single .start

theorem Office.Sound.claimed {o : Office X} (h : o.Sound) {row : Work}
    (hrow : o.store.selected = some row) {c : Claimed} {t : Store X}
    (ht : t.work = (o.store.setWork (Store.isRequest row.peer row.request) .running).work)
    (hpeer : c.peer = row.peer)
    (hevent : c.event = { row.event with payload := withText row.event.payload }) :
    Office.Sound ⟨t, o.log ++ [⟨c, o.store⟩]⟩ := by
  obtain ⟨hmem, haccepted, -, -, hbusy⟩ := selected_spec hrow
  have hevolves := evolves_claimed (N := fun _ _ => False) h.unique hrow
  have hkey : Dispatched.key ⟨c, o.store⟩ = (row.peer, some row.request) := by
    rw [Dispatched.key, hpeer, hevent]
    exact congrArg _ (h.named row hmem).1
  have hself : Store.isRequest row.peer row.request row = true := by simp [Store.isRequest]
  -- Whatever runs now ran before, or is the request that was selected.
  have hruns : ∀ w ∈ t.work, w.state = .running → w.key = row.key ∨
      ∃ v ∈ o.store.work, v.state = .running ∧ v.SameAs w := by
    intro w hw hr
    rw [ht] at hw
    obtain ⟨v, hv, rfl⟩ := List.mem_map.mp hw
    split_ifs at hr ⊢ with hk
    · rw [h.unique.eq_of_isRequest hv hmem hk hself]
      exact .inl rfl
    · exact .inr ⟨v, hv, hr, .refl v⟩
  have hthread : ∀ w ∈ t.work, w.key = row.key → w.thread = row.thread := by
    intro w hw hwk
    rw [ht] at hw
    obtain ⟨v, hv, rfl⟩ := List.mem_map.mp hw
    have hvk : v.key = row.key := by
      split_ifs at hwk
      · exact hwk
      · exact hwk
    rw [List.inj_on_of_nodup_map h.unique hv hmem hvk, if_pos hself]
  have hfree : ∀ v ∈ o.store.work, v.state = .running → v.thread ≠ row.thread := by
    intro v hv hr hsame
    have hany : o.store.isBusy row.thread = true :=
      List.any_eq_true.mpr ⟨v, hv, by simp [hr, hsame]⟩
    rw [hbusy] at hany
    cases hany
  refine ⟨?_, ?_, ?_, ?_, ?_⟩
  · change (t.work.map Work.key).Nodup
    rw [ht]
    exact hevolves.keys h.unique
  · change ∀ w ∈ t.work, w.Named
    rw [ht]
    exact hevolves.named h.named
  · intro w hw w' hw' hr hr' hsame
    rcases hruns w hw hr with hw₁ | ⟨v, hv, hrv, hsv⟩
    · rcases hruns w' hw' hr' with hw₂ | ⟨v', hv', hrv', hsv'⟩
      · exact hw₁.trans hw₂.symm
      · refine absurd ?_ (hfree v' hv' hrv')
        rw [← hsv'.thread, ← hsame]
        exact hthread w hw hw₁
    · rcases hruns w' hw' hr' with hw₂ | ⟨v', hv', hrv', hsv'⟩
      · refine absurd ?_ (hfree v hv hrv)
        rw [← hsv.thread, hsame]
        exact hthread w' hw' hw₂
      · rw [hsv.key, hsv'.key]
        refine h.single v hv v' hv' hrv hrv' ?_
        rw [← hsv.thread, ← hsv'.thread]
        exact hsame
  · rw [List.map_append, List.map_singleton, ← List.concat_eq_append]
    refine List.Nodup.concat (fun hm => ?_) h.once
    obtain ⟨e, he, hek⟩ := List.mem_map.mp hm
    obtain ⟨w, hw, hwk, hstate, -⟩ := h.past e he
    rw [hek, hkey, Prod.mk.injEq, Option.some.injEq] at hwk
    have hsame : w = row := by
      refine h.unique.eq_of_isRequest hw hmem ?_ hself
      simp [Store.isRequest, hwk.1, hwk.2]
    exact hstate (by rw [hsame]; exact haccepted)
  · intro e he
    change ∃ w ∈ t.work, _
    rw [ht]
    rcases List.mem_append.mp he with hold | hnew
    · exact hevolves.past (h.past e hold)
    · obtain rfl := List.mem_singleton.mp hnew
      refine ⟨{ row with state := .running }, ?_, hkey, by simp, hevent⟩
      exact List.mem_map.mpr ⟨row, hmem, by rw [if_pos hself]⟩

theorem Office.claims_cases {o : Office X} (h : o.Sound) (jobs : Option (List Str)) :
    ((o.claims b jobs).log = o.log ∧ Settles N o.store.work (o.claims b jobs).store.work) ∨
    ∃ c t row, o.claims b jobs = ⟨t, o.log ++ [⟨c, o.store⟩]⟩ ∧ o.store.selected = some row ∧
      Store.hasLocalTurn (o.store.contextOf row.peer row.thread) jobs = false ∧
      t.work = (o.store.setWork (Store.isRequest row.peer row.request) .running).work ∧
      c.peer = row.peer ∧ c.context = o.store.contextOf row.peer row.thread ∧
      c.event = { row.event with payload := withText row.event.payload } ∧ c.turn = row.turn := by
  have hclaim : Wp (Store.claim b jobs) _ _ o.store := claim_spec (N := N) jobs h.unique
  unfold Wp at hclaim
  unfold Office.claims Store.transaction
  cases hr : Store.claim b jobs o.store with
  | error e s' => exact .inl ⟨rfl, .refl _⟩
  | ok r s' =>
    rw [hr] at hclaim
    cases r with
    | none => exact .inl ⟨rfl, hclaim⟩
    | some c =>
      obtain ⟨row, hclaimed⟩ := hclaim
      exact .inr ⟨c, s', row, rfl, hclaimed⟩

/-- Every act keeps the office sound, and a row that appears holds the event the act handled. -/
theorem Office.Sound.act {o : Office X} (h : o.Sound) (a : WorkAct X) :
    (o.act b handlers a).Sound ∧
      Evolves (WorkAct.Makes b o.store a) o.store.work (o.act b handlers a).store.work := by
  have hsettles : ∀ {N : Str → Envelope → Prop} {o' : Office X}, o'.log = o.log →
      Settles N o.store.work o'.store.work → o'.Sound ∧ Evolves N o.store.work o'.store.work :=
    fun hlog hs => ⟨h.settles hlog hs, hs.evolves⟩
  have hcommits : ∀ {N : Str → Envelope → Prop} {α : Type} {x : Tx X α}, Tidy N x →
      (o.commits x).Sound ∧ Evolves N o.store.work (o.commits x).store.work :=
    fun hx => hsettles rfl (settles_transaction hx h.unique)
  cases a with
  | handles peer received now => exact hsettles rfl (settles_handle h.unique peer received now)
  | spawns peer origin action =>
    exact hsettles rfl (settles_of_wp (Tidy.spawnThread peer origin action h.unique))
  | claims jobs =>
    rcases Office.claims_cases h jobs with
      ⟨hlog, hs⟩ | ⟨c, t, row, ho, hrow, -, hwork, hpeer, -, hevent, -⟩
    · exact hsettles hlog hs
    · have hact : o.act b handlers (.claims jobs) = ⟨t, o.log ++ [⟨c, o.store⟩]⟩ := ho
      rw [hact]
      refine ⟨h.claimed hrow hwork hpeer hevent, ?_⟩
      change Evolves (WorkAct.Makes b o.store (.claims jobs)) o.store.work t.work
      rw [hwork]
      exact evolves_claimed h.unique hrow
  | completes peer request reply error usage =>
    exact hcommits (Tidy.complete peer request reply error usage)
  | authorizes peer thread context => exact hcommits (Tidy.authorize peer thread context)
  | revokesGrant peer thread => exact hcommits (Tidy.revokeGrant peer thread)
  | removes peer revokedOnly => exact hcommits (Tidy.removePeer peer revokedOnly)
  | calls op => exact hsettles rfl (.refl _)
  | restarts => exact hcommits Tidy.recover
  | works tables => exact hsettles rfl (.refl _)

theorem Office.run_concat (identity : Str) (rest : X) (acts : List (WorkAct X)) (a : WorkAct X) :
    run b handlers identity rest (acts ++ [a]) =
      (run b handlers identity rest acts).act b handlers a := by
  simp only [run, List.foldl_append, List.foldl_cons, List.foldl_nil]

/-- By induction on the acts, every office that a run reaches is sound. -/
theorem Office.sound_run (identity : Str) (rest : X) (acts : List (WorkAct X)) :
    (run b handlers identity rest acts).Sound := by
  induction acts using List.reverseRecOn with
  | nil =>
    exact ⟨List.nodup_nil, fun w hw => absurd hw List.not_mem_nil,
      fun w hw => absurd hw List.not_mem_nil, List.nodup_nil,
      fun e he => absurd he List.not_mem_nil⟩
  | append_singleton acts a ih =>
    rw [run_concat]
    exact (ih.act a).1

theorem Office.log_act (o : Office X) (a : WorkAct X) {e : Dispatched X}
    (he : e ∈ (o.act b handlers a).log) (h : o.Sound) :
    e ∈ o.log ∨ ∃ jobs row, a = .claims jobs ∧ e.before = o.store ∧ o.store.selected = some row ∧
      e.claimed.peer = row.peer ∧ e.claimed.event.threadId = some row.thread := by
  cases a with
  | claims jobs =>
    change e ∈ (o.claims b jobs).log at he
    rcases Office.claims_cases (N := fun _ _ => False) h jobs with
      ⟨hlog, -⟩ | ⟨c, t, row, ho, hrow, -, -, hpeer, -, hevent, -⟩
    · rw [hlog] at he
      exact .inl he
    · rw [ho] at he
      rcases List.mem_append.mp he with hold | hnew
      · exact .inl hold
      · obtain rfl := List.mem_singleton.mp hnew
        refine .inr ⟨jobs, row, rfl, rfl, hrow, hpeer, ?_⟩
        change c.event.threadId = some row.thread
        rw [hevent]
        exact (h.named row (selected_spec hrow).1).2
  | _ => exact .inl he

theorem Office.dispatched_from (identity : Str) (rest : X) (acts : List (WorkAct X))
    {e : Dispatched X} (he : e ∈ (run b handlers identity rest acts).log) :
    ∃ before jobs after thread, acts = before ++ .claims jobs :: after ∧
      e.before = (run b handlers identity rest before).store ∧
      e.claimed.event.threadId = some thread ∧ e.before.isActive e.claimed.peer = true ∧
      (e.before.grantOf e.claimed.peer thread).isSome = true := by
  induction acts using List.reverseRecOn with
  | nil => cases he
  | append_singleton acts a ih =>
    rw [run_concat] at he
    rcases Office.log_act _ a he (sound_run identity rest acts) with hold | hnew
    · obtain ⟨before, jobs, after, thread, rfl, hrest⟩ := ih hold
      exact ⟨before, jobs, after ++ [a], thread, by simp, hrest⟩
    · obtain ⟨jobs, row, rfl, hbefore, hrow, hpeer, hthread⟩ := hnew
      obtain ⟨-, -, hactive, hgrant, -⟩ := selected_spec hrow
      refine ⟨acts, jobs, [], row.thread, rfl, hbefore, hthread, ?_, ?_⟩
      · rw [hbefore, hpeer]
        exact hactive
      · rw [hbefore, hpeer]
        exact hgrant

end Steps

def WorkState.isTerminal : WorkState → Bool
  | completed | failed | cancelled | outcomeUnknown => true
  | accepted | running => false

theorem terminal_stays {state state' : WorkState} (h : Relation.ReflTransGen WorkMoves state state')
    (ht : state.isTerminal = true) : state' = state := by
  rcases h.cases_head with rfl | ⟨mid, hfirst, -⟩
  · rfl
  · cases hfirst <;> cases ht

/-- Work is dispatched at most once, over every run. No request is claimed twice; what a
claim returns is the event of the request's row, whose payload got a text from its intent
where it had none; a claim happens while the peer is active and the thread has a grant; a
row keeps its place, its thread, its event and its turn, moves only forward, and not at all
from where it ended; a new row waits, with the event that was handled, or a child's; and on each thread at most one request runs. -/
theorem Office.dispatched_once {X : Type} (b : Workbench X) (handlers : Handlers X) (identity : Str)
    (rest : X) (acts : List (WorkAct X)) :
    ((run b handlers identity rest acts).log.map Dispatched.key).Nodup ∧
    (∀ e ∈ (run b handlers identity rest acts).log,
      (∃ w ∈ (run b handlers identity rest acts).store.work, e.key = (w.peer, some w.request) ∧
        e.claimed.event = { w.event with payload := withText w.event.payload }) ∧
      ∃ before jobs after thread, acts = before ++ .claims jobs :: after ∧
        e.before = (run b handlers identity rest before).store ∧
        e.claimed.event.threadId = some thread ∧ e.before.isActive e.claimed.peer = true ∧
        (e.before.grantOf e.claimed.peer thread).isSome = true) ∧
    (∀ (a : WorkAct X) (i : ℕ) (w : Work),
      (run b handlers identity rest acts).store.work[i]? = some w →
        ∃ w', (run b handlers identity rest (acts ++ [a])).store.work[i]? = some w' ∧
          w.SameAs w' ∧ Relation.ReflTransGen WorkMoves w.state w'.state ∧
          (w.state.isTerminal = true → w'.state = w.state)) ∧
    (∀ (a : WorkAct X) (i : ℕ) (w' : Work),
      (run b handlers identity rest acts).store.work.length ≤ i →
        (run b handlers identity rest (acts ++ [a])).store.work[i]? = some w' →
          Relation.ReflTransGen WorkMoves .accepted w'.state ∧
            a.Makes b (run b handlers identity rest acts).store w'.peer w'.event) ∧
    ((run b handlers identity rest acts).store.work.map Work.key).Nodup ∧
    ∀ w ∈ (run b handlers identity rest acts).store.work,
      ∀ w' ∈ (run b handlers identity rest acts).store.work,
        w.state = .running → w'.state = .running → w.thread = w'.thread → w.key = w'.key := by
  have h : (run b handlers identity rest acts).Sound := sound_run identity rest acts
  have hstep : ∀ a, Evolves (a.Makes b (run b handlers identity rest acts).store)
      (run b handlers identity rest acts).store.work (run b handlers identity rest (acts ++ [a])).store.work := by
    intro a
    rw [run_concat]
    exact (h.act a).2
  refine ⟨h.once, fun e he => ⟨?_, dispatched_from identity rest acts he⟩, fun a i w hw => ?_,
    fun a i w' hi hw' => ?_, h.unique, h.single⟩
  · obtain ⟨w, hw, hkey, -, hevent⟩ := h.past e he
    exact ⟨w, hw, hkey, hevent⟩
  · obtain ⟨w', hw', hlater⟩ := (hstep a).kept i w hw
    exact ⟨w', hw', hlater.same, hlater.moves, terminal_stays hlater.moves⟩
  · obtain ⟨hmoves, -, hmade⟩ := (hstep a).fresh i w' hi hw'
    exact ⟨hmoves, hmade⟩

end Raticode.Device
