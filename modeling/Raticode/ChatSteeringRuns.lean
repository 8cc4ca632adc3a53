import Raticode.ChatSteering

/-! Every instruction that a turn accepts is in the messages of the generations that start after it
was taken up, once and in order, and its receipt is settled once. -/
namespace Raticode.Steering
open PyDocument

variable {A R : Type}

/-- The later record of one instruction: its content stays, and once settled so does all of it. -/
structure Receipt.Follows (r r' : Receipt A R) : Prop where
  turnId : r'.turnId = r.turnId
  requestId : r'.requestId = r.requestId
  text : r'.text = r.text
  attachments : r'.attachments = r.attachments
  settled : r.status ≠ .interrupting → r' = r

namespace Receipt.Follows
variable {r r' r'' : Receipt A R}

theorem refl (r : Receipt A R) : r.Follows r := ⟨rfl, rfl, rfl, rfl, fun _ => rfl⟩

theorem trans (h : r.Follows r') (h' : r'.Follows r'') : r.Follows r'' := by
  refine ⟨h'.turnId.trans h.turnId, h'.requestId.trans h.requestId, h'.text.trans h.text,
    h'.attachments.trans h.attachments, fun hs => ?_⟩
  have hsame := h.settled hs
  rw [hsame] at h'
  rw [h'.settled hs]

end Receipt.Follows

def Updates (f : Receipt A R → Receipt A R) : Prop := ∀ r : Receipt A R, r.Follows (f r)

theorem updates_ite {p : Receipt A R → Bool} {g : Receipt A R → Receipt A R}
    (hp : ∀ r, p r = true → r.status = .interrupting)
    (hg : ∀ r, (g r).turnId = r.turnId ∧ (g r).requestId = r.requestId ∧ (g r).text = r.text ∧
      (g r).attachments = r.attachments) :
    Updates (fun r => if p r then g r else r) := by
  intro r
  by_cases hr : p r = true
  · simp only [hr, if_true]
    obtain ⟨hturn, hrequest, htext, hattachments⟩ := hg r
    exact ⟨hturn, hrequest, htext, hattachments, fun hs => absurd (hp r hr) hs⟩
  · simp only [if_neg hr]
    exact .refl r

section Records
variable {records : List (Receipt A R)} {f : Receipt A R → Receipt A R}

theorem find_map (hf : Updates f) (records : List (Receipt A R)) (id : Str) :
    find (records.map f) id = (find records id).map f := by
  unfold find
  rw [List.find?_map]
  congr 2
  funext r
  simp only [Function.comp_apply, (hf r).requestId]

theorem instruction_map (hf : Updates f) (records : List (Receipt A R)) :
    instruction (records.map f) = instruction records := by
  funext id
  unfold instruction
  rw [find_map hf, Option.map_map]
  congr 1
  funext r
  simp only [Function.comp_apply, (hf r).text, (hf r).attachments]

theorem continuation_map (hf : Updates f) (records : List (Receipt A R)) :
    continuation (records.map f) = continuation records := by
  funext round
  unfold continuation
  rw [instruction_map hf]

theorem continuation_append {round : Round} (hround : ∀ id ∈ round.ids, (find records id).isSome)
    (added : List (Receipt A R)) : continuation (records ++ added) round = continuation records round := by
  have hids : round.ids.filterMap (instruction (records ++ added)) =
      round.ids.filterMap (instruction records) := by
    apply List.filterMap_congr
    intro id hid
    unfold instruction
    have hfind : find (records ++ added) id = find records id := by
      obtain ⟨r, hr⟩ := Option.isSome_iff_exists.mp (hround id hid)
      unfold find at hr ⊢
      rw [List.find?_append, hr, Option.some_or]
    rw [hfind]
  unfold continuation
  rw [hids]

theorem flatMap_continuation_append {rounds : List Round}
    (hrounds : ∀ id ∈ rounds.flatMap Round.ids, (find records id).isSome) (added : List (Receipt A R)) :
    rounds.flatMap (continuation (records ++ added)) = rounds.flatMap (continuation records) := by
  apply List.flatMap_congr
  intro round hround
  apply continuation_append
  exact fun id hid => hrounds id (List.mem_flatMap.mpr ⟨round, hround, hid⟩)

theorem find_isSome {id : Str} (hid : ∃ r ∈ records, r.requestId = id) : (find records id).isSome := by
  obtain ⟨r, hr, rfl⟩ := hid
  unfold find
  rw [List.find?_isSome]
  exact ⟨r, hr, by simp⟩

theorem find_none {id : Str} (h : find records id = none) : ∀ r ∈ records, r.requestId ≠ id := by
  intro r hr
  have hne := List.find?_eq_none.mp h r hr
  simpa using hne

end Records

structure Ledger (A R : Type) where
  records : List (Receipt A R)
  turnIds : List Str
  turnId : Str
  pending : List Str
  delivering : List Str
  generation : ℕ
  messages : List (Message A)
  accepted : List Str
  rounds : List Round
  starts : List (Start A)
  spoke : List ℕ

def World.ledger (w : World A R) : Ledger A R :=
  { records := w.records, turnIds := w.turnIds, turnId := w.turn.turnId, pending := w.turn.pending,
    delivering := w.turn.delivering, generation := w.turn.generation, messages := w.messages,
    accepted := w.history.accepted, rounds := w.history.rounds, starts := w.history.starts,
    spoke := w.history.spoke }

def Ledger.Confirms (l : Ledger A R) (r : Receipt A R) : Prop :=
  r.generation ∈ l.spoke ∧ ∃ s, l.starts[r.generation]? = some s ∧ r.requestId ∈ s.rounds.flatMap Round.ids

/-- The records, the queue and the rounds of a turn tell one story: what was accepted is what was
delivered and then what waits, each recorded once, and the messages are the rounds in order. -/
structure Ledger.Sound (initial : List (Message A)) (l : Ledger A R) : Prop where
  known : ∀ r ∈ l.records, r.turnId ∈ l.turnIds
  turnKnown : l.turnId ∈ l.turnIds
  accepted : l.accepted = l.delivering ++ l.pending
  recorded : ∀ id ∈ l.accepted, ∃ r ∈ l.records, r.requestId = id ∧ r.turnId = l.turnId
  own : ∀ r ∈ l.records, r.turnId = l.turnId → r.requestId ∈ l.accepted
  nodup : l.accepted.Nodup
  rounds : l.rounds.flatMap Round.ids = l.delivering
  generation : l.rounds.length = l.generation
  messages : l.messages = initial ++ l.rounds.flatMap (continuation l.records)
  starts : ∀ s ∈ l.starts, s.rounds <+: l.rounds ∧
    s.messages = initial ++ s.rounds.flatMap (continuation l.records)
  index : ∀ (i : ℕ) s, l.starts[i]? = some s → s.rounds.length = i
  delivered : ∀ r ∈ l.records, r.turnId = l.turnId → r.status = .delivered → l.Confirms r

namespace Ledger.Sound
variable {initial : List (Message A)} {l : Ledger A R}

theorem delivering_found (h : l.Sound initial) {id : Str} (hid : id ∈ l.delivering) :
    (find l.records id).isSome := by
  obtain ⟨r, hr, hrequest, -⟩ := h.recorded id (by rw [h.accepted]; exact List.mem_append_left _ hid)
  exact find_isSome ⟨r, hr, hrequest⟩

theorem update (h : l.Sound initial) {f : Receipt A R → Receipt A R} (hf : Updates f)
    (hdelivered : ∀ r ∈ l.records, r.turnId = l.turnId → (f r).status = .delivered → l.Confirms (f r)) :
    ({ l with records := l.records.map f } : Ledger A R).Sound initial := by
  have hmem : ∀ r ∈ l.records.map f, ∃ r₀ ∈ l.records, f r₀ = r := fun r hr => List.mem_map.mp hr
  refine { h with known := ?_, recorded := ?_, own := ?_, messages := ?_, starts := ?_, delivered := ?_ }
  · intro r hr
    obtain ⟨r₀, hr₀, rfl⟩ := hmem r hr
    rw [(hf r₀).turnId]
    exact h.known r₀ hr₀
  · intro id hid
    obtain ⟨r₀, hr₀, hrequest, hturn⟩ := h.recorded id hid
    exact ⟨f r₀, List.mem_map_of_mem hr₀, (hf r₀).requestId.trans hrequest, (hf r₀).turnId.trans hturn⟩
  · intro r hr hturn
    obtain ⟨r₀, hr₀, rfl⟩ := hmem r hr
    rw [(hf r₀).turnId] at hturn
    rw [(hf r₀).requestId]
    exact h.own r₀ hr₀ hturn
  · simp only [continuation_map hf]
    exact h.messages
  · simp only [continuation_map hf]
    exact h.starts
  · intro r hr hturn hstatus
    obtain ⟨r₀, hr₀, rfl⟩ := hmem r hr
    rw [(hf r₀).turnId] at hturn
    exact hdelivered r₀ hr₀ hturn hstatus

theorem update_other (h : l.Sound initial) {f : Receipt A R → Receipt A R} (hf : Updates f)
    (hother : ∀ r, (f r).status = .delivered → f r = r) :
    ({ l with records := l.records.map f } : Ledger A R).Sound initial := by
  apply h.update hf
  intro r hr hturn hstatus
  have hsame := hother r hstatus
  rw [hsame] at hstatus ⊢
  exact h.delivered r hr hturn hstatus

theorem accept (h : l.Sound initial) {receipt : Receipt A R} (hnew : find l.records receipt.requestId = none)
    (hturn : receipt.turnId = l.turnId) (hstatus : receipt.status = .interrupting) :
    ({ l with
      records := l.records ++ [receipt]
      pending := l.pending ++ [receipt.requestId]
      accepted := l.accepted ++ [receipt.requestId] } : Ledger A R).Sound initial := by
  have hfresh : receipt.requestId ∉ l.accepted := by
    intro hid
    obtain ⟨r, hr, hrequest, -⟩ := h.recorded _ hid
    exact find_none hnew r hr hrequest
  have hfound : ∀ rounds : List Round, rounds <+: l.rounds →
      ∀ id ∈ rounds.flatMap Round.ids, (find l.records id).isSome := by
    intro rounds hinit id hid
    apply h.delivering_found
    rw [← h.rounds]
    obtain ⟨round, hround, hid⟩ := List.mem_flatMap.mp hid
    exact List.mem_flatMap.mpr ⟨round, hinit.subset hround, hid⟩
  have hmem : ∀ r ∈ l.records ++ [receipt], r ∈ l.records ∨ r = receipt := by
    intro r hr
    simpa using hr
  refine { h with known := ?_, accepted := ?_, recorded := ?_, own := ?_, nodup := ?_, messages := ?_, starts := ?_, delivered := ?_ }
  · intro r hr
    rcases hmem r hr with hr | rfl
    · exact h.known r hr
    · rw [hturn]
      exact h.turnKnown
  · change l.accepted ++ [receipt.requestId] = l.delivering ++ (l.pending ++ [receipt.requestId])
    rw [h.accepted, List.append_assoc]
  · intro id hid
    rcases List.mem_append.mp hid with hid | hid
    · obtain ⟨r, hr, hrest⟩ := h.recorded id hid
      exact ⟨r, List.mem_append_left _ hr, hrest⟩
    · exact ⟨receipt, by simp, (List.mem_singleton.mp hid).symm, hturn⟩
  · intro r hr hown
    rcases hmem r hr with hr | rfl
    · exact List.mem_append_left _ (h.own r hr hown)
    · exact List.mem_append_right _ (List.mem_singleton.mpr rfl)
  · rw [List.nodup_append]
    refine ⟨h.nodup, List.nodup_singleton _, ?_⟩
    intro id hid id' hid' he
    rw [he, List.mem_singleton.mp hid'] at hid
    exact hfresh hid
  · change l.messages = _
    rw [flatMap_continuation_append (hfound _ List.prefix_rfl)]
    exact h.messages
  · intro s hs
    obtain ⟨hinit, hmessages⟩ := h.starts s hs
    refine ⟨hinit, ?_⟩
    rw [flatMap_continuation_append (hfound _ hinit)]
    exact hmessages
  · intro r hr hown hdelivered
    rcases hmem r hr with hr | rfl
    · exact h.delivered r hr hown hdelivered
    · rw [hstatus] at hdelivered
      cases hdelivered

theorem restart (h : l.Sound initial) (answer : Option Str) :
    ({ l with
      delivering := l.delivering ++ l.pending
      pending := []
      generation := l.generation + 1
      messages := l.messages ++ continuation l.records ⟨answer, l.pending⟩
      rounds := l.rounds ++ [⟨answer, l.pending⟩] } : Ledger A R).Sound initial := by
  refine { h with accepted := ?_, rounds := ?_, generation := ?_, messages := ?_, starts := ?_ }
  · change l.accepted = l.delivering ++ l.pending ++ []
    rw [List.append_nil]
    exact h.accepted
  · change (l.rounds ++ [_]).flatMap Round.ids = l.delivering ++ l.pending
    rw [List.flatMap_append, h.rounds, List.flatMap_singleton]
  · change (l.rounds ++ [_]).length = l.generation + 1
    rw [List.length_append, h.generation, List.length_singleton]
  · change l.messages ++ _ = initial ++ (l.rounds ++ [_]).flatMap (continuation l.records)
    rw [List.flatMap_append, List.flatMap_singleton, h.messages, List.append_assoc]
  · intro s hs
    obtain ⟨hinit, hmessages⟩ := h.starts s hs
    exact ⟨hinit.trans (List.prefix_append _ _), hmessages⟩

theorem start (h : l.Sound initial) (hcount : l.starts.length = l.generation) :
    ({ l with starts := l.starts ++ [⟨l.messages, l.rounds⟩] } : Ledger A R).Sound initial := by
  refine { h with starts := ?_, index := ?_, delivered := ?_ }
  · intro s hs
    rcases List.mem_append.mp hs with hs | hs
    · exact h.starts s hs
    · rw [List.mem_singleton.mp hs]
      exact ⟨List.prefix_rfl, h.messages⟩
  · intro i s hs
    change (l.starts ++ [_])[i]? = some s at hs
    rcases Nat.lt_or_ge i l.starts.length with hlt | hge
    · rw [List.getElem?_append_left hlt] at hs
      exact h.index i s hs
    · -- The new one has all the rounds, of which there is one for each generation before it.
      rw [List.getElem?_append_right hge] at hs
      obtain ⟨hi, hs⟩ := List.getElem?_eq_some_iff.mp hs
      simp only [List.length_singleton] at hi
      have hrounds := h.generation
      simp only [List.getElem_singleton] at hs
      rw [← hs]
      change l.rounds.length = i
      omega
  · intro r hr hturn hstatus
    obtain ⟨hspoke, s, hs, hid⟩ := h.delivered r hr hturn hstatus
    refine ⟨hspoke, s, ?_, hid⟩
    change (l.starts ++ [_])[r.generation]? = some s
    rw [List.getElem?_append_left (List.getElem?_eq_some_iff.mp hs).1]
    exact hs

theorem speak (h : l.Sound initial) :
    ({ l with spoke := l.spoke ++ [l.generation] } : Ledger A R).Sound initial := by
  refine { h with delivered := ?_ }
  intro r hr hturn hstatus
  obtain ⟨hspoke, hstart⟩ := h.delivered r hr hturn hstatus
  exact ⟨List.mem_append_left _ hspoke, hstart⟩

end Ledger.Sound

def Stage.hasStarted : Stage A R → Option Bool
  | .fresh | .announced | .starting | .looping | .settling _ true _ => some false
  | .running _ | .handling .. | .closing .. => some true
  | _ => none

def Stage.isEnded : Stage A R → Bool
  | .ended => true
  | _ => false

def Stage.isOver : Stage A R → Bool
  | .ended | .dropped => true
  | _ => false

def World.IsSettled (w : World A R) : Prop :=
  ∀ r ∈ w.records, r.turnId = w.turn.turnId → r.status ≠ .interrupting

/-- The ledger is sound and the worker's stage says how many generations have started. -/
structure World.Sound (initial : List (Message A)) (w : World A R) : Prop where
  ledger : w.ledger.Sound initial
  least : w.turn.generation ≤ w.history.starts.length
  waits : w.stage.hasStarted = some false → w.history.starts.length = w.turn.generation
  runs : w.stage.hasStarted = some true → w.history.starts.length = w.turn.generation + 1
  finished : w.stage = .ended → w.isActive = false ∧ w.IsSettled

structure World.Later (w w' : World A R) : Prop where
  turnId : w'.turn.turnId = w.turn.turnId
  records : ∀ r ∈ w.records, ∃ r' ∈ w'.records, r.Follows r'
  rounds : w.history.rounds <+: w'.history.rounds
  starts : w.history.starts <+: w'.history.starts

namespace World
variable {initial : List (Message A)} {w w' w'' : World A R}

theorem Later.refl (w : World A R) : w.Later w :=
  ⟨rfl, fun r hr => ⟨r, hr, .refl r⟩, List.prefix_rfl, List.prefix_rfl⟩

theorem Later.trans (h : w.Later w') (h' : w'.Later w'') : w.Later w'' := by
  refine ⟨h'.turnId.trans h.turnId, fun r hr => ?_, h.rounds.trans h'.rounds, h.starts.trans h'.starts⟩
  obtain ⟨r', hr', hf⟩ := h.records r hr
  obtain ⟨r'', hr'', hf'⟩ := h'.records r' hr'
  exact ⟨r'', hr'', hf.trans hf'⟩

theorem later_map {f : Receipt A R → Receipt A R} (hf : Updates f) (w : World A R) :
    w.Later { w with records := w.records.map f } :=
  ⟨rfl, fun r hr => ⟨f r, List.mem_map_of_mem hr, hf r⟩, List.prefix_rfl, List.prefix_rfl⟩

theorem updates_reconcile (w : World A R) : ∃ f : Receipt A R → Receipt A R, Updates f ∧
    (∀ r, (f r).status = .delivered → f r = r) ∧ w.reconcile = { w with records := w.records.map f } := by
  refine ⟨_, updates_ite (p := w.isOrphan) ?_ ?_, ?_, rfl⟩
  · intro r hr
    simp only [isOrphan, Bool.and_eq_true, decide_eq_true_eq] at hr
    exact hr.1
  · exact fun r => ⟨rfl, rfl, rfl, rfl⟩
  · intro r hr
    cases horphan : w.isOrphan r with
    | false => simp only [Bool.false_eq_true, if_false]
    | true =>
      -- A turn ends with its instructions cancelled or failed.
      simp only [horphan, if_true] at hr
      generalize (w.ended r.turnId).getD _ = ending at hr
      cases ending with
      | cancelled => cases hr
      | failed => cases hr

/-- What `_transition` makes of a receipt. -/
def settled (w : World A R) (ids : List Str) (status : Status) (r : Receipt A R) : Receipt A R :=
  if r.requestId ∈ ids && r.status = .interrupting then r.settle status w.turn.generation else r

theorem updates_settled (w : World A R) (ids : List Str) (status : Status) : Updates (w.settled ids status) := by
  apply updates_ite
  · intro r hr
    simp only [Bool.and_eq_true, decide_eq_true_eq] at hr
    exact hr.2
  · exact fun r => ⟨rfl, rfl, rfl, rfl⟩

theorem settled_of_ne {ids : List Str} {status : Status} (hs : status ≠ .delivered) {r : Receipt A R}
    (hr : (w.settled ids status r).status = .delivered) : w.settled ids status r = r := by
  unfold settled at hr ⊢
  split_ifs at hr ⊢
  · exact absurd hr hs
  · rfl

theorem settled_all (h : w.ledger.Sound initial) {ids : List Str} {status : Status}
    (hids : ∀ id ∈ w.history.accepted, id ∈ ids) (hs : status ≠ .interrupting) {r : Receipt A R}
    (hr : r ∈ w.records.map (w.settled ids status)) (hturn : r.turnId = w.turn.turnId) :
    r.status ≠ .interrupting := by
  obtain ⟨r₀, hr₀, rfl⟩ := List.mem_map.mp hr
  rw [(w.updates_settled ids status r₀).turnId] at hturn
  have hid := hids _ (h.own r₀ hr₀ hturn)
  unfold settled
  split_ifs with hcase
  · exact hs
  · intro hwaits
    simp [hid, hwaits] at hcase

def Advances (initial : List (Message A)) (w w' : World A R) : Prop := w'.Sound initial ∧ w.Later w'

theorem Advances.trans (h : Advances initial w w') (h' : Advances initial w' w'') : Advances initial w w'' :=
  ⟨h'.1, h.2.trans h'.2⟩

theorem later_of_ledger (h : w'.ledger = w.ledger) : w.Later w' := by
  have hturn : w'.turn.turnId = w.turn.turnId := congrArg Ledger.turnId h
  have hrecords : w'.records = w.records := congrArg Ledger.records h
  have hrounds : w'.history.rounds = w.history.rounds := congrArg Ledger.rounds h
  have hstarts : w'.history.starts = w.history.starts := congrArg Ledger.starts h
  refine ⟨hturn, fun r hr => ⟨r, ?_, .refl r⟩, ?_, ?_⟩
  · rw [hrecords]
    exact hr
  · rw [hrounds]
  · rw [hstarts]

theorem Sound.move (h : w.Sound initial) (hledger : w'.ledger = w.ledger)
    (hstage : w'.stage.hasStarted = none ∨ w'.stage.hasStarted = w.stage.hasStarted)
    (hgoes : w'.stage.isEnded = false) : Advances initial w w' := by
  have hended : w'.stage ≠ .ended := by
    intro he
    rw [he] at hgoes
    cases hgoes
  have hgeneration : w'.turn.generation = w.turn.generation := congrArg Ledger.generation hledger
  have hstarts : w'.history.starts = w.history.starts := congrArg Ledger.starts hledger
  refine ⟨⟨?_, ?_, ?_, ?_, fun he => absurd he hended⟩, later_of_ledger hledger⟩
  · rw [hledger]
    exact h.ledger
  · rw [hstarts, hgeneration]
    exact h.least
  · intro hs
    rw [hstarts, hgeneration]
    rcases hstage with hnone | hsame
    · rw [hnone] at hs
      cases hs
    · exact h.waits (hsame.symm.trans hs)
  · intro hs
    rw [hstarts, hgeneration]
    rcases hstage with hnone | hsame
    · rw [hnone] at hs
      cases hs
    · exact h.runs (hsame.symm.trans hs)

theorem Sound.keep (h : w.Sound initial) (hledger : w'.ledger = w.ledger) (hstage : w'.stage = w.stage)
    (hactive : w'.isActive = w.isActive) : Advances initial w w' := by
  have hgeneration : w'.turn.generation = w.turn.generation := congrArg Ledger.generation hledger
  have hstarts : w'.history.starts = w.history.starts := congrArg Ledger.starts hledger
  have hrecords : w'.records = w.records := congrArg Ledger.records hledger
  have hturn : w'.turn.turnId = w.turn.turnId := congrArg Ledger.turnId hledger
  refine ⟨⟨by rw [hledger]; exact h.ledger, ?_, ?_, ?_, ?_⟩, later_of_ledger hledger⟩
  · rw [hstarts, hgeneration]
    exact h.least
  · rw [hstage, hstarts, hgeneration]
    exact h.waits
  · rw [hstage, hstarts, hgeneration]
    exact h.runs
  · unfold IsSettled
    rw [hstage, hactive, hrecords, hturn]
    exact h.finished

theorem Sound.update (h : w.Sound initial) {f : Receipt A R → Receipt A R} (hf : Updates f)
    (hother : ∀ r, (f r).status = .delivered → f r = r) :
    Advances initial w { w with records := w.records.map f } := by
  refine ⟨⟨h.ledger.update_other hf hother, h.least, h.waits, h.runs, fun he => ?_⟩, later_map hf w⟩
  obtain ⟨hactive, hover⟩ := h.finished he
  refine ⟨hactive, fun r hr hturn => ?_⟩
  obtain ⟨r₀, hr₀, rfl⟩ := List.mem_map.mp hr
  rw [(hf r₀).turnId] at hturn
  have hsettled := hover r₀ hr₀ hturn
  rw [(hf r₀).settled hsettled]
  exact hsettled

theorem Sound.reconcile (h : w.Sound initial) : Advances initial w w.reconcile := by
  obtain ⟨f, hf, hother, he⟩ := w.updates_reconcile
  rw [he]
  exact h.update hf hother

theorem Sound.transition (h : w.Sound initial) (ids : List Str) (status : Status) (hs : status ≠ .delivered) :
    Advances initial w (w.transition ids status).1 :=
  h.update (w.updates_settled ids status) (fun _ hr => settled_of_ne hs hr)

theorem Sound.accept (h : w.Sound initial) (hactive : w.isActive = true) {requestId message : Str}
    (hnew : find w.records requestId = none) (attachments : List A) (resources : Option R) :
    Advances initial w (w.accept requestId message attachments resources).2 := by
  refine ⟨⟨?_, h.least, h.waits, h.runs, fun he => ?_⟩, rfl, fun r hr => ⟨r, ?_, .refl r⟩,
    List.prefix_rfl, List.prefix_rfl⟩
  · exact h.ledger.accept hnew rfl rfl
  · rw [(h.finished he).1] at hactive
    cases hactive
  · exact List.mem_append_left _ hr

section Steer
variable [DecidableEq A] [DecidableEq R]

theorem Sound.steerLocked (h : w.Sound initial) (files : Files A) (turnId requestId message : Str)
    (attachments : List A) (resources : Option R) :
    Advances initial w (w.steerLocked files turnId requestId message attachments resources).2 := by
  have hbefore := h.reconcile
  unfold World.steerLocked
  generalize w.reconcile = w' at hbefore ⊢
  simp only
  cases hfind : find w'.records requestId with
  | some old =>
    simp only
    split_ifs
    · exact hbefore
    · exact hbefore
  | none =>
    simp only
    split_ifs with hrefused
    · exact hbefore
    · -- The turn is the active one, so that the stream has not ended.
      simp only [isAbout, Bool.or_eq_true, Bool.not_eq_true', not_or, Bool.not_eq_false,
        Bool.and_eq_true] at hrefused
      split
      · exact hbefore
      · exact hbefore.trans (hbefore.1.accept hrefused.1.1 hfind attachments resources)

theorem Sound.steer (h : w.Sound initial) (files : Files A) (body : Body A R) :
    Advances initial w (w.steer files body).2 := by
  unfold World.steer
  split
  · exact ⟨h, .refl w⟩
  · exact h.steerLocked files _ _ _ _ _

end Steer

theorem Sound.stop (h : w.Sound initial) (turnId : Option Str) : Advances initial w (w.stop turnId).2 := by
  unfold World.stop
  split
  · exact ⟨h, .refl w⟩
  · split_ifs
    · exact ⟨h, .refl w⟩
    · have htransition := h.transition (w.turn.pending ++ w.turn.delivering) .cancelled (by decide)
      exact htransition.trans (htransition.1.keep rfl rfl rfl)

theorem Sound.confirms (h : w.Sound initial) (hruns : w.stage.hasStarted = some true) {r : Receipt A R}
    (hid : r.requestId ∈ w.turn.delivering) (hgeneration : r.generation = w.turn.generation)
    (hspoke : w.turn.generation ∈ w.history.spoke) : w.ledger.Confirms r := by
  have hlt : w.turn.generation < w.history.starts.length := by
    have hcount := h.runs hruns
    omega
  have hstart : w.ledger.starts[r.generation]? = some w.history.starts[w.turn.generation] := by
    rw [hgeneration]
    exact List.getElem?_eq_getElem hlt
  refine ⟨by rw [hgeneration]; exact hspoke, _, hstart, ?_⟩
  obtain ⟨hinit, -⟩ := h.ledger.starts _ (List.getElem_mem hlt)
  -- It started after as many rounds as there are now.
  have hlength : w.history.starts[w.turn.generation].rounds.length = w.ledger.rounds.length := by
    rw [h.ledger.generation, h.ledger.index _ _ hstart]
    exact hgeneration
  rw [hinit.eq_of_length hlength, h.ledger.rounds]
  exact hid

theorem Sound.speak (h : w.Sound initial) : Advances initial w w.speak :=
  ⟨⟨h.ledger.speak, h.least, h.waits, h.runs, h.finished⟩, rfl, fun r hr => ⟨r, hr, .refl r⟩,
    List.prefix_rfl, List.prefix_rfl⟩

theorem Sound.delivered (h : w.Sound initial) (hruns : w.stage.hasStarted = some true)
    (hspoke : w.turn.generation ∈ w.history.spoke) :
    Advances initial w (w.transition w.turn.delivering .delivered).1 := by
  refine ⟨⟨?_, h.least, h.waits, h.runs, fun he => ?_⟩, later_map (w.updates_settled _ _) w⟩
  · apply h.ledger.update (w.updates_settled w.turn.delivering .delivered)
    intro r hr hturn hstatus
    unfold settled at hstatus ⊢
    split_ifs at hstatus ⊢ with hcase
    · simp only [Bool.and_eq_true, decide_eq_true_eq] at hcase
      exact h.confirms hruns hcase.1 rfl hspoke
    · exact h.ledger.delivered r hr hturn hstatus
  · have hended : w.stage = .ended := he
    rw [hended] at hruns
    cases hruns

theorem Sound.deliver (h : w.Sound initial) (hruns : w.stage.hasStarted = some true)
    (hspoke : w.turn.generation ∈ w.history.spoke) (e : Event) (texts : List Str) :
    Advances initial w (w.deliver e texts) := by
  unfold World.deliver
  split_ifs
  · exact h.move rfl (.inr hruns.symm) rfl
  · have hdelivered := h.delivered hruns hspoke
    exact hdelivered.trans (hdelivered.1.move rfl (.inr hruns.symm) rfl)

theorem Sound.receive (h : w.Sound initial) (hruns : w.stage.hasStarted = some true) (e : Event)
    (texts : List Str) : Advances initial w (w.receive e texts) := by
  unfold World.receive
  split_ifs
  · have hspoke : w.speak.turn.generation ∈ w.speak.history.spoke :=
      List.mem_append_right _ (List.mem_singleton.mpr rfl)
    exact h.speak.trans (h.speak.1.deliver hruns hspoke e texts)
  · exact h.move rfl (.inr hruns.symm) rfl

theorem Sound.handled (h : w.Sound initial) (hruns : w.stage.hasStarted = some true) (e : Event)
    (texts : List Str) : Advances initial w (w.handled e texts) := by
  unfold World.handled
  split_ifs
  · exact h.move rfl (.inr hruns.symm) rfl
  · exact h.move rfl (.inr hruns.symm) rfl
  · exact h.move rfl (.inr hruns.symm) rfl

theorem Sound.restart (h : w.Sound initial) (hruns : w.stage.hasStarted = some true)
    (terminal : Option Event) (texts : List Str) : Advances initial w (w.restart terminal texts) := by
  have hcount := h.runs hruns
  refine ⟨⟨h.ledger.restart (answer terminal texts), ?_, fun _ => hcount, fun hs => ?_, fun he => ?_⟩, rfl, fun r hr => ⟨r, hr, .refl r⟩, List.prefix_append _ _, List.prefix_rfl⟩
  · exact hcount.ge
  · cases hs
  · cases he

theorem Sound.settle (h : w.Sound initial) (hruns : w.stage.hasStarted = some true)
    (terminal : Option Event) (texts : List Str) : Advances initial w (w.settle terminal texts) := by
  unfold World.settle
  split_ifs
  · have hcancelled := h.transition (w.turn.pending ++ w.turn.delivering) .cancelled (by decide)
    exact hcancelled.trans (hcancelled.1.move rfl (.inl rfl) rfl)
  · exact h.restart hruns terminal texts
  · have hfailed := h.transition w.turn.delivering .failed (by decide)
    exact hfailed.trans (hfailed.1.move rfl (.inl rfl) rfl)

theorem Sound.conclude (h : w.Sound initial) (terminal : Option Event) :
    Advances initial w (w.conclude terminal) := by
  unfold World.conclude
  split_ifs
  · exact h.move rfl (.inl rfl) rfl
  · cases terminal with
    | none => exact h.move rfl (.inl rfl) rfl
    | some e => exact h.move rfl (.inl rfl) rfl

theorem Sound.finish (h : w.Sound initial) : Advances initial w w.finish := by
  have hne : ∀ ending : Ending, ending.status ≠ .delivered ∧ ending.status ≠ .interrupting := by
    intro ending
    cases ending with
    | cancelled => exact ⟨by decide, by decide⟩
    | failed => exact ⟨by decide, by decide⟩
  unfold World.finish
  simp only
  generalize (if w.turn.stopped then Ending.cancelled else .failed) = ending
  obtain ⟨hdelivered, hinterrupting⟩ := hne ending
  have hids : ∀ id ∈ w.history.accepted, id ∈ w.turn.pending ++ w.turn.delivering := by
    intro id hid
    have haccepted : w.history.accepted = w.turn.delivering ++ w.turn.pending := h.ledger.accepted
    rw [haccepted] at hid
    exact List.mem_append.mpr (List.mem_append.mp hid).symm
  refine ⟨⟨?_, h.least, fun hs => ?_, fun hs => ?_, fun _ => ⟨rfl, ?_⟩⟩, ?_⟩
  · exact h.ledger.update_other (w.updates_settled _ _) (fun _ hr => settled_of_ne hdelivered hr)
  · cases hs
  · cases hs
  · intro r hr hturn
    exact settled_all h.ledger hids hinterrupting hr hturn
  · exact ⟨rfl, fun r hr => ⟨_, List.mem_map_of_mem hr, w.updates_settled _ _ r⟩, List.prefix_rfl,
      List.prefix_rfl⟩

theorem Sound.proceed (h : w.Sound initial) : Advances initial w w.proceed := by
  have hruns : ∀ {stage : Stage A R}, w.stage = stage → w.stage.hasStarted = stage.hasStarted :=
    fun hs => congrArg Stage.hasStarted hs
  unfold World.proceed
  split
  next hs => exact h.move rfl (.inr (hruns hs).symm) rfl
  next hs =>
    split_ifs
    · exact h.move rfl (.inl rfl) rfl
    · exact h.move rfl (.inr (hruns hs).symm) rfl
  next hs =>
    -- The generation that starts is the one after all that have started.
    have hcount := h.waits (hruns hs)
    refine ⟨⟨h.ledger.start hcount, ?_, fun he => ?_, fun _ => ?_, fun he => ?_⟩, rfl,
      fun r hr => ⟨r, hr, .refl r⟩, List.prefix_rfl, List.prefix_append _ _⟩
    · exact h.least.trans (by simp)
    · cases he
    · simp [hcount]
    · cases he
  · exact ⟨h, .refl w⟩
  next hs => exact h.move rfl (.inr (hruns hs).symm) rfl
  next e texts hs => exact h.handled (hruns hs) e texts
  next terminal texts hs => exact h.settle (hruns hs) terminal texts
  next restart _ hs =>
    cases restart with
    | false => exact h.move rfl (.inl rfl) rfl
    | true => exact h.move rfl (.inr (hruns hs).symm) rfl
  next hs => exact h.move rfl (.inr (hruns hs).symm) rfl
  next terminal _ => exact h.conclude terminal
  next hs => exact h.move rfl (.inr (hruns hs).symm) rfl
  · exact h.move rfl (.inl rfl) rfl
  · exact h.finish
  · exact ⟨h, .refl w⟩
  · exact ⟨h, .refl w⟩

theorem Sound.produce (h : w.Sound initial) (event : Option Event) : Advances initial w (w.produce event) := by
  unfold World.produce
  split
  next texts e hs => exact h.receive (congrArg Stage.hasStarted hs) e texts
  next texts hs =>
    have hruns : w.stage.hasStarted = some true := congrArg Stage.hasStarted hs
    exact h.move rfl (.inr hruns.symm) rfl
  · exact ⟨h, .refl w⟩

theorem Sound.breaks (h : w.Sound initial) : Advances initial w w.breaks := by
  unfold World.breaks
  split
  · exact h.move rfl (.inl rfl) rfl
  · exact ⟨h, .refl w⟩
  · exact ⟨h, .refl w⟩
  · exact h.move rfl (.inl rfl) rfl

/-- What is accepted stays recorded once, in order, and each start saw exactly the rounds before
it. -/
structure Kept (initial : List (Message A)) (w w' : World A R) : Prop where
  recorded : ∀ id, id ∈ w'.history.accepted ↔
    ∃ r ∈ w'.records, r.requestId = id ∧ r.turnId = w'.turn.turnId
  inOrder : w'.history.rounds.flatMap Round.ids ++ w'.turn.pending = w'.history.accepted ∧
    w'.history.accepted.Nodup
  messages : ∀ (i : ℕ) s, w'.history.starts[i]? = some s → s.rounds.length = i ∧
    s.messages = initial ++ s.rounds.flatMap (continuation w'.records)
  before : ∀ s ∈ w.history.starts, s.rounds <+: w.history.rounds ∧ s ∈ w'.history.starts
  after : w.history.rounds <+: w'.history.rounds ∧ ∀ (i : ℕ) s, w.history.starts.length ≤ i →
    w'.history.starts[i]? = some s → w.history.rounds <+: s.rounds
  settled : ∀ r ∈ w.records, ∃ r' ∈ w'.records, r.Follows r'
  delivered : ∀ r ∈ w'.records, r.turnId = w'.turn.turnId → r.status = .delivered → w'.ledger.Confirms r
  ended : w'.stage = .ended → w'.IsSettled

theorem Sound.kept (h : w.Sound initial) (h' : Advances initial w w') : Kept initial w w' := by
  obtain ⟨hend, hlater⟩ := h'
  have hstarts : ∀ (i : ℕ) s, w'.history.starts[i]? = some s → s.rounds <+: w'.history.rounds :=
    fun i s hs => (hend.ledger.starts s (List.mem_of_getElem? hs)).1
  constructor
  · intro id
    constructor
    · exact fun hid => hend.ledger.recorded id hid
    · intro ⟨r, hr, hrequest, hturn⟩
      rw [← hrequest]
      exact hend.ledger.own r hr hturn
  · refine ⟨?_, hend.ledger.nodup⟩
    have hrounds : w'.history.rounds.flatMap Round.ids = w'.turn.delivering := hend.ledger.rounds
    rw [hrounds]
    exact hend.ledger.accepted.symm
  · exact fun i s hs => ⟨hend.ledger.index i s hs, (hend.ledger.starts s (List.mem_of_getElem? hs)).2⟩
  · exact fun s hs => ⟨(h.ledger.starts s hs).1, hlater.starts.subset hs⟩
  · refine ⟨hlater.rounds, fun i s hi hs => ?_⟩
    -- A later generation has at least as many rounds as there were.
    apply List.prefix_of_prefix_length_le hlater.rounds (hstarts i s hs)
    have hlength : w.history.rounds.length = w.turn.generation := h.ledger.generation
    rw [hlength, hend.ledger.index i s hs]
    exact h.least.trans hi
  · exact hlater.records
  · exact hend.ledger.delivered
  · exact fun hs => (hend.finished hs).2

section Runs
variable [DecidableEq A] [DecidableEq R]

/-- One step of the worker or of a caller keeps the world sound and only adds to its history. -/
theorem Sound.act (h : w.Sound initial) (files : Files A) (a : Act A R) :
    Advances initial w (w.act files a) := by
  cases a with
  | steer body => exact h.steer files body
  | stop turnId => exact h.stop turnId
  | receipts => exact h.reconcile
  | halts => exact h.keep rfl rfl rfl
  | proceeds => exact h.proceed
  | produces event => exact h.produce event
  | breaks => exact h.breaks

/-- So does a whole run, by induction on its steps. -/
theorem Sound.run (h : w.Sound initial) (files : Files A) (acts : List (Act A R)) :
    Advances initial w (w.run files acts) := by
  induction acts generalizing w with
  | nil => exact ⟨h, .refl w⟩
  | cons a acts ih =>
    have hstep := h.act files a
    exact hstep.trans (ih hstep.1)

end Runs

end World

def Conversation.Covered (c : Conversation A R) : Prop := ∀ r ∈ c.records, r.turnId ∈ c.turnIds

theorem Conversation.sound_begin {c : Conversation A R} (hc : c.Covered) {turnId provider model : Str}
    {messages : List (Message A)} {w : World A R} (hw : c.begin turnId provider model messages = .ok w) :
    w.Sound messages := by
  unfold Conversation.begin at hw
  split at hw
  · cases hw
  next id _ =>
    split_ifs at hw with hused
    rw [← Except.ok.inj hw]
    have hother : ∀ r ∈ c.records, r.turnId ≠ id := by
      intro r hr he
      rw [← he] at hused
      exact hused (hc r hr)
    constructor
    · constructor
      · exact fun r hr => List.mem_append_left _ (hc r hr)
      · exact List.mem_append_right _ (List.mem_singleton.mpr rfl)
      · rfl
      · exact fun id hid => absurd hid List.not_mem_nil
      · exact fun r hr hturn => absurd hturn (hother r hr)
      · exact List.nodup_nil
      · rfl
      · rfl
      · exact (List.append_nil messages).symm
      · exact fun s hs => absurd hs List.not_mem_nil
      · exact fun i s hs => absurd hs (by simp [World.ledger])
      · exact fun r hr hturn => absurd hturn (hother r hr)
    · exact Nat.le_refl 0
    · exact fun _ => rfl
    · exact fun hs => by cases hs
    · exact fun hs => by cases hs

section Runs
variable [DecidableEq A] [DecidableEq R]

/-- What a turn leaves behind can be taken up by the next one. -/
theorem Conversation.covered_run (files : Files A) {c : Conversation A R} (hc : c.Covered)
    {turnId provider model : Str} {messages : List (Message A)} {w : World A R}
    (hw : c.begin turnId provider model messages = .ok w) (acts : List (Act A R)) :
    (w.run files acts).conversation.Covered :=
  ((Conversation.sound_begin hc hw).run files acts).1.ledger.known

/-- No instruction is lost or taken up twice, between any two points of a run. -/
theorem instructions_kept (files : Files A) (c : Conversation A R) (hc : c.Covered)
    (turnId provider model : Str) (messages : List (Message A)) (w : World A R)
    (hw : c.begin turnId provider model messages = .ok w) (before later : List (Act A R)) :
    World.Kept messages (w.run files before) (w.run files (before ++ later)) := by
  have hmid := ((Conversation.sound_begin hc hw).run files before).1
  have happend : w.run files (before ++ later) = (w.run files before).run files later := List.foldl_append
  rw [happend]
  exact hmid.kept (hmid.run files later)

end Runs

/-! A turn that is steered once. -/
section Examples

def noFiles : Files Unit := ⟨fun _ => true, fun _ => .ok (), fun _ => false⟩

def newConversation : Conversation Unit Unit := ⟨[], [], fun _ => none⟩

def exampleTurn : World Unit Unit :=
  { records := [], turnIds := [text "turn-1"], ended := fun _ => none
    turn := { turnId := text "turn-1", provider := text "codex", model := text "model" }
    isActive := true, stage := .fresh, messages := [], history := {} }

theorem exampleTurn_begins :
    newConversation.begin (text "turn-1") (text "codex") (text "model") [] = .ok exampleTurn := by
  have hid : identifier (some (text "turn-1")) "turnId" = .ok (text "turn-1") := by decide +kernel
  unfold Conversation.begin
  rw [hid]
  rfl

def exampleBody : Body Unit Unit :=
  ⟨some (text "turn-1"), some (text "request-1"), some (text "Use the new direction"), some [], none⟩

def steeredOnce : List (Act Unit Unit) :=
  [.proceeds, .proceeds, .proceeds, .steer exampleBody, .produces (some { type := text "error" }),
    .proceeds, .proceeds, .proceeds, .proceeds, .proceeds, .proceeds,
    .produces (some { type := text "final", body := text "done" }), .proceeds, .proceeds, .proceeds,
    .proceeds, .proceeds, .proceeds]

theorem steeredOnce_kept : World.Kept [] (exampleTurn.run noFiles (steeredOnce.take 6))
    (exampleTurn.run noFiles (steeredOnce.take 6 ++ steeredOnce.drop 6)) :=
  instructions_kept noFiles newConversation (fun _ hr => absurd hr List.not_mem_nil) (text "turn-1")
    (text "codex") (text "model") [] exampleTurn exampleTurn_begins (steeredOnce.take 6) (steeredOnce.drop 6)

/-- An instruction waits for ever where the stream is closed before it is asked for anything. -/
theorem unasked_waits : ¬ (World.Kept [] (exampleTurn.run noFiles [])
      (exampleTurn.run noFiles ([] ++ [.steer exampleBody, .breaks])) ∧
    ((exampleTurn.run noFiles ([] ++ [.steer exampleBody, .breaks])).stage.isOver = true →
      (exampleTurn.run noFiles ([] ++ [.steer exampleBody, .breaks])).IsSettled)) := by
  intro ⟨_, hclosed⟩
  have hrecords : (exampleTurn.run noFiles [.steer exampleBody, .breaks]).records.map
      (fun r => (r.turnId, r.status)) = [(text "turn-1", .interrupting)] := by decide +kernel
  have hmem : (text "turn-1", Status.interrupting) ∈
      (exampleTurn.run noFiles [.steer exampleBody, .breaks]).records.map (fun r => (r.turnId, r.status)) := by
    rw [hrecords]
    exact List.mem_singleton.mpr rfl
  obtain ⟨r, hr, hpair⟩ := List.mem_map.mp hmem
  have hover : (exampleTurn.run noFiles [.steer exampleBody, .breaks]).stage.isOver = true := by
    decide +kernel
  have hturn : (exampleTurn.run noFiles [.steer exampleBody, .breaks]).turn.turnId = text "turn-1" := by
    decide +kernel
  apply hclosed hover r hr
  · exact (congrArg Prod.fst hpair).trans hturn.symm
  · exact congrArg Prod.snd hpair

end Examples

end Raticode.Steering
