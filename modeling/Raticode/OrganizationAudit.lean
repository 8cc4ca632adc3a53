import Raticode.PyWriting
import Raticode.OrderedDict
import Raticode.HashChain
import Raticode.OrganizationTasks

/-! `gofer.ui.organization_store`: the audit of an organization. Its revisions and its activity are
chains of hashes in the database; the heads of the activity are kept in a file beside it. -/
namespace Raticode.OrganizationAudit
open PyDocument OrderedDict HashChain

/-- A value of a TEXT column. -/
abbrev Stored := { s : Str // Scalar s }

def Stored.empty : Stored := ⟨[], fun _ h => absurd h List.not_mem_nil⟩

/-- `hashlib.sha256(text.encode()).hexdigest()`. -/
structure Sha256 where
  hexdigest : Str → Stored
  length : ∀ w, (hexdigest w).val.length = 64

/-- `json.dumps` of a list whose members are written. -/
def jsonList (parts : List Str) : Str := [0x5b] ++ (text ", ").intercalate parts ++ [0x5d]

def style : Style := ⟨true, true⟩

def digits (n : ℕ) : Str := (Nat.toDigits 10 n).map Char.toNat

def optional (n : Option ℕ) : Str := n.elim (text "null") digits

/-! ### The database -/

/-- An event, as it is told. -/
structure Note where
  organization : Stored
  writtenAt : Stored
  actor : Stored
  kind : Stored
  payload : Stored
  deriving DecidableEq

/-- What the digest of an event covers. -/
structure Activity extends Note where
  previous : Stored
  deriving DecidableEq

def Activity.text (m : Activity) : Str :=
  jsonList ([m.previous, m.organization, m.writtenAt, m.actor, m.kind, m.payload].map
    (fun w => quoted style w.val))

def eventDigest (h : Sha256) (m : Activity) : Stored := h.hexdigest m.text

structure EventRow extends Note where
  sequence : ℕ
  digest : Option Stored
  previousDigest : Option Stored
  deriving DecidableEq

def EventRow.activity (r : EventRow) : Activity := ⟨r.toNote, r.previousDigest.getD .empty⟩

/-- `organization_events`, in the order of its key, with the greatest key that it has given out. -/
structure Events where
  rows : List EventRow
  counter : ℕ
  sorted : rows.Pairwise (fun r r' => r.sequence < r'.sequence)
  given : ∀ r ∈ rows, r.sequence ≤ counter

/-- A revision, as it is asked for. -/
structure Change where
  organization : Stored
  writtenAt : Stored
  actor : Stored
  reason : Stored
  config : Stored
  restoredFrom : Option ℕ
  deriving DecidableEq

structure RevisionRow extends Change where
  revision : ℕ
  digest : Stored
  previousDigest : Stored
  deriving DecidableEq

def RevisionRow.text (r : RevisionRow) : Str :=
  jsonList [quoted style r.previousDigest.val, quoted style r.organization.val, digits r.revision,
    quoted style r.writtenAt.val, quoted style r.actor.val, quoted style r.reason.val,
    quoted style r.config.val, optional r.restoredFrom]

/-- `organization_revisions`, whose key is the organization with the revision. -/
structure Revisions where
  rows : List RevisionRow
  sorted : rows.Pairwise (fun r r' => r.organization = r'.organization → r.revision < r'.revision)

/-- A line of the anchor file. -/
structure Anchor where
  organization : Stored
  sequence : ℕ
  digest : Stored
  writtenAt : Stored
  deriving DecidableEq

structure Store where
  organizations : List Stored
  events : Events
  revisions : Revisions
  anchors : List Anchor
  anchorHeads : Dict Stored ℕ

def Events.of (e : Events) (oid : Stored) : List EventRow := e.rows.filter (·.organization = oid)

def Revisions.of (v : Revisions) (oid : Stored) : List RevisionRow := v.rows.filter (·.organization = oid)

/-- The latest event that is linked, with its digest. -/
def Events.latest (e : Events) (oid : Stored) : Option (ℕ × Stored) :=
  ((e.of oid).filterMap (fun r => r.digest.map (r.sequence, ·))).getLast?

/-! ### What is written -/

/-- The digest that the next event of an organization is linked to. -/
def Events.lastDigest (e : Events) (oid : Stored) : Stored := ((e.latest oid).map (·.2)).getD .empty

/-- The row that `event` inserts. -/
def Events.next (h : Sha256) (e : Events) (n : Note) : EventRow :=
  ⟨n, e.counter + 1, some (eventDigest h ⟨n, e.lastDigest n.organization⟩),
    some (e.lastDigest n.organization)⟩

def Events.event (h : Sha256) (e : Events) (n : Note) : Events :=
  { rows := e.rows ++ [e.next h n]
    counter := e.counter + 1
    sorted := by
      refine List.pairwise_append.mpr ⟨e.sorted, List.pairwise_singleton _ _, fun r hr r' hr' => ?_⟩
      rw [List.mem_singleton.mp hr']
      exact Nat.lt_succ_of_le (e.given r hr)
    given := fun r hr => by
      rcases List.mem_append.mp hr with hold | hnew
      · exact (e.given r hold).trans (Nat.le_succ _)
      · rw [List.mem_singleton.mp hnew]
        exact le_rfl }

theorem revision_le_last {v : Revisions} {oid : Stored} {r last : RevisionRow} (hr : r ∈ v.rows)
    (horganization : r.organization = oid) (hlast : (v.of oid).getLast? = some last) :
    r.revision ≤ last.revision := by
  obtain ⟨init, hinit⟩ := List.getLast?_eq_some_iff.mp hlast
  have hmem : r ∈ v.of oid := List.mem_filter.mpr ⟨hr, decide_eq_true horganization⟩
  have hsorted := v.sorted.filter (fun r => decide (r.organization = oid))
  change (v.of oid).Pairwise _ at hsorted
  rw [hinit] at hmem hsorted
  rcases List.mem_append.mp hmem with hold | hnew
  · have hlast : last ∈ v.of oid := by rw [hinit]; exact List.mem_append_right _ (List.mem_singleton_self _)
    have hsame : last.organization = oid := of_decide_eq_true (List.mem_filter.mp hlast).2
    exact ((List.pairwise_append.mp hsorted).2.2 r hold last (List.mem_singleton_self _)
      (horganization.trans hsame.symm)).le
  · rw [List.mem_singleton.mp hnew]

def revisionPayload (revision : ℕ) (reason : Stored) (restored : Option ℕ) : Str :=
  text "\x7b\"revision\": " ++ digits revision ++ text ", \"reason\": " ++ quoted style reason.val ++
    text ", \"restoredFrom\": " ++ optional restored ++ text "\x7d"

theorem scalar_of_ascii {s : Str} (h : ∀ n ∈ s, n < 0x80) : Scalar s := by
  intro n hn
  have hlow := h n hn
  refine ⟨by omega, ?_⟩
  rw [Bool.eq_false_iff]
  simp only [isSurrogate, PyText.isHigh, PyText.isLow, ne_eq, Bool.or_eq_true, Bool.and_eq_true,
    decide_eq_true_eq]
  omega

theorem ascii_digits (k : ℕ) : ∀ n ∈ digits k, n < 0x80 := by
  intro n hn
  obtain ⟨c, hc, rfl⟩ := List.mem_map.mp hn
  have hdigit := PyJson.isDigit_toDigits hc
  simp only [PyJson.isDigit, Bool.and_eq_true, decide_eq_true_eq] at hdigit
  have hnine : c.toNat ≤ '9'.toNat := hdigit.2
  exact hnine.trans_lt (by decide)

theorem ascii_optional (k : Option ℕ) : ∀ n ∈ optional k, n < 0x80 := by
  cases k with
  | none => decide
  | some k => exact ascii_digits k

theorem scalar_revisionPayload (revision : ℕ) (reason : Stored) (restored : Option ℕ) :
    Scalar (revisionPayload revision reason restored) := by
  refine scalar_of_ascii fun n hn => ?_
  simp only [revisionPayload, List.mem_append] at hn
  rcases hn with (((((h | h) | h) | h) | h) | h) | h
  · exact (show ∀ n ∈ text "\x7b\"revision\": ", n < 0x80 by decide) n h
  · exact ascii_digits revision n h
  · exact (show ∀ n ∈ text ", \"reason\": ", n < 0x80 by decide) n h
  · exact (ascii_quoted rfl _ n h).trans (by decide)
  · exact (show ∀ n ∈ text ", \"restoredFrom\": ", n < 0x80 by decide) n h
  · exact ascii_optional restored n h
  · exact (show ∀ n ∈ text "\x7d", n < 0x80 by decide) n h

/-- `not reason.strip() or len(reason) > 4000`. -/
def isReason (reason : Stored) : Bool :=
  Organizations.strip reason.val ≠ [] && reason.val.length ≤ 4000

def ascii (w : String) (h : ∀ n ∈ text w, n < 0x80) : Stored := ⟨text w, scalar_of_ascii h⟩

def savedKind : Stored := ascii "configuration_saved" (by decide)

def restoredKind : Stored := ascii "configuration_restored" (by decide)

/-- The next revision, before it is hashed. -/
def Revisions.next (v : Revisions) (c : Change) : RevisionRow :=
  let previous := (v.of c.organization).getLast?
  ⟨c, (previous.map (·.revision)).getD 0 + 1, .empty, (previous.map (·.digest)).getD .empty⟩

/-- The row that `_revision` inserts. -/
def Revisions.sealedNext (h : Sha256) (v : Revisions) (c : Change) : RevisionRow :=
  { v.next c with digest := h.hexdigest (v.next c).text }

def Revisions.insert (h : Sha256) (v : Revisions) (c : Change) : Revisions where
  rows := v.rows ++ [v.sealedNext h c]
  sorted := by
    refine List.pairwise_append.mpr ⟨v.sorted, List.pairwise_singleton _ _, fun r hr r' hr' => ?_⟩
    rw [List.mem_singleton.mp hr']
    intro horganization
    change r.revision < ((v.of c.organization).getLast?.map (·.revision)).getD 0 + 1
    cases hlast : (v.of c.organization).getLast? with
    | none =>
      have hmem : r ∈ v.of c.organization := List.mem_filter.mpr ⟨hr, decide_eq_true horganization⟩
      rw [List.getLast?_eq_none_iff.mp hlast] at hmem
      exact absurd hmem List.not_mem_nil
    | some last => exact Nat.lt_succ_of_le (revision_le_last hr horganization hlast)

/-- The event of a revision, at the moment when it is told. -/
def Revisions.note (v : Revisions) (c : Change) (eventAt : Stored) : Note :=
  ⟨c.organization, eventAt, c.actor, if c.restoredFrom.any (· ≠ 0) then restoredKind else savedKind,
    ⟨revisionPayload (v.next c).revision c.reason c.restoredFrom, scalar_revisionPayload _ _ _⟩⟩

/-- `_revision`. -/
def Store.revision (h : Sha256) (s : Store) (c : Change) (eventAt : Stored) : Store :=
  if isReason c.reason then
    { s with revisions := s.revisions.insert h c, events := s.events.event h (s.revisions.note c eventAt) }
  else s

/-- `_anchors`. -/
def Store.anchorsOf (s : Store) (oid : Stored) : List Anchor := s.anchors.filter (·.organization = oid)

/-- `anchor`. -/
def Store.anchor (s : Store) (oid writtenAt : Stored) : Store :=
  match s.events.latest oid with
  | none => s
  | some (sequence, digest) =>
    let cached := (s.anchorHeads.get oid).getD (((s.anchorsOf oid).getLast?.map (·.sequence)).getD 0)
    if cached = sequence then { s with anchorHeads := s.anchorHeads.set oid cached }
    else { s with anchors := s.anchors ++ [⟨oid, sequence, digest, writtenAt⟩]
                  anchorHeads := s.anchorHeads.set oid sequence }

/-! ### What is verified -/

/-- From the latest revision on: each names the digest of the one before it. -/
def linkedBack : List RevisionRow → Bool
  | [] => true
  | [r] => r.previousDigest = .empty
  | r :: r' :: rows => r.previousDigest = r'.digest && linkedBack (r' :: rows)

/-- `history`. -/
def Store.history (h : Sha256) (s : Store) (oid : Stored) : Except Str (List RevisionRow) :=
  if oid ∉ s.organizations then .error (text "Organization not found")
  else
    let rows := (s.revisions.of oid).reverse
    if rows.any (fun r => h.hexdigest r.text ≠ r.digest) then
      .error (text "Configuration history integrity check failed")
    else if !linkedBack rows then .error (text "Configuration history chain is incomplete")
    else .ok rows

/-- `brokenAt`. -/
structure Broken where
  sequence : ℕ
  reason : Str

/-- The events that are not linked, those that are, and where the chain breaks. -/
structure Walked where
  legacy : ℕ
  chained : ℕ
  broken : Option Broken

def walk (h : Sha256) : List EventRow → ℕ → ℕ → Stored → Walked
  | [], legacy, chained, _ => ⟨legacy, chained, none⟩
  | row :: rows, legacy, chained, expected =>
    match row.digest with
    | none =>
      if chained ≠ 0 then
        ⟨legacy, chained, some ⟨row.sequence, text "Unlinked event after the chain began"⟩⟩
      else walk h rows (legacy + 1) chained expected
    | some digest =>
      if row.previousDigest.getD .empty ≠ expected ∨ eventDigest h row.activity ≠ digest then
        ⟨legacy, chained, some ⟨row.sequence, text "Event content or order changed"⟩⟩
      else walk h rows legacy (chained + 1) digest

/-- What an anchor has seen is missing or changed. -/
def isMismatch (rows : List EventRow) (a : Anchor) : Bool :=
  (rows.map (·.sequence)).foldr max 0 < a.sequence ||
    (rows.find? (·.sequence = a.sequence)).bind (·.digest) ≠ some a.digest

structure Report where
  history : Except Str ℕ
  anchors : ℕ
  mismatch : Option Anchor
  events : ℕ
  activity : Walked

def Report.ok (r : Report) : Bool := r.history.isOk && r.activity.broken.isNone && r.mismatch.isNone

/-- `verify_audit`. -/
def Store.verifyAudit (h : Sha256) (s : Store) (oid : Stored) : Report where
  history := (s.history h oid).map List.length
  anchors := (s.anchorsOf oid).length
  mismatch := (s.anchorsOf oid).find? (isMismatch (s.events.of oid))
  events := (s.events.of oid).length
  activity := walk h (s.events.of oid) 0 0 .empty

/-! ### What the manager does -/

inductive Act where
  /-- `create`, with the first revision. -/
  | create (c : Change) (eventAt : Stored)
  /-- `configure` or `restore`, when all else is in order. -/
  | revise (c : Change) (eventAt : Stored)
  | event (n : Note)
  | anchor (oid writtenAt : Stored)
  /-- Another process takes the store over. -/
  | restart

def Store.step (h : Sha256) (s : Store) : Act → Store
  | .create c eventAt =>
    if c.organization ∈ s.organizations ∨ !isReason c.reason then s
    else { s with organizations := s.organizations ++ [c.organization] }.revision h
      { c with restoredFrom := none } eventAt
  | .revise c eventAt => if c.organization ∈ s.organizations then s.revision h c eventAt else s
  | .event n => if n.organization ∈ s.organizations then { s with events := s.events.event h n } else s
  | .anchor oid writtenAt => s.anchor oid writtenAt
  | .restart => { s with anchorHeads := [] }

def Store.run (h : Sha256) (s : Store) (acts : List Act) : Store := acts.foldl (Store.step h) s

/-! ### The chains -/

section Chains

variable {h : Sha256}

def chain (h : Sha256) : Linking Activity Stored := ⟨eventDigest h, (·.previous)⟩

def revisionChain (h : Sha256) : Linking RevisionRow Stored := ⟨fun r => h.hexdigest r.text, (·.previousDigest)⟩

/-- Rows that carry their digests, each linked to the one before it. -/
def Sealed (h : Sha256) (expected : Stored) (rows : List EventRow) : Prop :=
  (∀ r ∈ rows, r.digest = some (eventDigest h r.activity)) ∧
    (chain h).Linked expected (rows.map EventRow.activity)

/-- Rows of the time before the chain, and sealed ones. -/
def Chained (h : Sha256) (rows : List EventRow) : Prop :=
  ∃ old new, rows = old ++ new ∧ (∀ r ∈ old, r.digest = none) ∧ Sealed h .empty new

def SealedHistory (h : Sha256) (rows : List RevisionRow) : Prop :=
  (∀ r ∈ rows, r.digest = h.hexdigest r.text) ∧ (revisionChain h).Linked .empty rows

theorem sealed_cons {expected : Stored} {r : EventRow} {rows : List EventRow} :
    Sealed h expected (r :: rows) ↔ (r.digest = some (eventDigest h r.activity) ∧
      r.activity.previous = expected) ∧ Sealed h (eventDigest h r.activity) rows := by
  rw [Sealed, Sealed, List.forall_mem_cons, List.map_cons, Linking.Linked]
  constructor
  · rintro ⟨⟨hr, hrows⟩, hprevious, hlinked⟩
    exact ⟨⟨hr, hprevious⟩, hrows, hlinked⟩
  · rintro ⟨⟨hr, hprevious⟩, hrows, hlinked⟩
    exact ⟨⟨hr, hrows⟩, hprevious, hlinked⟩

/-- The loop finds no break exactly where rows without a digest come first and the others are sealed. -/
theorem walk_iff {rows : List EventRow} {legacy chained : ℕ} {expected : Stored} :
    (walk h rows legacy chained expected).broken = none ↔
      ∃ old new, rows = old ++ new ∧ (∀ r ∈ old, r.digest = none) ∧ (chained ≠ 0 → old = []) ∧
        Sealed h expected new := by
  induction rows generalizing legacy chained expected with
  | nil =>
    refine ⟨fun _ => ⟨[], [], rfl, List.forall_mem_nil _, fun _ => rfl, ?_⟩, fun _ => rfl⟩
    exact ⟨List.forall_mem_nil _, trivial⟩
  | cons r rows ih =>
    rw [walk]
    cases hdigest : r.digest with
    | none =>
      dsimp only
      split_ifs with hchained
      · refine ⟨False.elim, ?_⟩
        rintro ⟨old, new, hrows, -, hold, hnew⟩
        rw [hold hchained, List.nil_append] at hrows
        rw [← hrows, sealed_cons, hdigest] at hnew
        cases hnew.1.1
      · rw [ih]
        constructor
        · rintro ⟨old, new, rfl, hold, -, hnew⟩
          exact ⟨r :: old, new, rfl, List.forall_mem_cons.mpr ⟨hdigest, hold⟩,
            fun hc => absurd hc hchained, hnew⟩
        · rintro ⟨old, new, hrows, hold, -, hnew⟩
          cases old with
          | nil =>
            rw [List.nil_append] at hrows
            rw [← hrows, sealed_cons, hdigest] at hnew
            cases hnew.1.1
          | cons o old =>
            obtain ⟨rfl, rfl⟩ := List.cons.inj hrows
            exact ⟨old, new, rfl, (List.forall_mem_cons.mp hold).2, fun hc => absurd hc hchained, hnew⟩
    | some digest =>
      have hempty {old new : List EventRow} (hrows : r :: rows = old ++ new)
          (hold : ∀ r ∈ old, r.digest = none) : old = [] := by
        cases old with
        | nil => rfl
        | cons o old =>
          rw [(List.cons.inj hrows).1, (List.forall_mem_cons.mp hold).1] at hdigest
          cases hdigest
      dsimp only
      split_ifs with hchanged
      · refine ⟨False.elim, ?_⟩
        rintro ⟨old, new, hrows, hold, -, hnew⟩
        rw [hempty hrows hold, List.nil_append] at hrows
        rw [← hrows, sealed_cons, hdigest, Option.some.injEq] at hnew
        rcases hchanged with hprevious | hsum
        · exact absurd hnew.1.2 hprevious
        · exact absurd hnew.1.1.symm hsum
      · push Not at hchanged
        rw [ih]
        constructor
        · rintro ⟨old, new, rfl, hold, hnil, hnew⟩
          refine ⟨[], r :: (old ++ new), rfl, List.forall_mem_nil _, fun _ => rfl, ?_⟩
          rw [hnil (Nat.succ_ne_zero _), List.nil_append, sealed_cons, hdigest, hchanged.2]
          exact ⟨⟨rfl, hchanged.1⟩, hnew⟩
        · rintro ⟨old, new, hrows, hold, -, hnew⟩
          rw [hempty hrows hold, List.nil_append] at hrows
          rw [← hrows, sealed_cons, hchanged.2] at hnew
          exact ⟨[], rows, rfl, List.forall_mem_nil _, fun _ => rfl, hnew.2⟩

theorem walk_ok {rows : List EventRow} :
    (walk h rows 0 0 .empty).broken = none ↔ Chained h rows := by
  rw [walk_iff]
  constructor
  · rintro ⟨old, new, hrows, hold, -, hnew⟩
    exact ⟨old, new, hrows, hold, hnew⟩
  · rintro ⟨old, new, hrows, hold, hnew⟩
    exact ⟨old, new, hrows, hold, fun hc => absurd rfl hc, hnew⟩

theorem linkedBack_reverse {rows : List RevisionRow} (hrows : ∀ r ∈ rows, r.digest = h.hexdigest r.text) :
    linkedBack rows.reverse = true ↔ (revisionChain h).Linked .empty rows := by
  induction rows using List.reverseRecOn with
  | nil => exact ⟨fun _ => trivial, fun _ => rfl⟩
  | append_singleton rows r ih =>
    rw [List.forall_mem_append] at hrows
    rw [List.reverse_append, Linking.linked_concat, ← ih hrows.1]
    rcases List.eq_nil_or_concat rows with rfl | ⟨init, last, rfl⟩
    · simp [linkedBack, Linking.head, revisionChain]
    · have hlast := hrows.1 last (by simp)
      rw [List.concat_eq_append, Linking.head_concat, List.reverse_append]
      change (decide (r.previousDigest = last.digest) && linkedBack (last :: init.reverse)) = true ↔
        linkedBack (last :: init.reverse) = true ∧ r.previousDigest = h.hexdigest last.text
      rw [Bool.and_eq_true, decide_eq_true_eq, hlast, and_comm]

theorem history_ok {s : Store} {oid : Stored} (hoid : oid ∈ s.organizations)
    (hsealed : SealedHistory h (s.revisions.of oid)) : (s.history h oid).isOk = true := by
  have hdigests : ¬ ((s.revisions.of oid).reverse.any (fun r => h.hexdigest r.text ≠ r.digest)) = true := by
    rw [List.any_eq_true]
    rintro ⟨r, hr, hne⟩
    exact absurd (hsealed.1 r (List.mem_reverse.mp hr)).symm (of_decide_eq_true hne)
  have hlinked := (linkedBack_reverse hsealed.1).mpr hsealed.2
  rw [Store.history, if_neg (not_not_intro hoid)]
  dsimp only
  rw [if_neg hdigests, hlinked]
  rfl

/-! ### Honest runs -/

/-- The chains hold, and each anchor is the digest of an event that is there. -/
structure Honest (h : Sha256) (s : Store) : Prop where
  activity : ∀ oid, Chained h (s.events.of oid)
  history : ∀ oid, SealedHistory h (s.revisions.of oid)
  anchors : ∀ a ∈ s.anchors, ∃ r ∈ s.events.of a.organization,
    r.sequence = a.sequence ∧ r.digest = some a.digest

/-- A database of the time before the chain. -/
structure Upgraded (h : Sha256) (s : Store) : Prop where
  legacy : ∀ r ∈ s.events.rows, r.digest = none
  history : ∀ oid, SealedHistory h (s.revisions.of oid)
  anchors : s.anchors = []

theorem Upgraded.honest {s : Store} (hs : Upgraded h s) : Honest h s where
  activity oid := by
    refine ⟨s.events.of oid, [], (List.append_nil _).symm, fun r hr => ?_, ?_⟩
    · exact hs.legacy r (List.mem_of_mem_filter hr)
    · exact ⟨List.forall_mem_nil _, trivial⟩
  history := hs.history
  anchors a ha := by
    rw [hs.anchors] at ha
    exact absurd ha List.not_mem_nil

theorem latest_eq {e : Events} {oid : Stored} {old new : List EventRow} (hrows : e.of oid = old ++ new)
    (hold : ∀ r ∈ old, r.digest = none) (hnew : Sealed h .empty new) :
    e.latest oid = new.getLast?.map (fun r => (r.sequence, eventDigest h r.activity)) := by
  have hlegacy : old.filterMap (fun r => r.digest.map (r.sequence, ·)) = [] :=
    List.filterMap_eq_nil_iff.mpr fun r hr => by rw [hold r hr]; rfl
  have hsealed : new.filterMap (fun r => r.digest.map (r.sequence, ·)) =
      new.map (fun r => (r.sequence, eventDigest h r.activity)) := by
    rw [← List.filterMap_eq_map]
    refine List.filterMap_congr fun r hr => ?_
    rw [hnew.1 r hr]
    rfl
  rw [Events.latest, hrows, List.filterMap_append, hlegacy, hsealed, List.nil_append, List.getLast?_map]

theorem of_event (e : Events) (n : Note) (oid : Stored) :
    (e.event h n).of oid = if n.organization = oid then e.of oid ++ [e.next h n] else e.of oid := by
  rw [Events.of, Events.event, List.filter_append, ← Events.of, List.filter_singleton, Bool.cond_decide]
  change e.of oid ++ (if n.organization = oid then [e.next h n] else []) = _
  split_ifs
  · rfl
  · exact List.append_nil _

/-- An event is linked to the one before it, and the rows that were there stay. -/
theorem chained_event {e : Events} (he : ∀ oid, Chained h (e.of oid)) (n : Note) (oid : Stored) :
    Chained h ((e.event h n).of oid) ∧ e.of oid ⊆ (e.event h n).of oid := by
  rw [of_event]
  split_ifs with hsame
  · subst hsame
    obtain ⟨old, new, hrows, hold, hnew⟩ := he n.organization
    have hhead : e.lastDigest n.organization = (chain h).head .empty (new.map EventRow.activity) := by
      rw [Events.lastDigest, latest_eq hrows hold hnew, Linking.head_eq, List.getLast?_map,
        Option.map_map, Option.map_map]
      rfl
    refine ⟨⟨old, new ++ [e.next h n], by rw [hrows, List.append_assoc], hold, ?_, ?_⟩,
      List.subset_append_left _ _⟩
    · exact List.forall_mem_append.mpr ⟨hnew.1, List.forall_mem_singleton.mpr rfl⟩
    · rw [List.map_append, List.map_singleton, Linking.linked_concat]
      exact ⟨hnew.2, hhead⟩
  · exact ⟨he oid, fun r hr => hr⟩

theorem Honest.event {s : Store} (hs : Honest h s) (n : Note) :
    Honest h { s with events := s.events.event h n } where
  activity oid := (chained_event hs.activity n oid).1
  history := hs.history
  anchors a ha := by
    obtain ⟨r, hr, hanchor⟩ := hs.anchors a ha
    exact ⟨r, (chained_event hs.activity n _).2 hr, hanchor⟩

theorem sealed_insert {v : Revisions} (hv : ∀ oid, SealedHistory h (v.of oid)) (c : Change) (oid : Stored) :
    SealedHistory h ((v.insert h c).of oid) := by
  have hold := hv oid
  rw [Revisions.of, Revisions.insert, List.filter_append, ← Revisions.of, List.filter_singleton,
    Bool.cond_decide]
  by_cases hsame : (v.sealedNext h c).organization = oid
  · subst hsame
    rw [if_pos rfl]
    refine ⟨List.forall_mem_append.mpr ⟨hold.1, List.forall_mem_singleton.mpr rfl⟩, ?_⟩
    refine Linking.linked_concat.mpr ⟨hold.2, ?_⟩
    rw [Linking.head_eq]
    change ((v.of c.organization).getLast?.map (·.digest)).getD .empty =
      ((v.of c.organization).getLast?.map (fun r => h.hexdigest r.text)).getD .empty
    cases hlast : (v.of c.organization).getLast? with
    | none => rfl
    | some last => exact hold.1 last (List.mem_of_getLast? hlast)
  · rw [if_neg hsame, List.append_nil]
    exact hold

theorem Honest.revision {s : Store} (hs : Honest h s) (c : Change) (eventAt : Stored) :
    Honest h (s.revision h c eventAt) := by
  rw [Store.revision]
  split_ifs
  · have hevent := hs.event (s.revisions.note c eventAt)
    exact ⟨hevent.activity, sealed_insert hs.history c, hevent.anchors⟩
  · exact hs

theorem Honest.anchor {s : Store} (hs : Honest h s) (oid writtenAt : Stored) :
    Honest h (s.anchor oid writtenAt) := by
  rw [Store.anchor]
  cases hlatest : s.events.latest oid with
  | none => exact hs
  | some head =>
    obtain ⟨sequence, digest⟩ := head
    dsimp only
    split_ifs
    · exact ⟨hs.activity, hs.history, hs.anchors⟩
    · refine ⟨hs.activity, hs.history,
        List.forall_mem_append.mpr ⟨hs.anchors, List.forall_mem_singleton.mpr ?_⟩⟩
      obtain ⟨r, hr, hlinked⟩ := List.mem_filterMap.mp (List.mem_of_getLast? hlatest)
      obtain ⟨d, hd, heq⟩ := Option.map_eq_some_iff.mp hlinked
      cases heq
      exact ⟨r, hr, rfl, hd⟩

theorem Honest.step {s : Store} (hs : Honest h s) (a : Act) : Honest h (s.step h a) := by
  cases a with
  | create c eventAt =>
    rw [Store.step]
    split_ifs
    · exact hs
    · have hknown : Honest h { s with organizations := s.organizations ++ [c.organization] } :=
        ⟨hs.activity, hs.history, hs.anchors⟩
      exact hknown.revision _ eventAt
  | revise c eventAt =>
    rw [Store.step]
    split_ifs
    · exact hs.revision c eventAt
    · exact hs
  | event n =>
    rw [Store.step]
    split_ifs
    · exact hs.event n
    · exact hs
  | anchor oid writtenAt => exact hs.anchor oid writtenAt
  | restart => exact ⟨hs.activity, hs.history, hs.anchors⟩

theorem Honest.run {s : Store} (hs : Honest h s) (acts : List Act) : Honest h (s.run h acts) := by
  induction acts generalizing s with
  | nil => exact hs
  | cons a acts ih => exact ih (hs.step a)

/-! ### Anchors -/

theorem Events.of_sorted (e : Events) (oid : Stored) :
    (e.of oid).Pairwise (fun r r' => r.sequence < r'.sequence) :=
  e.sorted.filter _

theorem eq_of_sequence {rows : List EventRow} (hsorted : rows.Pairwise (fun r r' => r.sequence < r'.sequence))
    {r r' : EventRow} (hr : r ∈ rows) (hr' : r' ∈ rows) (h : r.sequence = r'.sequence) : r = r' := by
  obtain ⟨i, hi, rfl⟩ := List.getElem_of_mem hr
  obtain ⟨j, hj, rfl⟩ := List.getElem_of_mem hr'
  have hlt := List.pairwise_iff_getElem.mp hsorted
  rcases lt_trichotomy i j with hij | rfl | hij
  · have hsequence := hlt i j hi hj hij
    omega
  · rfl
  · have hsequence := hlt j i hj hi hij
    omega

theorem sequence_le_newest {rows : List EventRow} {r : EventRow} (hr : r ∈ rows) :
    r.sequence ≤ (rows.map (·.sequence)).foldr max 0 := by
  induction rows with
  | nil => exact absurd hr List.not_mem_nil
  | cons r' rows ih =>
    rw [List.map_cons, List.foldr_cons]
    rcases List.mem_cons.mp hr with rfl | hold
    · exact le_max_left _ _
    · exact (ih hold).trans (le_max_right _ _)

/-- An anchor fits where its event is there with its digest. -/
theorem isMismatch_eq_false {rows : List EventRow}
    (hsorted : rows.Pairwise (fun r r' => r.sequence < r'.sequence)) {a : Anchor} :
    isMismatch rows a = false ↔ ∃ r ∈ rows, r.sequence = a.sequence ∧ r.digest = some a.digest := by
  rw [isMismatch, Bool.or_eq_false_iff, decide_eq_false_iff_not, decide_eq_false_iff_not, not_not,
    Option.bind_eq_some_iff]
  constructor
  · rintro ⟨-, r, hfind, hdigest⟩
    have hsame := List.find?_some hfind
    exact ⟨r, List.mem_of_find?_eq_some hfind, of_decide_eq_true hsame, hdigest⟩
  · rintro ⟨r, hr, hsequence, hdigest⟩
    refine ⟨?_, r, ?_, hdigest⟩
    · have hle := sequence_le_newest hr
      omega
    · cases hfind : rows.find? (·.sequence = a.sequence) with
      | none => exact absurd (decide_eq_true hsequence) (List.find?_eq_none.mp hfind r hr)
      | some r' =>
        have hsame := List.find?_some hfind
        rw [eq_of_sequence hsorted (List.mem_of_find?_eq_some hfind) hr
          ((of_decide_eq_true hsame).trans hsequence.symm)]

/-- What the linked events of an organization say, up to a sequence number. -/
def Events.written (e : Events) (oid : Stored) (n : ℕ) : List Activity :=
  ((e.of oid).filter (fun r => r.digest.isSome && r.sequence ≤ n)).map EventRow.activity

/-- Up to an event, what is written is a chain whose head is the digest of the event. -/
theorem head_written {e : Events} {oid : Stored} (hchained : Chained h (e.of oid)) {r : EventRow}
    (hr : r ∈ e.of oid) {digest : Stored} (hdigest : r.digest = some digest) :
    (chain h).Linked .empty (e.written oid r.sequence) ∧
      (chain h).head .empty (e.written oid r.sequence) = digest := by
  obtain ⟨old, new, hrows, hold, hnew⟩ := hchained
  have hsorted := e.of_sorted oid
  rw [hrows] at hr hsorted
  have hrnew : r ∈ new := by
    rcases List.mem_append.mp hr with hrold | hrnew
    · rw [hold r hrold] at hdigest
      cases hdigest
    · exact hrnew
  obtain ⟨before, after, rfl⟩ := List.append_of_mem hrnew
  obtain ⟨-, hsorted, -⟩ := List.pairwise_append.mp hsorted
  obtain ⟨-, hafter, hbefore⟩ := List.pairwise_append.mp hsorted
  have hnone : old.filter (fun x => x.digest.isSome && x.sequence ≤ r.sequence) = [] :=
    List.filter_eq_nil_iff.mpr fun x hx => by simp [hold x hx]
  have hall : before.filter (fun x => x.digest.isSome && x.sequence ≤ r.sequence) = before := by
    refine List.filter_eq_self.mpr fun x hx => ?_
    have hlt := hbefore x hx r List.mem_cons_self
    rw [hnew.1 x (List.mem_append_left _ hx)]
    simpa using hlt.le
  have hlater : after.filter (fun x => x.digest.isSome && x.sequence ≤ r.sequence) = [] := by
    refine List.filter_eq_nil_iff.mpr fun x hx => ?_
    have hlt := (List.pairwise_cons.mp hafter).1 x hx
    simpa using fun _ => hlt
  have hwritten : e.written oid r.sequence = before.map EventRow.activity ++ [r.activity] := by
    rw [Events.written, hrows, List.filter_append, hnone, List.nil_append, List.filter_append, hall,
      List.filter_cons_of_pos (by simp [hdigest]), hlater, List.map_append]
    rfl
  have hlinked := hnew.2
  rw [List.map_append, List.map_cons, List.append_cons, Linking.linked_append] at hlinked
  have hown := hnew.1 r hrnew
  rw [hdigest, Option.some.injEq] at hown
  rw [hwritten, Linking.head_concat, hown]
  exact ⟨hlinked.1, rfl⟩

end Chains

/-! ### The text of an event -/

theorem letters_quoted_inj {s t : Stored} {w u : List Char}
    (h : letters (quoted style s.val) ++ w = letters (quoted style t.val) ++ u) : s = t ∧ w = u := by
  rw [letters_quoted, letters_quoted] at h
  obtain ⟨us, hs, hpoints⟩ := jsonUnits_string (show style.ascii = true from rfl) s.property w
  obtain ⟨us', ht, hpoints'⟩ := jsonUnits_string (show style.ascii = true from rfl) t.property u
  rw [(List.cons.inj h).2, ht] at hs
  obtain ⟨rfl, rfl⟩ := Prod.mk.inj (Option.some.inj hs)
  exact ⟨Subtype.ext (hpoints.symm.trans hpoints'), rfl⟩

theorem text_injective : Function.Injective Activity.text := by
  intro a b hab
  have hletters := congrArg letters hab
  simp only [Activity.text, jsonList, List.map_cons, List.map_nil, List.intercalate, List.intersperse,
    List.flatten_cons, List.flatten_nil, letters_append, List.append_assoc] at hletters
  obtain ⟨hprevious, h1⟩ := letters_quoted_inj (List.append_cancel_left hletters)
  obtain ⟨horganization, h2⟩ := letters_quoted_inj (List.append_cancel_left h1)
  obtain ⟨hwrittenAt, h3⟩ := letters_quoted_inj (List.append_cancel_left h2)
  obtain ⟨hactor, h4⟩ := letters_quoted_inj (List.append_cancel_left h3)
  obtain ⟨hkind, h5⟩ := letters_quoted_inj (List.append_cancel_left h4)
  obtain ⟨hpayload, -⟩ := letters_quoted_inj (List.append_cancel_left h5)
  obtain ⟨⟨o, w, c, k, p⟩, q⟩ := a
  obtain ⟨⟨o', w', c', k', p'⟩, q'⟩ := b
  cases hprevious
  cases horganization
  cases hwrittenAt
  cases hactor
  cases hkind
  cases hpayload
  rfl

theorem eventDigest_ne_empty (h : Sha256) (m : Activity) : eventDigest h m ≠ .empty := by
  intro heq
  have hlength := h.length m.text
  rw [show h.hexdigest m.text = .empty from heq] at hlength
  cases hlength

/-! An organization with one revision, the digests that its texts have, and an event after its anchor. -/

def acme : Stored := ascii "acme" (by decide)

def newYear : Stored := ascii "2026-01-01T00:00:00+00:00" (by decide)

def user : Stored := ascii "user" (by decide)

def hex (n : ℕ) : Str := (Nat.toDigits 16 n).map Char.toNat

def savedDigest : Stored := ⟨hex 0x397702e8f32cf2f50dba1dc5488e7773447deca96796c7f071e0dcc0ecd097b6, scalar_of_ascii (by decide +kernel)⟩

def exampleSha : Sha256 where
  hexdigest w :=
    if w = text "[\"\", \"acme\", 1, \"2026-01-01T00:00:00+00:00\", \"user\", \"First\", \"\x7b\x7d\", null]" then
      ⟨hex 0xdf6b6c559dbeba427381d456193d2cffa719d4b186fe797468534df1bccf85e9, scalar_of_ascii (by decide +kernel)⟩
    else if w = text "[\"\", \"acme\", \"2026-01-01T00:00:00+00:00\", \"user\", \"configuration_saved\"" ++
        text ", \"\x7b\\\"revision\\\": 1, \\\"reason\\\": \\\"First\\\", \\\"restoredFrom\\\": null\x7d\"]" then
      savedDigest
    else if w = text "[\"" ++ savedDigest.val ++ text "\", \"acme\", \"2026-01-01T00:00:00+00:00\"" ++
        text ", \"user\", \"organization_archived\", \"\x7b\x7d\"]" then
      ⟨hex 0x46e7549d099676de4feea6c12b85841da7218c561669b775260f30d4e8b8f0f5, scalar_of_ascii (by decide +kernel)⟩
    else if w = text "[\"\", \"acme\", \"2026-01-01T00:00:00+00:00\"" ++
        text ", \"user\", \"organization_archived\", \"\x7b\x7d\"]" then
      ⟨hex 0xd3ebe324d2e58b1bcfd33b363320104480a12f8d31e9fd321a85f61b22971273, scalar_of_ascii (by decide +kernel)⟩
    else ⟨List.replicate 64 0x30, scalar_of_ascii (by decide)⟩
  length w := by
    split_ifs <;> decide +kernel

def emptyStore : Store where
  organizations := []
  events := ⟨[], 0, .nil, List.forall_mem_nil _⟩
  revisions := ⟨[], .nil⟩
  anchors := []
  anchorHeads := []

def savedActs : List Act :=
  [.create ⟨acme, newYear, user, ascii "First" (by decide), ascii "\x7b\x7d" (by decide), none⟩ newYear,
    .anchor acme newYear]

def archivedNote : Note :=
  ⟨acme, newYear, user, ascii "organization_archived" (by decide), ascii "\x7b\x7d" (by decide)⟩

def archivedActs : List Act := savedActs ++ [.event archivedNote]

/-- The same organization before there was a chain: its one revision, and an event without a digest. -/
def legacyStore : Store where
  organizations := [acme]
  events := ⟨[⟨archivedNote, 1, none, none⟩], 1, List.pairwise_singleton _ _,
    List.forall_mem_singleton.mpr le_rfl⟩
  revisions := ⟨[⟨⟨acme, newYear, user, ascii "First" (by decide), ascii "\x7b\x7d" (by decide), none⟩, 1,
    ⟨hex 0xdf6b6c559dbeba427381d456193d2cffa719d4b186fe797468534df1bccf85e9, scalar_of_ascii (by decide +kernel)⟩,
    .empty⟩], List.pairwise_singleton _ _⟩
  anchors := []
  anchorHeads := []

theorem upgraded_empty : Upgraded exampleSha emptyStore :=
  ⟨List.forall_mem_nil _, fun _ => ⟨List.forall_mem_nil _, trivial⟩, rfl⟩

theorem upgraded_legacy : Upgraded exampleSha legacyStore where
  legacy := List.forall_mem_singleton.mpr rfl
  anchors := rfl
  history oid := by
    by_cases hacme : acme = oid
    · subst hacme
      exact ⟨by decide +kernel, rfl, trivial⟩
    · have hnone : legacyStore.revisions.of oid = [] :=
        List.filter_eq_nil_iff.mpr (List.forall_mem_singleton.mpr (by simpa using hacme))
      rw [hnone]
      exact ⟨List.forall_mem_nil _, trivial⟩

/-- However its organizations are configured, work and are anchored, and whichever processes do it, the
audit of each of them finds the chains of a store whole. -/
theorem honest_verifies (h : Sha256) (s : Store) (hs : Upgraded h s) (acts : List Act) (oid : Stored)
    (hoid : oid ∈ (s.run h acts).organizations) : ((s.run h acts).verifyAudit h oid).ok = true := by
  have hhonest := hs.honest.run acts
  have hhistory := history_ok hoid (hhonest.history oid)
  have hactivity := walk_ok.mpr (hhonest.activity oid)
  have hmismatch : ((s.run h acts).anchorsOf oid).find?
      (isMismatch ((s.run h acts).events.of oid)) = none := by
    refine List.find?_eq_none.mpr fun a ha => ?_
    obtain ⟨hmem, hsame⟩ := List.mem_filter.mp ha
    have hanchor := hhonest.anchors a hmem
    rw [of_decide_eq_true hsame] at hanchor
    rw [(isMismatch_eq_false (Events.of_sorted _ oid)).mpr hanchor]
    exact Bool.false_ne_true
  have hok : (((s.run h acts).history h oid).map List.length).isOk = true := by
    cases hresult : (s.run h acts).history h oid with
    | ok rows => rfl
    | error e => rw [hresult] at hhistory; cases hhistory
  rw [Report.ok, Store.verifyAudit]
  dsimp only
  rw [hok, hactivity, hmismatch]
  rfl

/-- A new organization, and one from before the chain that is archived once more and anchored. -/
theorem honest_verifies_archived :
    ((emptyStore.run exampleSha archivedActs).verifyAudit exampleSha acme).ok = true ∧
      ((legacyStore.run exampleSha [.event archivedNote, .anchor acme newYear, .restart]).verifyAudit
        exampleSha acme).ok = true :=
  ⟨honest_verifies exampleSha emptyStore upgraded_empty archivedActs acme (by decide +kernel),
    honest_verifies exampleSha legacyStore upgraded_legacy _ acme (by decide +kernel)⟩

/-- An audit that finds nothing, of whatever database stands where the anchors of a run are kept: what
the events up to an anchor say is what they said, or the text of one of them has the hash of another text
that the run has hashed. -/
theorem audited_unchanged (h : Sha256) (s : Store) (hs : Upgraded h s) (acts : List Act) (t : Store)
    (a : Anchor) (ha : a ∈ (s.run h acts).anchors) (hkept : a ∈ t.anchors)
    (hok : (t.verifyAudit h a.organization).ok = true) :
    t.events.written a.organization a.sequence = (s.run h acts).events.written a.organization a.sequence ∨
      ∃ m ∈ t.events.written a.organization a.sequence,
        ∃ m' ∈ (s.run h acts).events.written a.organization a.sequence,
          m.text ≠ m'.text ∧ h.hexdigest m.text = h.hexdigest m'.text := by
  have hhonest := hs.honest.run acts
  rw [Report.ok, Bool.and_eq_true, Bool.and_eq_true, Option.isNone_iff_eq_none, Option.isNone_iff_eq_none] at hok
  obtain ⟨⟨-, hactivity⟩, hmismatch⟩ := hok
  have hfits := List.find?_eq_none.mp hmismatch a (List.mem_filter.mpr ⟨hkept, decide_eq_true rfl⟩)
  obtain ⟨r, hr, hsequence, hdigest⟩ :=
    (isMismatch_eq_false (t.events.of_sorted a.organization)).mp (Bool.eq_false_iff.mpr hfits)
  obtain ⟨r', hr', hsequence', hdigest'⟩ := hhonest.anchors a ha
  have hleft := head_written (walk_ok.mp hactivity) hr hdigest
  have hright := head_written (hhonest.activity a.organization) hr' hdigest'
  rw [hsequence] at hleft
  rw [hsequence'] at hright
  rcases Linking.eq_of_head (eventDigest_ne_empty h) hleft.1 hright.1 (hleft.2.trans hright.2.symm) with
    hsame | ⟨m, hm, m', hm', hne, hhash⟩
  · exact .inl hsame
  · exact .inr ⟨m, hm, m', hm', fun htext => hne (text_injective htext), hhash⟩

theorem audited_unchanged_archived :
    (emptyStore.run exampleSha archivedActs).events.written acme 1 =
        (emptyStore.run exampleSha savedActs).events.written acme 1 ∨
      ∃ m ∈ (emptyStore.run exampleSha archivedActs).events.written acme 1,
        ∃ m' ∈ (emptyStore.run exampleSha savedActs).events.written acme 1,
          m.text ≠ m'.text ∧ exampleSha.hexdigest m.text = exampleSha.hexdigest m'.text :=
  audited_unchanged exampleSha emptyStore upgraded_empty savedActs (emptyStore.run exampleSha archivedActs)
    ⟨acme, 1, savedDigest, newYear⟩ (by decide +kernel) (by decide +kernel) (by decide +kernel)

end Raticode.OrganizationAudit
