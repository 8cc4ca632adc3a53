import Raticode.RemHome
import Raticode.OrderedDict
import Raticode.Fuelled
import Raticode.Pages

/-! `gofer.ui.rem_home_store`: the conversation with Rem, read as a whole or page by page,
and the notices that are left out of it. -/
namespace Raticode.Rem
open PyDocument OrderedDict Fuelled

/-- `message["work"]`: the task card of a message, without the fields nothing here reads. -/
structure WorkCard where
  runId : Option Str := none
  taskId : Option Str := none
  title : Option Str := none

/-- A stored message. `diagnostic` and what else it has are of any type. -/
structure Message (ρ : Type) where
  id : Str
  role : Str
  body : Str
  kind : Option Str
  createdAt : Option Str
  work : Option WorkCard
  refersTo : Option Str
  diagnostic : Option ρ
  rest : ρ

variable {ρ π : Type}

namespace Message

/-- `message.get("work") or {}`. -/
def card (m : Message ρ) : WorkCard := m.work.getD {}

/-- `work.get("run_id") or ""`. -/
def runId (m : Message ρ) : Str := m.card.runId.getD []

/-- `message.pop("diagnostic", None)`. -/
def undiagnosed (m : Message ρ) : Message ρ := { m with diagnostic := none }

/-- `str(None)`. -/
def noneText : Str := text "None"

/-- `_instant(message.get("created_at"))`, in microseconds: `instant` reads an ISO text. -/
def written (instant : Str → Option ℤ) (m : Message ρ) : Option ℤ :=
  instant (m.createdAt.getD noneText)

/-- `f"queued-{run}"`. -/
def queuedId (run : Str) : Str := text "queued-" ++ run

/-- `f"Started {work.get('title')}."`. -/
def startedText (m : Message ρ) : Str :=
  text "Started " ++ m.card.title.getD noneText ++ text "."

def isTaskUpdate (m : Message ρ) : Bool := m.kind = some (text "task_update")

def isReply (m : Message ρ) : Bool :=
  m.runId ≠ [] && !m.isTaskUpdate && m.id ≠ queuedId m.runId

def isNotice (m : Message ρ) : Bool := m.id = queuedId m.runId && m.body = m.startedText

end Message

/-- `timedelta(seconds=5)`. -/
def sameMoment : ℤ := 5000000

section Notices
variable (instant : Str → Option ℤ)

/-- `replies.setdefault(run, []).append(written)`, for a reply with a readable time. -/
def noteReply (replies : Dict Str (List ℤ)) (m : Message ρ) : Dict Str (List ℤ) :=
  match m.written instant with
  | some at_ =>
    if m.isReply then replies.set m.runId ((replies.get m.runId).getD [] ++ [at_]) else replies
  | none => replies

def repliesOf (messages : List (Message ρ)) : Dict Str (List ℤ) :=
  messages.foldl (noteReply instant) []

def duplicateNotices (messages : List (Message ρ)) : List Str :=
  let replies := repliesOf instant messages
  (messages.filter (fun m =>
    m.isNotice && (m.written instant).any (fun at_ =>
      ((replies.get m.runId).getD []).any (fun reply => |reply - at_| < sameMoment)))).map (·.id)

/-- `[m for m in messages if m["id"] not in duplicate_notices(messages)]`. -/
def withoutDuplicates (messages : List (Message ρ)) : List (Message ρ) :=
  messages.filter (fun m => m.id ∉ duplicateNotices instant messages)

end Notices

structure Shown (ρ π : Type) where
  message : Message ρ
  seq : Option ℕ := none
  referenced : Option π := none

structure Messages (ρ : Type) where
  rows : List (ℕ × Message ρ)
  ordered : (rows.map Prod.fst).Pairwise (· < ·)
  positive : ∀ row ∈ rows, 0 < row.1
  unique : (rows.map (·.2.id)).Nodup

namespace Messages

/-- The `messages` of `conversation()`. `preview` says what a reply shows of the message it
refers to, `none` for one that is not there. -/
def conversation (instant : Str → Option ℤ) (preview : Option (Message ρ) → Str → π)
    (s : Messages ρ) : List (Shown ρ π) :=
  let messages := s.rows.map (·.2.undiagnosed)
  (withoutDuplicates instant messages).map (fun m =>
    { message := m
      referenced := m.refersTo.map (fun id => preview (messages.find? (·.id = id)) id) })

structure Page (ρ π : Type) where
  latest : ℕ
  last : ℕ
  messages : List (Shown ρ π)
  asked : Option Str
  sources : Dict Str (Option Str)

def sourcesOf (tasks : List Task) (messages : List (Message ρ)) : Dict Str (Option Str) :=
  messages.foldl (fun sources m =>
    match m.card.taskId with
    | some task =>
      if !m.isTaskUpdate || task = [] || (sources.get task).isSome then sources
      else sources.set task ((tasks.find? (·.id = task)).bind (·.sourceMessageId))
    | none => sources) []

def keptRows (instant : Str → Option ℤ) (rows : List (ℕ × Message ρ)) : List (ℕ × Message ρ) :=
  rows.filter (fun row => row.2.id ∉ duplicateNotices instant (rows.map Prod.snd))

def shownRows (instant : Str → Option ℤ) (rows : List (ℕ × Message ρ)) : List (Shown ρ π) :=
  (keptRows instant rows).map (fun row => { message := row.2, seq := some row.1 })

def messagesAfter (instant : Str → Option ℤ) (tasks : List Task) (s : Messages ρ)
    (after limit : ℕ) : Page ρ π :=
  let rows := (s.rows.filter (fun row => after < row.1)).take limit
  { latest := (s.rows.map Prod.fst).foldl max 0
    last := ((rows.getLast?).map Prod.fst).getD after
    messages := shownRows instant rows
    asked := ((s.rows.filter (fun row => row.1 ≤ after && row.2.role = text "user")).getLast?).map
      (·.2.id)
    sources := sourcesOf tasks ((keptRows instant rows).map Prod.snd) }

/-- All pages from a position on, each asked for after the last of the one before, up to the
latest message. `none` if that takes more than `fuel` pages. -/
def readOn (instant : Str → Option ℤ) (tasks : List Task) (s : Messages ρ) (limit : ℕ) :
    ℕ → ℕ → Option (List (Shown ρ π))
  | 0, _ => none
  | fuel + 1, after =>
    let page := s.messagesAfter instant tasks after limit
    if page.last = page.latest then some page.messages
    else (s.readOn instant tasks limit fuel page.last).map (page.messages ++ ·)

end Messages

section Notices

structure Repeats (instant : Str → Option ℤ) (notice reply : Message ρ) : Prop where
  isNotice : notice.isNotice = true
  isReply : reply.isReply = true
  sameRun : reply.runId = notice.runId
  together : ∃ at_ ∈ notice.written instant, ∃ later ∈ reply.written instant,
    |later - at_| < sameMoment

variable {instant : Str → Option ℤ} {messages : List (Message ρ)}

theorem mem_repliesOf {run : Str} {at_ : ℤ} :
    at_ ∈ ((repliesOf instant messages).get run).getD [] ↔
      ∃ m ∈ messages, m.isReply = true ∧ m.runId = run ∧ m.written instant = some at_ := by
  -- the fold adds to what the table holds already
  have hfold : ∀ table : Dict Str (List ℤ),
      at_ ∈ ((messages.foldl (noteReply instant) table).get run).getD [] ↔
      at_ ∈ (table.get run).getD [] ∨
        ∃ m ∈ messages, m.isReply = true ∧ m.runId = run ∧ m.written instant = some at_ := by
    induction messages with
    | nil => simp
    | cons m rest ih =>
      intro table
      rw [List.foldl_cons, ih]
      simp only [List.mem_cons, exists_eq_or_imp, noteReply]
      cases hw : m.written instant with
      | none => simp
      | some time =>
        cases hr : m.isReply with
        | false => simp
        | true =>
          simp only [↓reduceIte, Dict.get_set]
          by_cases hrun : m.runId = run
          · subst hrun
            simp only [↓reduceIte, Option.getD_some, List.mem_append, List.mem_singleton,
              true_and, Option.some.injEq]
            rw [or_assoc, eq_comm (a := at_)]
          · simp [hrun]
  rw [repliesOf, hfold]
  simp

theorem mem_duplicateNotices {id : Str} :
    id ∈ duplicateNotices instant messages ↔
      ∃ m ∈ messages, m.id = id ∧ ∃ reply ∈ messages, Repeats instant m reply := by
  simp only [duplicateNotices, List.mem_map, List.mem_filter, Bool.and_eq_true,
    Option.any_eq_true, List.any_eq_true, mem_repliesOf, decide_eq_true_eq]
  constructor
  · rintro ⟨m, ⟨hm, hn, at_, hat, later, ⟨reply, hmem, hr, hrun, hlater⟩, hlt⟩, rfl⟩
    exact ⟨m, hm, rfl, reply, hmem, hn, hr, hrun, at_, hat, later, hlater, hlt⟩
  · rintro ⟨m, hm, rfl, reply, hmem, hn, hr, hrun, at_, hat, later, hlater, hlt⟩
    exact ⟨m, ⟨hm, hn, at_, hat, later, ⟨reply, hmem, hr, hrun, hlater⟩, hlt⟩, rfl⟩

theorem id_mem_duplicateNotices (hid : (messages.map (·.id)).Nodup) {m : Message ρ}
    (hm : m ∈ messages) :
    m.id ∈ duplicateNotices instant messages ↔ ∃ reply ∈ messages, Repeats instant m reply := by
  rw [mem_duplicateNotices]
  constructor
  · rintro ⟨m', hm', he, h⟩
    obtain rfl := List.inj_on_of_nodup_map hid hm' hm he
    exact h
  · exact fun h => ⟨m, hm, rfl, h⟩

theorem duplicateNotices_undiagnosed :
    duplicateNotices instant (messages.map Message.undiagnosed) =
      duplicateNotices instant messages := by
  have hreplies : repliesOf instant (messages.map Message.undiagnosed) =
      repliesOf instant messages := by
    rw [repliesOf, List.foldl_map]
    rfl
  rw [duplicateNotices, duplicateNotices, hreplies, List.filter_map, List.map_map]
  rfl

end Notices

section Reading

variable {instant : Str → Option ℤ} {tasks : List Task} {s : Messages ρ} {limit : ℕ}

theorem latest_concat {seqs : List ℕ} {x : ℕ} (h : (seqs ++ [x]).Pairwise (· < ·)) :
    (seqs ++ [x]).foldl max 0 = x := by
  have hbelow : ∀ y ∈ seqs, y < x := fun y hy =>
    (List.pairwise_append.mp h).2.2 y hy x (List.mem_singleton_self x)
  have hmax : ∀ l : List ℕ, (∀ y ∈ l, y < x) → ∀ a ≤ x, l.foldl max a ≤ x := by
    intro l
    induction l with
    | nil => exact fun _ _ ha => ha
    | cons y l ih =>
      intro hl a ha
      have hy : y < x := hl y List.mem_cons_self
      exact ih (fun z hz => hl z (List.mem_cons_of_mem _ hz)) _ (max_le ha hy.le)
  rw [List.foldl_append, List.foldl_cons, List.foldl_nil]
  exact max_eq_right (hmax seqs hbelow 0 (Nat.zero_le x))

theorem Messages.rows_after {pre rest : List (ℕ × Message ρ)} {after : ℕ}
    (hrows : s.rows = pre ++ rest) (hpre : ∀ row ∈ pre, row.1 ≤ after)
    (hrest : ∀ row ∈ rest, after < row.1) : s.rows.filter (fun row => after < row.1) = rest := by
  rw [hrows, List.filter_append]
  have hnone : pre.filter (fun row => decide (after < row.1)) = [] := by
    apply List.filter_eq_nil_iff.mpr
    intro row hrow
    have := hpre row hrow
    simp only [decide_eq_true_eq]
    omega
  have hall : rest.filter (fun row => decide (after < row.1)) = rest := by
    apply List.filter_eq_self.mpr
    intro row hrow
    exact decide_eq_true (hrest row hrow)
  rw [hnone, hall, List.nil_append]

theorem Messages.readOn_gives (hlimit : 0 < limit) {pre rest : List (ℕ × Message ρ)} {after : ℕ}
    (hrows : s.rows = pre ++ rest) (hpre : ∀ row ∈ pre, row.1 ≤ after)
    (hrest : ∀ row ∈ rest, after < row.1) (hne : rest ≠ []) :
    Gives (fun fuel => s.readOn instant tasks limit fuel after)
      ((Pages.split limit rest).flatMap (Messages.shownRows instant) : List (Shown ρ π)) := by
  -- by induction on the rows that are still to be read
  induction hlen : rest.length using Nat.strongRecOn generalizing pre rest after with
  | _ n ih =>
    obtain ⟨init, x, hpage⟩ : ∃ init x, rest.take limit = init ++ [x] := by
      rcases List.eq_nil_or_concat (rest.take limit) with h | ⟨init, x, h⟩
      · rcases List.take_eq_nil_iff.mp h with h | h
        · omega
        · exact absurd h hne
      · exact ⟨init, x, by rw [h, List.concat_eq_append]⟩
    have hsplit : rest = (init ++ [x]) ++ rest.drop limit := by
      rw [← hpage, List.take_append_drop]
    have hord : (s.rows.map Prod.fst).Pairwise (· < ·) := s.ordered
    have hafter : s.rows.filter (fun row => after < row.1) = rest :=
      Messages.rows_after hrows hpre hrest
    refine .succ ?_
    simp only [Messages.readOn, Messages.messagesAfter, hafter, hpage,
      List.getLast?_concat, Option.map_some, Option.getD_some]
    rw [Pages.split_of_ne_nil hlimit hne, List.flatMap_cons, hpage]
    by_cases hmore : rest.drop limit = []
    -- the last page: its last row is the latest
    · have hlatest : (s.rows.map Prod.fst).foldl max 0 = x.1 := by
        rw [hrows, hsplit, hmore, List.append_nil, ← List.append_assoc, List.map_append,
          List.map_singleton] at hord ⊢
        exact latest_concat hord
      simp only [hlatest, ↓reduceIte]
      rw [hmore, Pages.split_nil hlimit, List.flatMap_nil, List.append_nil]
      exact .pure _
    · obtain ⟨front, y, hy⟩ := (List.eq_nil_or_concat (rest.drop limit)).resolve_left hmore
      rw [List.concat_eq_append] at hy
      have hparts : s.rows = (pre ++ (init ++ [x])) ++ rest.drop limit := by
        rw [List.append_assoc, ← hsplit, hrows]
      have hapart := hord
      rw [hparts, List.map_append, List.pairwise_append] at hapart
      have hbelow : ∀ row ∈ pre ++ (init ++ [x]), row.1 ≤ x.1 := by
        have hfirst := hapart.1
        rw [← List.append_assoc, List.map_append, List.map_singleton] at hfirst
        intro row hrow
        rw [← List.append_assoc] at hrow
        rcases List.mem_append.mp hrow with hrow | hrow
        · exact ((List.pairwise_append.mp hfirst).2.2 row.1 (List.mem_map_of_mem hrow) x.1
            (List.mem_singleton_self _)).le
        · rw [List.mem_singleton.mp hrow]
      have habove : ∀ row ∈ rest.drop limit, x.1 < row.1 := fun row hrow =>
        hapart.2.2 x.1 (List.mem_map_of_mem (by simp)) row.1 (List.mem_map_of_mem hrow)
      have hlatest : (s.rows.map Prod.fst).foldl max 0 = y.1 := by
        rw [hparts, hy, ← List.append_assoc, List.map_append, List.map_singleton] at hord ⊢
        exact latest_concat hord
      have hlt : x.1 < y.1 := habove y (by rw [hy]; simp)
      have hshorter : (rest.drop limit).length < n := by
        have : 0 < rest.length := List.length_pos_of_ne_nil hne
        rw [List.length_drop]
        omega
      simp only [hlatest, hlt.ne, ↓reduceIte]
      exact (ih _ hshorter hparts hbelow habove hmore rfl).map _

theorem Messages.readAll_gives (hlimit : 0 < limit) :
    Gives (fun fuel => s.readOn instant tasks limit fuel 0)
      ((Pages.split limit s.rows).flatMap (Messages.shownRows instant) : List (Shown ρ π)) := by
  by_cases hne : s.rows = []
  · refine .succ ?_
    simp only [Messages.readOn, Messages.messagesAfter, hne, Pages.split_nil hlimit,
      List.filter_nil, List.take_nil, List.getLast?_nil, Option.map_none, Option.getD_none,
      List.map_nil, List.foldl_nil, ↓reduceIte]
    exact .pure _
  · have hrows : s.rows = [] ++ s.rows := rfl
    exact Messages.readOn_gives hlimit hrows (fun _ h => absurd h List.not_mem_nil) s.positive hne

theorem Messages.hidden_iff {rows : List (ℕ × Message ρ)} (hid : (rows.map (·.2.id)).Nodup)
    {row : ℕ × Message ρ} (hrow : row ∈ rows) :
    row.2.id ∈ duplicateNotices instant (rows.map Prod.snd) ↔
      ∃ reply ∈ rows, Repeats instant row.2 reply.2 := by
  have hids : ((rows.map Prod.snd).map (·.id)).Nodup := by
    rw [List.map_map]
    exact hid
  rw [id_mem_duplicateNotices hids (List.mem_map_of_mem hrow)]
  constructor
  · rintro ⟨reply, hr, hrep⟩
    obtain ⟨row', hrow', rfl⟩ := List.mem_map.mp hr
    exact ⟨row', hrow', hrep⟩
  · exact fun ⟨reply, hr, hrep⟩ => ⟨reply.2, List.mem_map_of_mem hr, hrep⟩

theorem Messages.conversation_messages (preview : Option (Message ρ) → Str → π) :
    (s.conversation instant preview).map (·.message) =
      (Messages.keptRows instant s.rows).map (·.2.undiagnosed) := by
  have hhidden : duplicateNotices instant (s.rows.map (·.2.undiagnosed)) =
      duplicateNotices instant (s.rows.map Prod.snd) := by
    have hsame := @duplicateNotices_undiagnosed ρ instant (s.rows.map Prod.snd)
    rw [← hsame, List.map_map]
    rfl
  rw [Messages.conversation, List.map_map, withoutDuplicates, hhidden, List.filter_map,
    List.map_map]
  rfl

def Messages.Together (s : Messages ρ) (instant : Str → Option ℤ) (limit : ℕ) : Prop :=
  ∀ page ∈ Pages.split limit s.rows, ∀ notice ∈ page,
    (∃ reply ∈ s.rows, Repeats instant notice.2 reply.2) →
      ∃ reply ∈ page, Repeats instant notice.2 reply.2

theorem Messages.keptRows_pages (hlimit : 0 < limit) (h : s.Together instant limit) :
    (Pages.split limit s.rows).flatMap (Messages.keptRows instant) =
      Messages.keptRows instant s.rows := by
  have hpage : ∀ page ∈ Pages.split limit s.rows, Messages.keptRows instant page =
      page.filter (fun row => row.2.id ∉ duplicateNotices instant (s.rows.map Prod.snd)) := by
    intro page hmem
    have hsub := Pages.sublist_of_mem_split hmem
    have hid : (page.map (·.2.id)).Nodup := s.unique.sublist (hsub.map _)
    apply List.filter_congr
    intro row hrow
    have hiff : row.2.id ∈ duplicateNotices instant (page.map Prod.snd) ↔
        row.2.id ∈ duplicateNotices instant (s.rows.map Prod.snd) := by
      rw [Messages.hidden_iff hid hrow, Messages.hidden_iff s.unique (hsub.subset hrow)]
      constructor
      · exact fun ⟨reply, hr, hrep⟩ => ⟨reply, hsub.subset hr, hrep⟩
      · exact h page hmem row hrow
    simp only [hiff]
  rw [List.flatMap_congr hpage, ← List.filter_flatMap, List.flatMap_id', Pages.flatten_split hlimit,
    Messages.keptRows]

/-- Reading page by page ends. It shows what the whole conversation shows exactly if no page
separates a notice from all the replies that repeat it. -/
theorem paged_conversation (instant : Str → Option ℤ) (tasks : List Task)
    (preview : Option (Message ρ) → Str → π) (s : Messages ρ) {limit : ℕ} (hlimit : 0 < limit) :
    ∃ shown : List (Shown ρ π), Gives (fun fuel => s.readOn instant tasks limit fuel 0) shown ∧
      (shown.map (·.message.undiagnosed) = (s.conversation instant preview).map (·.message) ↔
        s.Together instant limit) := by
  refine ⟨_, Messages.readAll_gives hlimit, ?_⟩
  have hpaged : ((Pages.split limit s.rows).flatMap (Messages.shownRows instant) :
        List (Shown ρ π)).map (·.message.undiagnosed) =
      ((Pages.split limit s.rows).flatMap (Messages.keptRows instant)).map (·.2.undiagnosed) := by
    rw [List.map_flatMap, List.map_flatMap]
    apply List.flatMap_congr
    intro page _
    rw [Messages.shownRows, List.map_map]
    rfl
  rw [hpaged, Messages.conversation_messages]
  constructor
  · intro heq page hpage notice hnotice hrep
    by_contra hnone
    have hsub := Pages.sublist_of_mem_split hpage
    have hid : (page.map (·.2.id)).Nodup := s.unique.sublist (hsub.map _)
    -- the page shows the notice, and the conversation shows no message of its identity
    have hkept : notice ∈ Messages.keptRows instant page := by
      refine List.mem_filter.mpr ⟨hnotice, decide_eq_true ?_⟩
      rwa [Messages.hidden_iff hid hnotice]
    have hmem : notice.2.undiagnosed ∈
        (Messages.keptRows instant s.rows).map (·.2.undiagnosed) := by
      rw [← heq]
      exact List.mem_map_of_mem (List.mem_flatMap.mpr ⟨page, hpage, hkept⟩)
    obtain ⟨row, hrow, he⟩ := List.mem_map.mp hmem
    obtain ⟨hin, hshown⟩ := List.mem_filter.mp hrow
    have hsame : row.2.id = notice.2.id := by
      have hid' := congrArg Message.id he
      exact hid'
    have hhidden : notice.2.id ∈ duplicateNotices instant (s.rows.map Prod.snd) :=
      (Messages.hidden_iff s.unique (hsub.subset hnotice)).mpr hrep
    rw [hsame] at hshown
    exact of_decide_eq_true hshown hhidden
  · intro h
    rw [Messages.keptRows_pages hlimit h]

def announced : List (Message Unit) :=
  [{ id := text "queued-r", role := text "rem", body := text "Started Align UI.", kind := none
     createdAt := some (text "2026-11-01T11:50:45.093+00:00")
     work := some { runId := some (text "r"), title := some (text "Align UI") }
     refersTo := none, diagnostic := none, rest := () },
   { id := text "reply-a", role := text "rem", body := text "Also noted.", kind := none
     createdAt := some (text "2026-11-01T11:50:45.094+00:00")
     work := some { runId := some (text "r"), title := some (text "Align UI") }
     refersTo := none, diagnostic := none, rest := () }]

def clock (stamp : Str) : Option ℤ :=
  if stamp = text "2026-11-01T11:50:45.093+00:00" then some 1793533845093000
  else if stamp = text "2026-11-01T11:50:45.094+00:00" then some 1793533845094000
  else none

def announcedTable : Messages Unit where
  rows := [1, 2].zip announced
  ordered := by decide
  positive := by decide
  unique := by decide

/-- On pages of one message the notice comes back. -/
theorem paged_conversation_differs : ∃ shown : List (Shown Unit Unit),
    announcedTable.readOn clock [] 1 2 0 = some shown ∧
    shown.map (·.message.id) = [text "queued-r", text "reply-a"] ∧
    (announcedTable.conversation clock (fun _ _ => ())).map (·.message.id) = [text "reply-a"] := by
  refine ⟨_, rfl, ?_, ?_⟩ <;> decide

/-- A page that has both agrees with the whole. -/
theorem paged_conversation_agrees : ∃ shown : List (Shown Unit Unit),
    Gives (fun fuel => announcedTable.readOn clock [] 2 fuel 0) shown ∧
    shown.map (·.message.undiagnosed) =
      (announcedTable.conversation clock (fun _ _ => ())).map (·.message) := by
  obtain ⟨shown, hgives, hiff⟩ :=
    @paged_conversation Unit Unit clock [] (fun _ _ => ()) announcedTable 2 (by decide)
  refine ⟨shown, hgives, hiff.mpr ?_⟩
  intro page hpage notice hnotice hrep
  have hwhole : page = announcedTable.rows := List.mem_singleton.mp hpage
  rwa [hwhole]

end Reading

end Raticode.Rem
