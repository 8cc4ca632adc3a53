import Raticode.OrderedDict
import Raticode.PyDocument

/-! `gofer.ui.swarm_store`: the lists of a running swarm are kept in rows of a table, so that an
event of an agent is stored without writing the whole swarm again. -/
namespace Raticode.Swarms
open PyDocument OrderedDict

inductive Field where
  | events | messages | traces | attempts
  deriving DecidableEq

namespace Field

def all : List Field := [.events, .messages, .traces, .attempts]

def name : Field → Str
  | .events => text "events"
  | .messages => text "messages"
  | .traces => text "traces"
  | .attempts => text "attempts"

end Field

inductive Owner where
  | run
  | agent (key : Str)
  deriving DecidableEq

def Owner.name : Owner → Str
  | .run => text "run"
  | .agent key => text "agent:" ++ key

/-- `f"{owner}:{field}"`. -/
def collection (owner : Owner) (field : Field) : Str := owner.name ++ text ":" ++ field.name

structure Item (ρ : Type) where
  id : Option Str
  lastActivityAt : Option Str
  rest : ρ

structure Agent (ρ β : Type) where
  activity : Option Str
  lastActivityAt : Option Str
  attemptId : Option Str
  lists : Field → Option β
  rest : ρ

structure Run (ρ β : Type) where
  id : Str
  agentStates : Dict Str (Agent ρ β)
  distinct : (agentStates.map Prod.fst).Nodup
  lists : Field → Option β
  rest : ρ

structure Swarm (ρ β : Type) where
  updatedAt : Option Str
  run : Option (Run ρ β)
  rest : ρ

variable {ρ β γ η : Type}

def Agent.mapLists (g : Field → β → γ) (a : Agent ρ β) : Agent ρ γ :=
  { activity := a.activity, lastActivityAt := a.lastActivityAt, attemptId := a.attemptId
    lists := fun field => (a.lists field).map (g field), rest := a.rest }

def Run.mapLists (g : Str → β → γ) (r : Run ρ β) : Run ρ γ where
  id := r.id
  agentStates := r.agentStates.map (fun p =>
    (p.1, p.2.mapLists (fun field => g (collection (.agent p.1) field))))
  distinct := by
    rw [List.map_map]
    exact r.distinct
  lists := fun field => (r.lists field).map (g (collection .run field))
  rest := r.rest

def Swarm.mapLists (g : Str → Str → β → γ) (s : Swarm ρ β) : Swarm ρ γ :=
  { updatedAt := s.updatedAt, run := s.run.map (fun r => r.mapLists (g r.id)), rest := s.rest }

/-- The lists that `pack` stores, in its order: those of the run, and those of each agent. -/
def Run.storedLists (r : Run ρ β) : List (Str × β) :=
  ((Owner.run, r.lists) :: r.agentStates.map (fun p => (Owner.agent p.1, p.2.lists))).flatMap
    (fun group => Field.all.filterMap (fun field =>
      (group.2 field).map (fun values => (collection group.1 field, values))))

abbrev Rows (ρ : Type) := List (ℕ × Item ρ)

/-- `swarm_items`: the rows of every run and collection. -/
abbrev Table (ρ : Type) := Str → Str → Rows ρ

/-- `INSERT ... ON CONFLICT DO UPDATE`. -/
def upsert (rows : Rows ρ) (position : ℕ) (item : Item ρ) : Rows ρ :=
  rows.filter (fun row => row.1 < position) ++
    (position, item) :: rows.filter (fun row => position < row.1)

def writeRows (rows : Rows ρ) (values : List (Item ρ)) : Rows ρ :=
  (values.zipIdx.foldl (fun rows p => upsert rows p.2 p.1) rows).filter
    (fun row => row.1 < values.length)

def Table.write (run : Str) (t : Table ρ) (entry : Str × List (Item ρ)) : Table ρ :=
  fun r c => if r = run ∧ c = entry.1 then writeRows (t r c) entry.2 else t r c

structure Store (ρ η : Type) where
  body : Option (Swarm ρ ℕ)
  table : Table ρ
  history : Dict Str η

def Store.empty : Store ρ η := ⟨none, fun _ _ => [], []⟩

/-- `pack`, and the row that `_save` writes. A list stands in the row as its length. -/
def Store.save (swarm : Swarm ρ (List (Item ρ))) (history : List (Str × η)) (s : Store ρ η) :
    Store ρ η where
  body := some (swarm.mapLists (fun _ _ values => values.length))
  table :=
    match swarm.run with
    | none => s.table
    | some run =>
      let written := run.storedLists.foldl (Table.write run.id) s.table
      -- the items of other runs are dropped
      fun r c => if r = run.id then written r c else []
  -- `ON CONFLICT DO NOTHING`
  history := history.foldl (fun h run => h.setDefault run.1 run.2) s.history

def Store.load (s : Store ρ η) : Option (Swarm ρ (List (Item ρ))) :=
  s.body.map (Swarm.mapLists (fun run collection _ => (s.table run collection).map Prod.snd))

/-- `COALESCE(MAX(position), -1) + 1`. -/
def nextPosition (rows : Rows ρ) : ℕ := (rows.map (fun row => row.1 + 1)).foldl max 0

/-- `json_set(body, '$.lastActivityAt', timestamp)` where the id is that of the attempt. -/
def Item.stamp (attemptId : Option Str) (timestamp : Str) (item : Item ρ) : Item ρ :=
  if attemptId.isSome ∧ item.id = attemptId then { item with lastActivityAt := some timestamp }
  else item

def Run.updateAgent (key : Str) (f : Agent ρ β → Agent ρ β) (r : Run ρ β) : Run ρ β :=
  { r with
    agentStates := r.agentStates.map (fun p => (p.1, if p.1 = key then f p.2 else p.2))
    distinct := by
      rw [List.map_map]
      exact r.distinct }

/-- An event of an agent: `said` is `str(event.get("text", ""))`. -/
structure Event (ρ : Type) where
  agent : Str
  said : Str
  item : Item ρ
  timestamp : Str

/-- `state.update(activity=..., lastActivityAt=...)` and the new value of `traces`. -/
def Agent.active (e : Event ρ) (traces : β) (a : Agent ρ β) : Agent ρ β :=
  { a with
    activity := some (e.said.take 1000)
    lastActivityAt := some e.timestamp
    lists := fun field => if field = .traces then some traces else a.lists field }

def Store.tracesOf (s : Store ρ η) (e : Event ρ) (run : Str) : Rows ρ :=
  s.table run (collection (.agent e.agent) .traces)

def Store.itemsAfter (s : Store ρ η) (e : Event ρ) (run : Str) (attemptId : Option Str) :
    Table ρ :=
  let rows := s.tracesOf e run
  let position := nextPosition rows
  fun r c =>
    if r = run ∧ c = collection (.agent e.agent) .traces then
      (upsert rows position e.item).filter (fun row => position - 99 ≤ row.1)
    else if r = run ∧ c = collection .run .attempts then
      (s.table r c).map (fun row => (row.1, row.2.stamp attemptId e.timestamp))
    else s.table r c

/-- `activity`, `none` where it raises and the transaction is rolled back. -/
def Store.activity (e : Event ρ) (s : Store ρ η) : Option (Store ρ η) :=
  s.body.bind (fun body => body.run.bind (fun run =>
    (run.agentStates.get e.agent).map (fun state =>
      let stored := min 100 (nextPosition (s.tracesOf e run.id) + 1)
      { s with
        body := some { body with
          updatedAt := some e.timestamp
          run := some (run.updateAgent e.agent (Agent.active e stored)) }
        table := s.itemsAfter e run.id state.attemptId })))

inductive Call (ρ η : Type) where
  | save (swarm : Swarm ρ (List (Item ρ))) (history : List (Str × η))
  | activity (e : Event ρ)

def Store.step (s : Store ρ η) : Call ρ η → Store ρ η
  | .save swarm history => s.save swarm history
  | .activity e => (s.activity e).getD s

end Raticode.Swarms
