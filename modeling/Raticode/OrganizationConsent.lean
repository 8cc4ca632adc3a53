import Mathlib.Data.List.Nodup
import Raticode.OrganizationTasks

/-! `escalation`: the changes of a configuration that Rem may not make without the user's consent. -/
namespace Raticode.Organizations
open PyDocument OrderedDict

def readOnlyModes : List Str := [text "read-only", text "plan"]

def indexed {α : Type} (key : α → Str) (xs : List α) : Dict Str α :=
  xs.foldl (fun d x => Dict.set d (key x) x) []

/-- `set(after) - set(before)` is not empty. -/
def gains {α : Type} [DecidableEq α] (before after : List α) : Bool :=
  after.any (fun x => !before.contains x)

def raised (old new : ℚ) : Bool := old ≠ 0 && (new = 0 || decide (old < new))

/-- `_loosened`, over `OPEN_ENDED_LIMITS`. -/
def loosened (before after : Limits) : List String :=
  (if raised before.monthlyTurnLimit after.monthlyTurnLimit then ["monthlyTurnLimit"] else []) ++
    (if raised before.monthlyTokenLimit after.monthlyTokenLimit then ["monthlyTokenLimit"] else []) ++
    if raised before.monthlyBudgetUsd after.monthlyBudgetUsd then ["monthlyBudgetUsd"] else []

/-- One of `COMPANY_CAPS` was raised. -/
def raisesCaps (before after : Caps) : Bool :=
  decide (before.maxTaskTurns < after.maxTaskTurns) ||
    decide (before.maxConcurrency < after.maxConcurrency) ||
    decide (before.turnTimeoutSeconds < after.turnTimeoutSeconds) ||
    decide (before.maxChildTasksPerTurn < after.maxChildTasksPerTurn) ||
    decide (before.maxDelegationDepth < after.maxDelegationDepth)

def toolNames (r : AgentResources) : List Str :=
  (if r.shell then [text "shell"] else []) ++ (if r.web then [text "web"] else []) ++
    (if r.agents then [text "agents"] else []) ++ (if r.browser then [text "browser"] else []) ++
    r.mcpServers.map (fun s => text "mcp:" ++ s.name) ++
    r.skills.map (fun s => text "skill:" ++ s.path)

def absent : Employee where
  id := []
  name := []
  permissionMode := text "read-only"
  paused := true
  workspacePaths := some []

def reasonIf (widens : Bool) (reason : String) : List String := if widens then [reason] else []

def widensFolders (previous employee : Employee) : Bool :=
  previous.id ≠ [] && ((employee.workspacePaths.isNone && previous.workspacePaths.isSome) ||
    gains (previous.workspacePaths.getD []) (employee.workspacePaths.getD []))

def widensTickets (previous employee : Employee) : Bool :=
  previous.id ≠ [] && previous.ticketAccess.any (fun old =>
    employee.ticketAccess.all (fun access =>
      access.any (fun p => gains ((old.get p.1).getD []) p.2)))

def wakesMore (previous employee : Employee) : Bool :=
  employee.heartbeatSeconds ≠ 0 && (previous.heartbeatSeconds = 0 ||
    decide (employee.heartbeatSeconds < previous.heartbeatSeconds))

def employeeReasons (old : Dict Str Employee) (employee : Employee) : List String :=
  let name := words (if employee.name = [] then employee.id else employee.name)
  let known := old.get employee.id
  let previous := known.getD absent
  reasonIf (known.isNone && !employee.paused) ("add " ++ name ++ " as an active employee") ++
    reasonIf (known.isSome && previous.paused && !employee.paused) ("resume " ++ name) ++
    reasonIf (employee.permissionMode ≠ previous.permissionMode &&
        !readOnlyModes.contains employee.permissionMode)
      ("change " ++ name ++ "'s permissions to " ++ words employee.permissionMode) ++
    reasonIf (gains (toolNames previous.resources) (toolNames employee.resources))
      ("give " ++ name ++ " more tools") ++
    reasonIf (gains previous.skills employee.skills) ("give " ++ name ++ " more skills") ++
    reasonIf (widensFolders previous employee) ("let " ++ name ++ " work in more folders") ++
    reasonIf (gains previous.secretRefs employee.secretRefs) ("grant credentials to " ++ name) ++
    reasonIf (widensTickets previous employee) ("let " ++ name ++ " do more with tickets") ++
    reasonIf (loosened previous.limits employee.limits ≠ [])
      ("raise or remove " ++ name ++ "'s monthly limits") ++
    reasonIf (wakesMore previous employee) ("wake " ++ name ++ " more often")

def noInitiative : Initiative where
  id := []

variable (hoursWiden : OperatingHours → OperatingHours → Bool)

/-- The reasons of `escalation`; `hoursWiden` compares the operating hours. -/
def escalationReasons (before after : OrganizationConfig) : List String :=
  let old := indexed Employee.id before.employees
  let initiatives := indexed Initiative.id before.projects
  let previous := fun p : Initiative => (initiatives.get p.id).getD noInitiative
  let targets := indexed ExecutionTarget.id before.executionTargets
  after.employees.flatMap (employeeReasons old) ++
    reasonIf (loosened before.limits after.limits ≠ [])
      "raise or remove the organization's monthly limits" ++
    reasonIf (raisesCaps before.caps after.caps) "raise operating limits" ++
    reasonIf (after.projects.any (fun p => loosened (previous p).limits p.limits ≠ []))
      "raise or remove initiative limits" ++
    reasonIf (gains before.projectRoots after.projectRoots) "add project folders" ++
    reasonIf (after.executionTargets.any (fun t => targets.get t.id ≠ some t))
      "add or change execution destinations" ++
    reasonIf (after.projects.any (fun p =>
        p.checks ≠ (previous p).checks && p.checks.any (fun c => !(previous p).checks.contains c)))
      "add commands Raticode runs to check claims" ++
    reasonIf (after.projects.any (fun p => p.autoRunChecks && !(previous p).autoRunChecks))
      "rerun project checks automatically after every run" ++
    reasonIf (after.knowledgeToSecondBrain && !before.knowledgeToSecondBrain)
      "write organization knowledge into the Second Brain folder" ++
    reasonIf (after.sharedRepository && !before.sharedRepository)
      "give employees a shared organization repository" ++
    reasonIf (hoursWiden before.operatingHours after.operatingHours)
      "let employees work at more hours" ++
    reasonIf (after.resumeAfterRestart && !before.resumeAfterRestart)
      "keep the organization running after Raticode restarts" ++
    reasonIf (before.blockGitPush && !after.blockGitPush) "allow git push" ++
    reasonIf (before.workspaceIsolation = .worktree && after.workspaceIsolation = .checkout)
      "let employees edit the project folder directly"

def escalation (before after : OrganizationConfig) : String :=
  match (escalationReasons hoursWiden before after).eraseDups with
  | [] => ""
  | reasons => "Change settings to " ++ String.intercalate ", " reasons

/-! ### What a configuration grants -/

def LimitKept (old new : ℚ) : Prop := old = 0 ∨ (new ≠ 0 ∧ new ≤ old)

structure LimitsKept (old new : Limits) : Prop where
  turns : LimitKept old.monthlyTurnLimit new.monthlyTurnLimit
  tokens : LimitKept old.monthlyTokenLimit new.monthlyTokenLimit
  budget : LimitKept old.monthlyBudgetUsd new.monthlyBudgetUsd

structure CapsKept (old new : Caps) : Prop where
  turns : new.maxTaskTurns ≤ old.maxTaskTurns
  concurrency : new.maxConcurrency ≤ old.maxConcurrency
  timeout : new.turnTimeoutSeconds ≤ old.turnTimeoutSeconds
  children : new.maxChildTasksPerTurn ≤ old.maxChildTasksPerTurn
  depth : new.maxDelegationDepth ≤ old.maxDelegationDepth

def MayWorkIn (e : Employee) (path : Str) : Prop := ∀ grants, e.workspacePaths = some grants → path ∈ grants

structure ResourcesKept (old new : AgentResources) : Prop where
  shell : new.shell = true → old.shell = true
  web : new.web = true → old.web = true
  agents : new.agents = true → old.agents = true
  browser : new.browser = true → old.browser = true
  servers : ∀ s ∈ new.mcpServers, s.enabled = true → s ∈ old.mcpServers
  skills : ∀ s ∈ new.skills, s.enabled = true → s ∈ old.skills

/-- The new version of an employee may do nothing the old one could not. -/
structure GrantsNoMore (old new : Employee) : Prop where
  mode : new.permissionMode = old.permissionMode ∨ new.permissionMode ∈ readOnlyModes
  resources : ResourcesKept old.resources new.resources
  skills : new.skills ⊆ old.skills
  folders : ∀ path, MayWorkIn new path → MayWorkIn old path
  secrets : new.secretRefs ⊆ old.secretRefs
  tickets : ∀ project action, ticketAllowed new project action = true →
    ticketAllowed old project action = true
  heartbeat : new.heartbeatSeconds = 0 ∨
    (old.heartbeatSeconds ≠ 0 ∧ old.heartbeatSeconds ≤ new.heartbeatSeconds)

/-- No limit is loosened and no employee gains a right. -/
structure GrantsNothingNew (before after : OrganizationConfig) : Prop where
  employees : ∀ e ∈ after.employees, e.paused = false →
    ∃ p ∈ before.employees, p.id = e.id ∧ p.paused = false ∧ GrantsNoMore p e
  employeeLimits : ∀ e ∈ after.employees, ∀ p ∈ before.employees, p.id = e.id →
    LimitsKept p.limits e.limits
  limits : LimitsKept before.limits after.limits
  caps : CapsKept before.caps after.caps
  initiativeLimits : ∀ p ∈ after.projects, ∀ q ∈ before.projects, q.id = p.id →
    LimitsKept q.limits p.limits
  projectRoots : after.projectRoots ⊆ before.projectRoots
  executionTargets : after.executionTargets ⊆ before.executionTargets
  checks : ∀ p ∈ after.projects, ∀ c ∈ p.checks, ∃ q ∈ before.projects, q.id = p.id ∧ c ∈ q.checks

structure Valid (config : OrganizationConfig) : Prop where
  employees : (config.employees.map (·.id)).Nodup
  named : ∀ e ∈ config.employees, e.id ≠ []
  servers : ∀ e ∈ config.employees, (e.resources.mcpServers.map (·.name)).Nodup
  projects : (config.projects.map (·.id)).Nodup

/-- An enabled MCP server that keeps a name keeps its definition, and no skill folder that was
switched off is switched on. -/
structure KeepsDefinitions (old new : AgentResources) : Prop where
  servers : ∀ s ∈ new.mcpServers, s.enabled = true → ∀ s' ∈ old.mcpServers, s'.name = s.name → s' = s
  skills : ∀ s ∈ new.skills, s.enabled = true → ∀ s' ∈ old.skills, s'.path = s.path →
    ∃ s'' ∈ old.skills, s''.path = s.path ∧ s''.enabled = true

/-! ### Reading the comparison -/

section Comparison

theorem get_foldl_set {α : Type} {key : α → Str} {xs : List α} {d : Dict Str α} {k : Str}
    (hk : k ∉ xs.map key) : (xs.foldl (fun d x => Dict.set d (key x) x) d).get k = d.get k := by
  induction xs generalizing d with
  | nil => rfl
  | cons x xs ih =>
    rw [List.map_cons, List.mem_cons, not_or] at hk
    rw [List.foldl_cons, ih hk.2, Dict.get_set_ne _ _ (Ne.symm hk.1)]

theorem get_indexed {α : Type} {key : α → Str} {xs : List α} (hn : (xs.map key).Nodup) {x : α}
    (hx : x ∈ xs) : (indexed key xs).get (key x) = some x := by
  obtain ⟨before, after, rfl⟩ := List.append_of_mem hx
  have hafter : key x ∉ after.map key := by
    simp only [List.map_append, List.map_cons] at hn
    exact (List.nodup_cons.mp (List.nodup_append.mp hn).2.1).1
  rw [indexed, List.foldl_append, List.foldl_cons, get_foldl_set hafter, Dict.get_set_self]

theorem mem_indexed {α : Type} {key : α → Str} {xs : List α} {k : Str} {x : α}
    (h : (indexed key xs).get k = some x) : x ∈ xs ∧ key x = k := by
  have hgeneral : ∀ (d : Dict Str α), (xs.foldl (fun d x => Dict.set d (key x) x) d).get k = some x →
      (x ∈ xs ∧ key x = k) ∨ d.get k = some x := by
    intro d hd
    clear h
    induction xs generalizing d with
    | nil => exact .inr hd
    | cons y ys ih =>
      rcases ih _ hd with ⟨hx, hkey⟩ | hset
      · exact .inl ⟨List.mem_cons_of_mem y hx, hkey⟩
      · rw [Dict.get_set] at hset
        split_ifs at hset with hkey
        · cases hset
          exact .inl ⟨List.mem_cons_self, hkey⟩
        · exact .inr hset
  rcases hgeneral [] h with hx | hnil
  · exact hx
  · contradiction

theorem gains_eq_false {α : Type} [DecidableEq α] {before after : List α} :
    gains before after = false ↔ after ⊆ before := by
  simp [gains, List.subset_def]

@[simp] theorem reasonIf_eq_nil {widens : Bool} {reason : String} :
    reasonIf widens reason = [] ↔ widens = false := by
  cases widens <;> simp [reasonIf]

theorem raised_eq_false {old new : ℚ} : raised old new = false ↔ LimitKept old new := by
  by_cases ho : old = 0
  · simp [raised, LimitKept, ho]
  · simp [raised, LimitKept, ho]

theorem loosened_eq_nil {old new : Limits} : loosened old new = [] ↔ LimitsKept old new := by
  simp only [loosened, List.append_eq_nil_iff]
  constructor
  · rintro ⟨⟨ht, hk⟩, hb⟩
    refine ⟨raised_eq_false.mp ?_, raised_eq_false.mp ?_, raised_eq_false.mp ?_⟩
    · by_contra h
      simp_all
    · by_contra h
      simp_all
    · by_contra h
      simp_all
  · rintro ⟨ht, hk, hb⟩
    simp [raised_eq_false.mpr ht, raised_eq_false.mpr hk, raised_eq_false.mpr hb]

theorem raisesCaps_eq_false {old new : Caps} (h : raisesCaps old new = false) : CapsKept old new := by
  simp only [raisesCaps, Bool.or_eq_false_iff, decide_eq_false_iff_not, not_lt] at h
  obtain ⟨⟨⟨⟨ht, hc⟩, hs⟩, hn⟩, hd⟩ := h
  exact ⟨ht, hc, hs, hn, hd⟩

theorem escalation_eq_empty {hoursWiden : OperatingHours → OperatingHours → Bool}
    {before after : OrganizationConfig} (h : escalation hoursWiden before after = "") :
    escalationReasons hoursWiden before after = [] := by
  simp only [escalation] at h
  cases hr : escalationReasons hoursWiden before after with
  | nil => rfl
  | cons r rs =>
    rw [hr, List.eraseDups_cons] at h
    simp at h

/-! ### One employee -/

theorem mem_toolNames {r : AgentResources} {x : Str} :
    x ∈ toolNames r ↔ (r.shell = true ∧ x = text "shell") ∨ (r.web = true ∧ x = text "web") ∨
      (r.agents = true ∧ x = text "agents") ∨ (r.browser = true ∧ x = text "browser") ∨
      (∃ s ∈ r.mcpServers, text "mcp:" ++ s.name = x) ∨ ∃ s ∈ r.skills, text "skill:" ++ s.path = x := by
  cases hs : r.shell <;> cases hw : r.web <;> cases ha : r.agents <;> cases hb : r.browser <;>
    simp [toolNames, hs, hw, ha, hb]

theorem toolNames_subset {old new : AgentResources} (h : toolNames new ⊆ toolNames old) :
    (new.shell = true → old.shell = true) ∧ (new.web = true → old.web = true) ∧
      (new.agents = true → old.agents = true) ∧ (new.browser = true → old.browser = true) ∧
      (∀ s ∈ new.mcpServers, ∃ s' ∈ old.mcpServers, s'.name = s.name) ∧
      ∀ s ∈ new.skills, ∃ s' ∈ old.skills, s'.path = s.path := by
  refine ⟨fun hn => ?_, fun hn => ?_, fun hn => ?_, fun hn => ?_, fun s hs => ?_, fun s hs => ?_⟩
  · have hold := mem_toolNames.mp (h (mem_toolNames.mpr (.inl ⟨hn, rfl⟩)))
    simpa [text] using hold
  · have hold := mem_toolNames.mp (h (mem_toolNames.mpr (.inr (.inl ⟨hn, rfl⟩))))
    simpa [text] using hold
  · have hold := mem_toolNames.mp (h (mem_toolNames.mpr (.inr (.inr (.inl ⟨hn, rfl⟩)))))
    simpa [text] using hold
  · have hold := mem_toolNames.mp (h (mem_toolNames.mpr (.inr (.inr (.inr (.inl ⟨hn, rfl⟩))))))
    simpa [text] using hold
  · have hname : text "mcp:" ++ s.name ∈ toolNames new :=
      mem_toolNames.mpr (.inr (.inr (.inr (.inr (.inl ⟨s, hs, rfl⟩)))))
    simpa [text] using mem_toolNames.mp (h hname)
  · have hname : text "skill:" ++ s.path ∈ toolNames new :=
      mem_toolNames.mpr (.inr (.inr (.inr (.inr (.inr ⟨s, hs, rfl⟩)))))
    simpa [text] using mem_toolNames.mp (h hname)

theorem mayWorkIn_of_widensFolders {old new : Employee} (hid : old.id ≠ [])
    (h : widensFolders old new = false) {path : Str} (hnew : MayWorkIn new path) :
    MayWorkIn old path := by
  intro grants hgrants
  simp only [widensFolders, hid, ne_eq, not_false_eq_true, decide_true, Bool.true_and,
    Bool.or_eq_false_iff, hgrants, Option.isSome_some, Bool.and_true, Option.getD_some,
    gains_eq_false, Option.isNone_eq_false_iff, Option.isSome_iff_exists] at h
  obtain ⟨⟨grants', hgrants'⟩, hsubset⟩ := h
  rw [hgrants', Option.getD_some] at hsubset
  exact hsubset (hnew grants' hgrants')

theorem ticketAllowed_key (project : Option Str) (action : TicketAction) :
    ∃ key, ∀ (e : Employee) (access : Dict Str (List TicketAction)), e.ticketAccess = some access →
      ticketAllowed e project action = ((access.get key).getD []).contains action := by
  cases project with
  | none => exact ⟨text "*", fun e access h => by simp only [ticketAllowed, h]⟩
  | some p => exact ⟨if p = [] then text "*" else p, fun e access h => by simp only [ticketAllowed, h]⟩

theorem ticketAllowed_of_widensTickets {old new : Employee} (hid : old.id ≠ [])
    (h : widensTickets old new = false) {project : Option Str} {action : TicketAction}
    (hnew : ticketAllowed new project action = true) : ticketAllowed old project action = true := by
  cases hold : old.ticketAccess with
  | none => simp [ticketAllowed, hold]
  | some access =>
    cases hafter : new.ticketAccess with
    | none => simp [widensTickets, hid, hold, hafter] at h
    | some access' =>
      simp only [widensTickets, hid, hold, hafter, ne_eq, not_false_eq_true, decide_true,
        Bool.true_and, Option.any_some, Option.all_some, List.any_eq_false, Bool.not_eq_true,
        gains_eq_false] at h
      obtain ⟨key, hallowed⟩ := ticketAllowed_key project action
      rw [hallowed new access' hafter] at hnew
      rw [hallowed old access hold]
      cases hkey : access'.get key with
      | none => simp [hkey] at hnew
      | some actions =>
        rw [hkey, Option.getD_some, List.contains_iff_mem] at hnew
        rw [List.contains_iff_mem]
        exact h (key, actions) (Dict.mem_of_get hkey) hnew

theorem resourcesKept_iff {old new : AgentResources} (h : toolNames new ⊆ toolNames old)
    (hn : (old.mcpServers.map (·.name)).Nodup) :
    ResourcesKept old new ↔ KeepsDefinitions old new := by
  obtain ⟨hshell, hweb, hagents, hbrowser, hservers, hskills⟩ := toolNames_subset h
  constructor
  · intro hkept
    constructor
    · intro s hs henabled s' hs' hname
      exact List.inj_on_of_nodup_map hn hs' (hkept.servers s hs henabled) hname
    · intro s hs henabled s' _ _
      exact ⟨s, hkept.skills s hs henabled, rfl, henabled⟩
  · intro hdefinitions
    refine ⟨hshell, hweb, hagents, hbrowser, fun s hs henabled => ?_, fun s hs henabled => ?_⟩
    · obtain ⟨s', hs', hname⟩ := hservers s hs
      exact hdefinitions.servers s hs henabled s' hs' hname ▸ hs'
    · obtain ⟨s', hs', hpath⟩ := hskills s hs
      obtain ⟨s'', hs'', hpath', henabled'⟩ := hdefinitions.skills s hs henabled s' hs' hpath
      have he : s'' = s := by
        cases s''
        cases s
        simp_all
      exact he ▸ hs''

variable {before after : OrganizationConfig}

theorem employeeReasons_nil (hv : Valid before) {e : Employee}
    (h : employeeReasons (indexed Employee.id before.employees) e = []) (hactive : e.paused = false) :
    ∃ p ∈ before.employees, p.id = e.id ∧ p.paused = false ∧
      toolNames e.resources ⊆ toolNames p.resources ∧
      (ResourcesKept p.resources e.resources → GrantsNoMore p e) := by
  cases hg : (indexed Employee.id before.employees).get e.id with
  | none => simp [employeeReasons, hg, hactive] at h
  | some p =>
    obtain ⟨hp, hid⟩ := mem_indexed hg
    simp only [employeeReasons, hg, hactive, Option.getD_some, Option.isNone_some, Option.isSome_some,
      Bool.not_false, Bool.and_true, Bool.true_and, List.append_eq_nil_iff,
      reasonIf_eq_nil, gains_eq_false] at h
    obtain ⟨⟨⟨⟨⟨⟨⟨⟨⟨-, hpaused⟩, hmode⟩, htools⟩, hskills⟩, hfolders⟩, hsecrets⟩, htickets⟩, -⟩, hbeat⟩ := h
    have hnamed := hv.named p hp
    refine ⟨p, hp, hid, hpaused, htools, fun hresources => ?_⟩
    refine ⟨?_, hresources, hskills, ?_, hsecrets, ?_, ?_⟩
    · by_cases hsame : e.permissionMode = p.permissionMode
      · exact .inl hsame
      · right
        simpa [hsame] using hmode
    · exact fun path hpath => mayWorkIn_of_widensFolders hnamed hfolders hpath
    · exact fun project action hnew => ticketAllowed_of_widensTickets hnamed htickets hnew
    · by_cases hzero : e.heartbeatSeconds = 0
      · exact .inl hzero
      · right
        simpa [wakesMore, hzero] using hbeat

end Comparison

section Consent

variable {hoursWiden : OperatingHours → OperatingHours → Bool} {before after : OrganizationConfig}

theorem eq_of_key {α : Type} {key : α → Str} {xs : List α} (hn : (xs.map key).Nodup) {x y : α}
    (hx : x ∈ xs) (hy : y ∈ xs) (hkey : key x = key y) : x = y :=
  List.inj_on_of_nodup_map hn hx hy hkey

theorem employeeReasons_limits (hv : Valid before) {e p : Employee}
    (h : employeeReasons (indexed Employee.id before.employees) e = []) (hp : p ∈ before.employees)
    (hid : p.id = e.id) : LimitsKept p.limits e.limits := by
  have hg : (indexed Employee.id before.employees).get e.id = some p := hid ▸ get_indexed hv.employees hp
  simp only [employeeReasons, hg, Option.getD_some, List.append_eq_nil_iff, reasonIf_eq_nil] at h
  obtain ⟨⟨-, hlimits⟩, -⟩ := h
  exact loosened_eq_nil.mp (by simpa using hlimits)

theorem checks_kept {p : Initiative}
    (h : (p.checks ≠ (((indexed Initiative.id before.projects).get p.id).getD noInitiative).checks &&
      p.checks.any (fun c =>
        !(((indexed Initiative.id before.projects).get p.id).getD noInitiative).checks.contains c)) = false)
    {c : ProjectCheck} (hc : c ∈ p.checks) : ∃ q ∈ before.projects, q.id = p.id ∧ c ∈ q.checks := by
  have hold : c ∈ (((indexed Initiative.id before.projects).get p.id).getD noInitiative).checks := by
    rcases Bool.and_eq_false_iff.mp h with hsame | hany
    · rw [← of_not_not (of_decide_eq_false hsame)]
      exact hc
    · simpa using List.any_eq_false.mp hany c hc
  cases hg : (indexed Initiative.id before.projects).get p.id with
  | none => simp [hg, noInitiative] at hold
  | some q =>
    obtain ⟨hq, hid⟩ := mem_indexed hg
    rw [hg, Option.getD_some] at hold
    exact ⟨q, hq, hid, hold⟩

/-- Where `escalation` asks for no consent, a configuration grants nothing new exactly where the
enabled MCP servers of every active employee keep their definitions and none of its skill folders
is switched on. -/
theorem escalation_grantsNothingNew (hoursWiden : OperatingHours → OperatingHours → Bool)
    (before after : OrganizationConfig) (hv : Valid before)
    (hempty : escalation hoursWiden before after = "") :
    GrantsNothingNew before after ↔ ∀ e ∈ after.employees, e.paused = false →
      ∀ p ∈ before.employees, p.id = e.id → KeepsDefinitions p.resources e.resources := by
  have h := escalation_eq_empty hempty
  simp only [escalationReasons, List.append_eq_nil_iff, reasonIf_eq_nil, List.flatMap_eq_nil_iff] at h
  obtain ⟨⟨⟨⟨⟨⟨⟨⟨⟨⟨⟨⟨⟨hemployees, hlimits⟩, hcaps⟩, hinitiatives⟩, hroots⟩, htargets⟩, hchecks⟩, -⟩, -⟩,
    -⟩, -⟩, -⟩, -⟩, -⟩ := h
  constructor
  · intro hnothing e he hactive p hp hid
    obtain ⟨q, hq, hqid, -, hmore⟩ := hnothing.employees e he hactive
    obtain rfl : q = p := eq_of_key hv.employees hq hp (hqid.trans hid.symm)
    obtain ⟨p', hp', hid', -, htools, -⟩ := employeeReasons_nil hv (hemployees e he) hactive
    obtain rfl : p' = q := eq_of_key hv.employees hp' hq (hid'.trans hid.symm)
    exact (resourcesKept_iff htools (hv.servers p' hp')).mp hmore.resources
  · intro hdefinitions
    constructor
    · intro e he hactive
      obtain ⟨p, hp, hid, hpaused, htools, hmore⟩ :=
        employeeReasons_nil hv (hemployees e he) hactive
      have hkept := (resourcesKept_iff htools (hv.servers p hp)).mpr (hdefinitions e he hactive p hp hid)
      exact ⟨p, hp, hid, hpaused, hmore hkept⟩
    · exact fun e he p hp hid => employeeReasons_limits hv (hemployees e he) hp hid
    · exact loosened_eq_nil.mp (by simpa using hlimits)
    · exact raisesCaps_eq_false hcaps
    · intro p hp q hq hid
      have hg : (indexed Initiative.id before.projects).get p.id = some q :=
        hid ▸ get_indexed hv.projects hq
      have hp := List.any_eq_false.mp hinitiatives p hp
      simp only [hg, Option.getD_some] at hp
      exact loosened_eq_nil.mp (by simpa using hp)
    · exact gains_eq_false.mp hroots
    · intro t ht
      have hold := List.any_eq_false.mp htargets t ht
      exact (mem_indexed (by simpa using hold)).1
    · intro p hp c hc
      exact checks_kept (Bool.eq_false_iff.mpr (List.any_eq_false.mp hchecks p hp)) hc

end Consent

section Examples

def served (url : String) (web : Bool) : OrganizationConfig where
  employees := [{
    id := text "a"
    name := text "A"
    resources := { web := web, mcpServers := [{ name := text "m", url := text url }] } }]

def sameHours (_ _ : OperatingHours) : Bool := false

theorem served_valid (url : String) (web : Bool) : Valid (served url web) := by
  constructor <;> simp [served, text]

/-- To take a tool away needs no consent, and grants nothing. -/
theorem served_grantsNothingNew :
    GrantsNothingNew (served "http://x" true) (served "http://x" false) := by
  refine (escalation_grantsNothingNew sameHours _ _ (served_valid _ _) (by decide +kernel)).mpr ?_
  intro e he _ p hp _
  obtain rfl := List.mem_singleton.mp he
  obtain rfl := List.mem_singleton.mp hp
  constructor
  · intro s hs _ s' hs' _
    obtain rfl := List.mem_singleton.mp hs
    exact List.mem_singleton.mp hs'
  · intro s hs
    contradiction

/-- Rem may point an MCP server elsewhere under its name without the user's consent. -/
theorem repointed_server_unnoticed :
    ¬ ∀ (hoursWiden : OperatingHours → OperatingHours → Bool) (before after : OrganizationConfig),
      Valid before → Valid after → escalation hoursWiden before after = "" →
        GrantsNothingNew before after := by
  intro hclaim
  have hnothing := hclaim sameHours (served "http://x" true) (served "http://y" true)
    (served_valid _ _) (served_valid _ _) (by decide +kernel)
  obtain ⟨p, hp, -, -, hmore⟩ := hnothing.employees _ (List.mem_singleton.mpr rfl) rfl
  obtain rfl := List.mem_singleton.mp hp
  have hserver := hmore.resources.servers _ (List.mem_singleton.mpr rfl) rfl
  revert hserver
  decide +kernel

end Examples

end Raticode.Organizations
