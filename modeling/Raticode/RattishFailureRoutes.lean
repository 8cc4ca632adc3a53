import Raticode.RattishResolve

/-! Failure routes: what `_predicate_can_match_failure` finds in the condition of a
route, and when that condition can hold after a success. -/
namespace Raticode.Rattish
open OrderedDict

namespace Ast.Predicate

mutual
/-- `_predicate_can_match_failure`. -/
def canMatchFailure : Ast.Predicate → Bool
  | .status _ succeeded _ => !succeeded
  | .logical _ _ left right _ => canMatchFailure left || canMatchFailure right
  | .group operand _ => canMatchFailure operand
  | .not _ operand _ => canMatchSuccess operand
  | _ => false

/-- `_predicate_can_match_success`. -/
def canMatchSuccess : Ast.Predicate → Bool
  | .status _ succeeded _ => succeeded
  | .logical _ _ left right _ => canMatchSuccess left || canMatchSuccess right
  | .group operand _ => canMatchSuccess operand
  | .not _ operand _ => canMatchFailure operand
  | _ => false
end

end Ast.Predicate

mutual
def predicateMatchesFailure : Predicate → Bool
  | .status succeeded => !succeeded
  | .logical _ left right => predicateMatchesFailure left || predicateMatchesFailure right
  | .not operand => predicateMatchesSuccess operand
  | _ => false

def predicateMatchesSuccess : Predicate → Bool
  | .status succeeded => succeeded
  | .logical _ left right => predicateMatchesSuccess left || predicateMatchesSuccess right
  | .not operand => predicateMatchesFailure operand
  | _ => false
end

theorem matches_lowered {consumer : Draft} {drafts : Dict NodeId Draft} {p : Ast.Predicate}
    {q : Predicate} (h : lowerPredicate consumer drafts p = some q) :
    predicateMatchesFailure q = p.canMatchFailure ∧ predicateMatchesSuccess q = p.canMatchSuccess := by
  induction p generalizing q with
  | logical operator source left right span ihl ihr =>
    simp only [lowerPredicate, bind, Option.bind_eq_some_iff, pure, Option.some.injEq] at h
    obtain ⟨l, hl, r, hr, rfl⟩ := h
    have hleft := ihl hl
    have hright := ihr hr
    simp only [predicateMatchesFailure, predicateMatchesSuccess, Ast.Predicate.canMatchFailure,
      Ast.Predicate.canMatchSuccess, hleft, hright, and_self]
  | not source operand span ih =>
    simp only [lowerPredicate, bind, Option.bind_eq_some_iff, pure, Option.some.injEq] at h
    obtain ⟨o, ho, rfl⟩ := h
    have hoperand := ih ho
    simp only [predicateMatchesFailure, predicateMatchesSuccess, Ast.Predicate.canMatchFailure,
      Ast.Predicate.canMatchSuccess, hoperand, and_self]
  | group operand span ih =>
    have hoperand := ih h
    simpa only [Ast.Predicate.canMatchFailure, Ast.Predicate.canMatchSuccess] using hoperand
  | status source succeeded span =>
    obtain rfl := Option.some.inj h
    simp [predicateMatchesFailure, predicateMatchesSuccess, Ast.Predicate.canMatchFailure,
      Ast.Predicate.canMatchSuccess]
  | _ =>
    -- a data test says nothing about the outcome on either side
    simp only [lowerPredicate, bind, Option.bind_eq_some_iff, pure, Option.some.injEq] at h
    grind [predicateMatchesFailure, predicateMatchesSuccess, Ast.Predicate.canMatchFailure,
      Ast.Predicate.canMatchSuccess]

namespace Predicate

mutual
/-- False after every success by its outcome tests alone: of a disjunction both sides, of a
conjunction one. -/
def failsOnSuccess : Predicate → Bool
  | .status succeeded => !succeeded
  | .logical .and left right => failsOnSuccess left || failsOnSuccess right
  | .logical .or left right => failsOnSuccess left && failsOnSuccess right
  | .not operand => holdsOnSuccess operand
  | _ => false

/-- True after every success by its outcome tests alone. -/
def holdsOnSuccess : Predicate → Bool
  | .status succeeded => succeeded
  | .logical .and left right => holdsOnSuccess left && holdsOnSuccess right
  | .logical .or left right => holdsOnSuccess left || holdsOnSuccess right
  | .not operand => failsOnSuccess operand
  | _ => false
end

def decidedOnSuccess : Bool → Predicate → Bool
  | true, p => p.holdsOnSuccess
  | false, p => p.failsOnSuccess

/-- The data tests of a condition, in order. -/
def dataTests : Predicate → List Predicate
  | .logical _ left right => left.dataTests ++ right.dataTests
  | .not operand => operand.dataTests
  | .status _ => []
  | test => [test]

end Predicate

def NeverOnSuccess (engine : Engine) (q : Predicate) : Prop :=
  ∀ env scope, env.toEngine = engine → evaluatePredicate env scope .success q = false

/-- The data tests of a condition can be answered in every combination. -/
def Answerable (engine : Engine) (q : Predicate) : Prop :=
  ∀ answers : List Bool, answers.length = q.dataTests.length → ∃ env scope, env.toEngine = engine ∧
    q.dataTests.map (evaluatePredicate env scope .success) = answers

theorem evaluate_of_decided {env : Env} {scope : Scope} {p : Predicate} {b : Bool}
    (h : p.decidedOnSuccess b = true) : evaluatePredicate env scope .success p = b := by
  induction p generalizing b with
  | logical operator left right ihl ihr =>
    cases operator <;> cases b <;>
      simp only [Predicate.decidedOnSuccess, Predicate.holdsOnSuccess, Predicate.failsOnSuccess,
        Bool.and_eq_true, Bool.or_eq_true] at h
    case and.false =>
      rw [evaluatePredicate, Bool.and_eq_false_iff]
      exact h.imp (fun h => ihl h) (fun h => ihr h)
    case and.true => rw [evaluatePredicate, ihl (b := true) h.1, ihr (b := true) h.2, Bool.and_self]
    case or.false => rw [evaluatePredicate, ihl (b := false) h.1, ihr (b := false) h.2, Bool.or_self]
    case or.true =>
      rw [evaluatePredicate, Bool.or_eq_true]
      exact h.imp (fun h => ihl h) (fun h => ihr h)
  | not operand ih =>
    have hoperand : operand.decidedOnSuccess (!b) = true := by
      cases b
      · exact h
      · exact h
    rw [evaluatePredicate, ih hoperand, Bool.not_not]
  | status succeeded =>
    cases succeeded <;> cases b <;>
      simp_all [Predicate.decidedOnSuccess, Predicate.holdsOnSuccess, Predicate.failsOnSuccess,
        evaluatePredicate]
  | _ => cases b <;> simp [Predicate.decidedOnSuccess, Predicate.holdsOnSuccess,
      Predicate.failsOnSuccess] at h

theorem exists_undecided (p : Predicate) : ∃ b, p.decidedOnSuccess (!b) = false := by
  cases htrue : p.decidedOnSuccess true with
  | false => exact ⟨false, htrue⟩
  | true =>
    refine ⟨true, ?_⟩
    by_contra hfalse
    have heval : evaluatePredicate (envOf []) emptyScope .success p = false :=
      evaluate_of_decided (Bool.eq_true_of_not_eq_false hfalse)
    rw [evaluate_of_decided htrue] at heval
    cases heval

/-- A condition that its outcome tests do not make false can be made true by answers to its data
tests, and the other way round. -/
theorem exists_answers {p : Predicate} {b : Bool} (h : p.decidedOnSuccess (!b) = false) :
    ∃ answers : List Bool, answers.length = p.dataTests.length ∧ ∀ (env : Env) (scope : Scope),
      p.dataTests.map (evaluatePredicate env scope .success) = answers →
        evaluatePredicate env scope .success p = b := by
  induction p generalizing b with
  | logical operator left right ihl ihr =>
    -- One side may have to be answered for both, the other then as it comes.
    have hboth : ∀ {c d : Bool}, left.decidedOnSuccess (!c) = false →
        right.decidedOnSuccess (!d) = false → ∃ answers : List Bool,
          answers.length = (Predicate.logical operator left right).dataTests.length ∧
          ∀ (env : Env) (scope : Scope), (Predicate.logical operator left right).dataTests.map
              (evaluatePredicate env scope .success) = answers →
            evaluatePredicate env scope .success left = c ∧
              evaluatePredicate env scope .success right = d := by
      intro c d hc hd
      obtain ⟨ls, hls, hleft⟩ := ihl hc
      obtain ⟨rs, hrs, hright⟩ := ihr hd
      refine ⟨ls ++ rs, by simp [Predicate.dataTests, hls, hrs], fun env scope heq => ?_⟩
      rw [Predicate.dataTests, List.map_append] at heq
      obtain ⟨hl, hr⟩ := List.append_inj heq (by rw [List.length_map, hls])
      exact ⟨hleft env scope hl, hright env scope hr⟩
    cases operator <;> cases b <;>
      simp only [Predicate.decidedOnSuccess, Predicate.holdsOnSuccess, Predicate.failsOnSuccess,
        Bool.not_true, Bool.not_false, Bool.and_eq_false_iff, Bool.or_eq_false_iff] at h
    case and.true =>
      obtain ⟨answers, hlength, heval⟩ := hboth (c := true) (d := true) h.1 h.2
      refine ⟨answers, hlength, fun env scope heq => ?_⟩
      rw [evaluatePredicate, (heval env scope heq).1, (heval env scope heq).2, Bool.and_self]
    case or.false =>
      obtain ⟨answers, hlength, heval⟩ := hboth (c := false) (d := false) h.1 h.2
      refine ⟨answers, hlength, fun env scope heq => ?_⟩
      rw [evaluatePredicate, (heval env scope heq).1, (heval env scope heq).2, Bool.or_self]
    case and.false =>
      rcases h with hleft | hright
      · obtain ⟨d, hd⟩ := exists_undecided right
        obtain ⟨answers, hlength, heval⟩ := hboth (c := false) hleft hd
        refine ⟨answers, hlength, fun env scope heq => ?_⟩
        rw [evaluatePredicate, (heval env scope heq).1, Bool.false_and]
      · obtain ⟨c, hc⟩ := exists_undecided left
        obtain ⟨answers, hlength, heval⟩ := hboth (d := false) hc hright
        refine ⟨answers, hlength, fun env scope heq => ?_⟩
        rw [evaluatePredicate, (heval env scope heq).2, Bool.and_false]
    case or.true =>
      rcases h with hleft | hright
      · obtain ⟨d, hd⟩ := exists_undecided right
        obtain ⟨answers, hlength, heval⟩ := hboth (c := true) hleft hd
        refine ⟨answers, hlength, fun env scope heq => ?_⟩
        rw [evaluatePredicate, (heval env scope heq).1, Bool.true_or]
      · obtain ⟨c, hc⟩ := exists_undecided left
        obtain ⟨answers, hlength, heval⟩ := hboth (d := true) hc hright
        refine ⟨answers, hlength, fun env scope heq => ?_⟩
        rw [evaluatePredicate, (heval env scope heq).2, Bool.or_true]
  | not operand ih =>
    have hoperand : operand.decidedOnSuccess (!(!b)) = false := by
      cases b
      · exact h
      · exact h
    obtain ⟨answers, hlength, heval⟩ := ih hoperand
    refine ⟨answers, hlength, fun env scope heq => ?_⟩
    rw [evaluatePredicate, heval env scope heq, Bool.not_not]
  | status succeeded =>
    refine ⟨[], rfl, fun env scope _ => ?_⟩
    cases succeeded <;> cases b <;>
      simp_all [Predicate.decidedOnSuccess, Predicate.holdsOnSuccess, Predicate.failsOnSuccess,
        evaluatePredicate]
  | _ =>
    refine ⟨[b], rfl, fun env scope heq => ?_⟩
    exact List.singleton_injective heq

/-- A condition that the compiler takes for one of failures holds after no success if its outcome
tests alone make it false then, and where its data tests can be answered in every combination only
if they do. -/
theorem failure_route_justified_iff {consumer : Draft} {drafts : Dict NodeId Draft}
    {p : Ast.Predicate} {q : Predicate} (hlower : lowerPredicate consumer drafts p = some q)
    (hfailure : p.canMatchFailure = true) (engine : Engine) :
    (q.failsOnSuccess = true → predicateMatchesFailure q = true ∧ NeverOnSuccess engine q) ∧
      (Answerable engine q →
        (predicateMatchesFailure q = true ∧ NeverOnSuccess engine q ↔ q.failsOnSuccess = true)) := by
  have hmatches : predicateMatchesFailure q = true := (matches_lowered hlower).1.trans hfailure
  have henough : q.failsOnSuccess = true → predicateMatchesFailure q = true ∧ NeverOnSuccess engine q :=
    fun h => ⟨hmatches, fun env scope _ => evaluate_of_decided h⟩
  refine ⟨henough, fun hanswers => ⟨fun h => ?_, henough⟩⟩
  by_contra hopen
  obtain ⟨answers, hlength, htrue⟩ := exists_answers (p := q) (b := true) (Bool.eq_false_of_not_eq_true hopen)
  obtain ⟨env, scope, hengine, heq⟩ := hanswers answers hlength
  have hfalse := h.2 env scope hengine
  rw [htrue env scope heq] at hfalse
  cases hfalse

section Flag

def flagReference : Ast.Reference :=
  ⟨word "input", [.dot "flag".toList .identifier somewhere], somewhere⟩

/-- `failed and input.flag` -/
def failedAndFlag : Ast.Predicate :=
  .logical .and "and".toList (.status "failed".toList false somewhere)
    (.reference flagReference somewhere) somewhere

/-- `failed or input.flag` -/
def failedOrFlag : Ast.Predicate :=
  .logical .or "or".toList (.status "failed".toList false somewhere)
    (.reference flagReference somewhere) somewhere

def booleanSchema : Keywords Schema := { type := some (.single .boolean) }

/-- A node of a workflow with the Boolean input `flag`. -/
def flagReader : Draft := { reader with workflowInputs := [("flag", booleanSchema)] }

def flagRead : Reference := ⟨.input, some "flag", none, [], false⟩

theorem lower_flagReference :
    lowerReference flagReader [] flagReference = some (flagRead, booleanSchema) := by
  have hroot : String.ofList (word "input").canonical = "input" := by decide
  have hsymbol : (Ast.RefSelector.dot "flag".toList .identifier somewhere).symbol = "flag" := by decide
  have hinput : Dict.get flagReader.workflowInputs "flag" = some booleanSchema := by rfl
  simp only [lowerReference, flagReference, hroot, hsymbol, hinput, lowerPath, flagRead,
    Option.getD_some]

theorem lower_failedAndFlag : lowerPredicate flagReader [] failedAndFlag =
    some (.logical .and (.status false) (.reference flagRead)) := by
  simp [failedAndFlag, lowerPredicate, lower_flagReference, lowerLogical]

theorem failure_route_justified_failedAndFlag :
    predicateMatchesFailure (.logical .and (.status false) (.reference flagRead)) = true ∧
      NeverOnSuccess (envOf []).toEngine (.logical .and (.status false) (.reference flagRead)) :=
  (failure_route_justified_iff lower_failedAndFlag (by decide) _).1 (by decide)

/-- A failure that is joined by `or` is taken for one although the other side holds after a
success. -/
theorem failure_route_unjustified_failedOrFlag :
    failedOrFlag.canMatchFailure = true ∧
      lowerPredicate flagReader [] failedOrFlag =
        some (.logical .or (.status false) (.reference flagRead)) ∧
      predicateMatchesFailure (.logical .or (.status false) (.reference flagRead)) = true ∧
      evaluatePredicate (envOf [("flag", .bool true)]) emptyScope .success
        (.logical .or (.status false) (.reference flagRead)) = true := by
  refine ⟨by decide, ?_, by decide, by decide +kernel⟩
  simp [failedOrFlag, lowerPredicate, lower_flagReference, lowerLogical]

end Flag

end Raticode.Rattish
