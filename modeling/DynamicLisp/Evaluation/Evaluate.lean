import DynamicLisp.Evaluation.Intrinsic
import DynamicLisp.Evaluation.Struct

/-! The evaluator. Identifiers are looked up in the scopes that are open at the moment. -/
namespace DynamicLisp

/-- The mark of identifiers that skip the innermost scope. -/
def superMark : String := "#super:"

/-- The name behind the mark, if there is the mark. -/
def superName? (name : String) : Option String :=
  if superMark.toList.isPrefixOf name.toList then
    some (String.ofList (name.toList.drop superMark.length))
  else none

/-- The value of an identifier, and the name to report if it has none. -/
def Environment.resolve (e : Environment) (name : String) : Except LispError Datum :=
  match superName? name with
  | some outer => (e.getSuper? outer).elim (.error (.unbound outer)) .ok
  | none => (e.get? name).elim (.error (.unbound name)) .ok

/-- Evaluates expressions from left to right. -/
def evaluateAll (evaluate : Evaluator) : List Datum → Action (List Datum)
  | [] => return []
  | d :: ds => do
    let v ← evaluate d
    let vs ← evaluateAll evaluate ds
    return v :: vs

theorem mapM_eq_evaluateAll (evaluate : Evaluator) (ds : List Datum) :
    ds.mapM evaluate = evaluateAll evaluate ds := by
  induction ds with
  | nil => rfl
  | cons d ds ih => simp [evaluateAll, ih]

/-- Calls the value of the head of a form on the expressions behind it. -/
def call (evaluate : Evaluator) (head : Datum) (exprs : List Datum) : Action Datum :=
  match head with
  | .closure params variadic body => do
    let args ← evaluateAll evaluate exprs
    applyClosure evaluate params variadic body args
  | .intrinsic f => do
    let args ← evaluateAll evaluate exprs
    f.run evaluate args
  | .special f => f.run evaluate exprs
  | d => Action.fail (.notA .function d.display)

/-- One level of evaluation. -/
def evaluateWith (evaluate : Evaluator) : Evaluator
  | .symbol s => do
    let e ← Action.environment
    let v ← e.resolve s.name
    return v
  | .list [] => return .empty
  | .list (head :: exprs) => do
    let f ← evaluate head
    call evaluate f exprs
  | .quote d => return d.toValue
  | .nil => return .empty
  | d => return d

/-- Evaluates an expression in at most `limit` levels. -/
def evaluate : Nat → Evaluator
  | 0, _ => Action.stop .runaway
  | limit + 1, d => evaluateWith (evaluate limit) d

end DynamicLisp
