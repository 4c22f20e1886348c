import DynamicLisp.Datum.Printer
import DynamicLisp.Evaluation.Action

/-! The special forms and the application of closures. Each takes the evaluator as an argument, and
receives the expressions behind the name of its form. -/
namespace DynamicLisp

/-- An evaluator of expressions. -/
abbrev Evaluator := Datum → Action Datum

/-- The bindings of the parameters of a closure, in the order in which they are made. The last
parameter of a variadic closure takes the list of all arguments that are left. -/
def bindArguments (params : List String) (variadic : Bool) (args : List Datum) :
    Except LispError (List (String × Datum)) :=
  match variadic, params.getLast? with
  | true, some last =>
    let leading := params.length - 1
    if args.length < leading then .error (.arity .atLeast leading args.length)
    else .ok (params.dropLast.zip args ++ [(last, .list (args.drop leading))])
  | _, _ =>
    if args.length = params.length then .ok (params.zip args)
    else .error (.arity .exact params.length args.length)

/-- Calls a closure. Its free identifiers are those of the caller. -/
def applyClosure (evaluate : Evaluator) (params : List String) (variadic : Bool) (body : Datum)
    (args : List Datum) : Action Datum :=
  Action.inScope do
    let bindings ← bindArguments params variadic args
    Action.modifyEnvironment (·.update bindings)
    evaluate body

namespace SpecialForm

/-- Names that `define` never binds. -/
def reservedWords : List String := ["define", "define-struct", "begin", "cond", "else", "if", "let"]

def expectExact (n : Nat) (exprs : List Datum) : Except LispError Unit :=
  if exprs.length = n then .ok () else .error (.arity .exact n exprs.length)

/-- The body of a function: one expression as it is, several in a `begin`. -/
def bodyOf : List Datum → Datum
  | [d] => d
  | ds => .list (.name "begin" :: ds)

/-- `(define name value)` binds a name in the innermost scope. `(define (name param ...) body ...)`
stands for `(define name (lambda (param ...) body))`, and is evaluated as that. -/
def runDefine (evaluate : Evaluator) : List Datum → Action Datum
  | .symbol s :: value :: rest => do
    expectExact 2 (.symbol s :: value :: rest)
    if s.name ∈ reservedWords then Action.fail (.reservedWord s.name)
    let d ← evaluate value
    Action.define s.name d
    return .empty
  | .list [] :: _ :: _ => Action.fail .emptyTarget
  | .list (target :: params) :: body :: rest =>
    evaluate (.list [.name "define", target,
      .list [.name "lambda", .list params, bodyOf (body :: rest)]])
  | target :: _ :: _ => Action.fail (.notAnIdentifier target.source)
  | exprs => Action.fail (.arity .atLeast 2 exprs.length)

/-- The names of parameters, and whether the last one is variadic. -/
def parameters : List Datum → Except LispError (List String × Bool)
  | [] => .ok ([], false)
  | [.symbol s] => .ok ([s.name], s.variadic)
  | .symbol s :: rest => do
    if s.variadic then throw .variadicBeforeLast
    let (names, variadic) ← parameters rest
    return (s.name :: names, variadic)
  | d :: _ => .error (.notAnIdentifier d.source)

/-- `(lambda (param ...) body)` -/
def closureOf : List Datum → Except LispError Datum
  | [.list params, body] => do
    let (names, variadic) ← parameters params
    return .closure names variadic body
  | [params, _] => .error (.notA .list params.source)
  | exprs => .error (.arity .exact 2 exprs.length)

/-- `(if test then else)` -/
def runConditional (evaluate : Evaluator) : List Datum → Action Datum
  | [test, yes, no] => do
    match ← evaluate test with
    | .bool b => evaluate (if b then yes else no)
    | _ => Action.fail (.notA .bool test.source)
  | exprs => Action.fail (.arity .exact 3 exprs.length)

/-- The value expression of the first clause with a true test. -/
def chooseClause (evaluate : Evaluator) : List Datum → Action (Option Datum)
  | [] => return none
  | .list [test, value] :: clauses => do
    match ← evaluate test with
    | .bool true => return some value
    | .bool false => chooseClause evaluate clauses
    | d => Action.fail (.notA .bool d.display)
  | .list clause :: _ => Action.fail (.arity .exact 2 clause.length)
  | d :: _ => Action.fail (.notA .list d.source)

/-- `(cond (test value) ...)`. The tests share a scope in which `else` is true; the chosen value is
evaluated outside of it. -/
def runBranches (evaluate : Evaluator) (clauses : List Datum) : Action Datum := do
  let chosen ← Action.inScope do
    Action.define "else" (.bool true)
    chooseClause evaluate clauses
  match chosen with
  | some value => evaluate value
  | none => return .empty

/-- Makes bindings one after the other, so that each sees those before it. -/
def bindAll (evaluate : Evaluator) : List Datum → Action Unit
  | [] => return ()
  | .list [.symbol s, value] :: rest => do
    let d ← evaluate value
    Action.define s.name d
    bindAll evaluate rest
  | .list [name, _] :: _ => Action.fail (.notAnIdentifier name.source)
  | .list binding :: _ => Action.fail (.arity .exact 2 binding.length)
  | d :: _ => Action.fail (.notA .list d.source)

/-- `(let ((name value) ...) body)` -/
def runBindings (evaluate : Evaluator) : List Datum → Action Datum
  | [.list pairs, body] => Action.inScope do
    bindAll evaluate pairs
    evaluate body
  | [d, _] => Action.fail (.notA .list d.source)
  | exprs => Action.fail (.arity .exact 2 exprs.length)

end SpecialForm

end DynamicLisp
