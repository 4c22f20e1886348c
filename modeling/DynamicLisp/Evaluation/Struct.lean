import DynamicLisp.Evaluation.Form

/-! Struct types and the operators that come with them. -/
namespace DynamicLisp.SpecialForm

def fieldName : Datum → Except LispError String
  | .symbol s => .ok s.name
  | d => .error (.notAnIdentifier d.source)

/-- The name and the field names of a declaration `(define-struct Name (field ...))`. -/
def structDeclaration : List Datum → Except LispError (String × List String)
  | [.symbol _, .list []] => .error (.arity .exact 1 0)
  | [.symbol s, .list fields] => do return (s.name, ← fields.mapM fieldName)
  | [.symbol _, d] => .error (.notA .list d.source)
  | [d, _] => .error (.notAnIdentifier d.source)
  | exprs => .error (.arity .exact 2 exprs.length)

/-- The operators of a struct type, in the order in which they are bound. -/
def structOperators (type : String) (fields : List String) : List SpecialForm :=
  .isA type :: fields.map (.access type) ++ [.make type]

/-- Registers a struct type and binds its operators in the innermost scope. -/
def runDefineStruct (exprs : List Datum) : Action Datum := do
  let (type, fields) ← structDeclaration exprs
  Action.modifyEnvironment fun e =>
    (e.addStruct type fields).update
      ((structOperators type fields).map fun f => (f.name, .special f))
  return .empty

def registeredFields (type : String) : Action (List String) := do
  match (← Action.environment).fields? type with
  | some fields => return fields
  | none => Action.fail (.undefinedStruct type)

/-- `(make-Name value ...)` builds an instance with one value for each field. -/
def runMake (evaluate : Evaluator) (type : String) (exprs : List Datum) : Action Datum := do
  let fields ← registeredFields type
  expectExact fields.length exprs
  let values ← exprs.mapM evaluate
  return .struct type values

/-- `(Name? value)` tells whether a value is an instance of the type. -/
def runIsA (evaluate : Evaluator) (type : String) : List Datum → Action Datum
  | [expr] => do
    match ← evaluate expr with
    | .struct type' _ => return .bool (type' == type)
    | _ => return .bool false
  | exprs => Action.fail (.arity .exact 1 exprs.length)

/-- The value that an instance of a type holds for a field. -/
def fieldOf (type field : String) (fields : List String) (values : List Datum) :
    Except LispError Datum :=
  if known : field ∈ fields then
    if same : values.length = fields.length then
      .ok (values.get ⟨fields.idxOf field, same ▸ List.idxOf_lt_length_of_mem known⟩)
    else .error (.staleInstance (Datum.struct type values).display type)
  else .error (.notAField field type)

/-- `(Name-field value)`. The place of the field is that of the current declaration. -/
def runAccess (evaluate : Evaluator) (type field : String) : List Datum → Action Datum
  | [expr] => do
    match ← evaluate expr with
    | .struct type' values =>
      if type' ≠ type then
        Action.fail (.notOfStruct (Datum.struct type' values).display type)
      let fields ← registeredFields type
      fieldOf type field fields values
    | d => Action.fail (.notA .struct d.display)
  | exprs => Action.fail (.arity .exact 1 exprs.length)

/-- Runs a special form on the expressions behind its name. -/
def run (evaluate : Evaluator) (exprs : List Datum) : SpecialForm → Action Datum
  | define => runDefine evaluate exprs
  | lambda => closureOf exprs
  | conditional => runConditional evaluate exprs
  | branches => runBranches evaluate exprs
  | bindings => runBindings evaluate exprs
  | defineStruct => runDefineStruct exprs
  | make type => runMake evaluate type exprs
  | isA type => runIsA evaluate type exprs
  | access type field => runAccess evaluate type field exprs

end DynamicLisp.SpecialForm
