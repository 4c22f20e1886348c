import DynamicLisp.Evaluation.Form
import DynamicLisp.Evaluation.Operator
import DynamicLisp.Evaluation.Template

/-! The intrinsics: those that call the evaluator, and those that touch the host. -/
namespace DynamicLisp

/-- Evaluates the expressions of a source text one after the other. -/
def evaluateEach (evaluate : Evaluator) : List Datum → Action Unit
  | [] => return ()
  | d :: ds => do
    let _ ← evaluate d
    evaluateEach evaluate ds

/-- Reads a whole file, then evaluates what is in it. -/
def importFile (evaluate : Evaluator) (p : Path) : Action Datum := do
  let text ← Action.access (.unreadable p.text) ((← Action.host).files.read p)
  let exprs ← readSource text
  evaluateEach evaluate exprs
  return .empty

theorem importFile_apply (evaluate : Evaluator) (p : Path) (w : World) : importFile evaluate p w =
    match w.host.files.read p with
    | .ok text => (do
        let exprs ← readSource text
        evaluateEach evaluate exprs
        return .empty : Action Datum) w
    | .error f => (.error (.ofFault (.unreadable p.text) f), w) := by
  change (Action.access (.unreadable p.text) (w.host.files.read p) >>= _) w = _
  cases w.host.files.read p <;> rfl

/-- Looks a source file up by its name. What the host raises meanwhile is not reported. -/
def resolveFile (name : String) : Action Path := do
  match ← (← Action.host).resolve? name with
  | some p => return p
  | none => Action.fail (.fileNotFound name)

theorem resolveFile_apply (name : String) (w : World) : resolveFile name w =
    (match w.host.resolve? name with
      | .ok (some p) => .ok p
      | .ok none => .error (.error (.fileNotFound name))
      | .error f => .error (.fault f), w) := by
  change (liftM (w.host.resolve? name) >>= _ : Action Path) w = _
  rcases w.host.resolve? name with f | _ | p <;> rfl

/-- The text of the first expression of a template section, evaluated in a scope of its own. -/
def interpolate (evaluate : Evaluator) (text : List Char) : Action String := do
  match ← readSource text with
  | [] => Action.fail (.malformed .emptyInterpolation)
  | d :: _ => do
    let v ← Action.inScope (evaluate d)
    return v.display

/-- The text of the sections of a template. -/
def fillIn (evaluate : Evaluator) : List Section → Action String
  | [] => return ""
  | .literal text :: ss => do
    let rest ← fillIn evaluate ss
    return String.ofList text ++ rest
  | .expression text :: ss => do
    let s ← interpolate evaluate text
    let rest ← fillIn evaluate ss
    return s ++ rest

namespace Intrinsic

/-- `(exit)` and `(exit code)` -/
def runExit : List Datum → Action Datum
  | [] => Action.stop (.exit 0)
  | [d] => do
    let x ← Arguments.number d
    Action.stop (.exit (Number.exitCode x))
  | ds => Action.fail (.arity .atMost 1 ds.length)

def runReadLine (args : List Datum) : Action Datum := do
  Arguments.expect 0 args
  match (← Action.host).readLine? with
  | none => Action.fail .noInput
  | some (line, host) =>
    Action.modifyHost fun _ => host
    return .string line

def runReadFile (args : List Datum) : Action Datum := do
  let d ← Arguments.one args
  let p := Path.ofText (← Arguments.string d)
  let text ← Action.access (.unreadable p.text) ((← Action.host).files.read p)
  return .string (String.ofList text)

theorem runReadFile_apply (name : String) (w : World) : runReadFile [.string name] w =
    (match w.host.files.read (Path.ofText name) with
      | .ok text => .ok (.string (String.ofList text))
      | .error f => .error (.ofFault (.unreadable (Path.ofText name).text) f), w) := by
  change (Action.access _ (w.host.files.read (Path.ofText name)) >>= _) w = _
  cases w.host.files.read (Path.ofText name) <;> rfl

def runWriteFile (args : List Datum) : Action Datum := do
  let (d, c) ← Arguments.two args
  let name ← Arguments.string d
  let content ← Arguments.string c
  let files ← Action.access (.unwritable name)
    ((← Action.host).files.write (Path.ofText name) content)
  Action.modifyHost fun h => { h with files := files }
  return .empty

theorem runWriteFile_apply (name content : String) (w : World) :
    runWriteFile [.string name, .string content] w =
      match w.host.files.write (Path.ofText name) content with
      | .ok files => (.ok .empty, { w with host := { w.host with files := files } })
      | .error f => (.error (.ofFault (.unwritable name) f), w) := by
  change (Action.access _ (w.host.files.write (Path.ofText name) content) >>= _) w = _
  cases w.host.files.write (Path.ofText name) content <;> rfl

/-- `(eval v)` -/
def runEval (evaluate : Evaluator) (args : List Datum) : Action Datum := do
  let d ← Arguments.one args
  let expr ← d.toExpr
  evaluate expr

/-- `(format template)`. No section is evaluated before the template has been split. -/
def runFormat (evaluate : Evaluator) (args : List Datum) : Action Datum := do
  let d ← Arguments.one args
  let template ← Arguments.string d
  let ss ← (Template.split template.toList).mapError LispError.malformed
  return .string (← fillIn evaluate ss)

/-- `(import name)` -/
def runLoad (evaluate : Evaluator) (args : List Datum) : Action Datum := do
  let d ← Arguments.one args
  let name ← Arguments.string d
  importFile evaluate (← resolveFile name)

def runPrint (terminator : String) (args : List Datum) : Action Datum := do
  Action.modifyHost (·.print (concatenate args ++ terminator))
  return .empty

/-- Runs an intrinsic on the values of its arguments. What `apply` calls gets a smaller list. -/
def run (evaluate : Evaluator) : Intrinsic → List Datum → Action Datum
  | apply, [.closure params variadic body, .list args] =>
    applyClosure evaluate params variadic body args
  | apply, [.intrinsic f, .list args] => run evaluate f args
  | apply, [.special f, .list args] =>
    Action.fail (.notApplicable (Datum.special f).display (Datum.list args).display)
  | apply, [d, .list _] => Action.fail (.notA .function d.display)
  | apply, [_, d] => Action.fail (.notA .list d.display)
  | apply, args => Action.fail (.arity .exact 2 args.length)
  | operator o, args => o.run args
  | eval, args => runEval evaluate args
  | format, args => runFormat evaluate args
  | load, args => runLoad evaluate args
  | exit, args => runExit args
  | print, args => runPrint "" args
  | println, args => runPrint "\n" args
  | readLine, args => runReadLine args
  | readFile, args => runReadFile args
  | writeFile, args => runWriteFile args
termination_by _ args => sizeOf args

end Intrinsic

end DynamicLisp
