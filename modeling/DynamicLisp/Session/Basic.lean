import DynamicLisp.Evaluation.Evaluate
import DynamicLisp.Session.Library
import DynamicLisp.Settings

/-! Sessions: one world, in which definitions persist from one evaluation to the next. The first
argument of each operation is the limit on the nesting of evaluations. -/
namespace DynamicLisp

/-- Values that have a name from the start. -/
def standardConstants : List (String × Datum) :=
  [("empty", .empty),
    ("math/infinity", .number Number.infinity),
    ("math/-infinity", .number (-Number.infinity)),
    ("math/pi", .number 3.141592653589793),
    ("math/e", .number 2.718281828459045),
    ("env/lisp-version", .string Settings.languageVersion),
    ("env/lisp-name", .string Settings.languageName)]

def standardBindings : List (String × Datum) :=
  standardConstants ++
  SpecialForm.standard.map (fun f => (f.name, .special f)) ++
  Intrinsic.all.map (fun f => (f.name, .intrinsic f))

/-- The environment in which a session starts, before the library. -/
def standardEnvironment : Environment := Environment.empty.update standardBindings

/-- A tree of files that holds the bundled library and an empty working directory. -/
def standardFiles (here : Location) : FileSystem :=
  (FileSystem.atLocation here).addFile
    (Settings.entryPoint :: Settings.bundledRoot.parts.reverse) Library.source

namespace Session

/-- Imports the entry point of the first library root that has one. -/
def loadLibrary (limit : Nat) : Action Unit := do
  let host ← Action.host
  match ← host.files.firstFile? (host.roots.map (·.join (Path.ofText Settings.entryPoint))) with
  | none => return ()
  | some p =>
    let _ ← importFile (evaluate limit) p
    return ()

/-- A session that starts, with the library or without. -/
def start (limit : Nat) (library : Bool) (host : Host) : Except Stop Unit × World :=
  let w : World := ⟨standardEnvironment, host⟩
  if library then loadLibrary limit w else (.ok (), w)

/-- Evaluates expressions one after the other. The result is that of the last one, or the given one
if there are none. -/
def evalExprs (limit : Nat) (result : Datum) : List Datum → Action Datum
  | [] => return result
  | d :: ds => do
    let v ← evaluate limit d
    evalExprs limit v ds

/-- Evaluates a text. What stands before an error in the text has been evaluated when the error is
raised. -/
def evalText (limit : Nat) (text : String) : Action Datum := do
  let s := Script.ofText text
  let v ← evalExprs limit .empty s.exprs
  match s.fault with
  | none => return v
  | some e => Action.fail (.malformed e)

/-- Evaluates a source file, found as `import` finds it. -/
def load (limit : Nat) (name : String) : Action Datum := do
  importFile (evaluate limit) (← resolveFile name)

end Session

end DynamicLisp
