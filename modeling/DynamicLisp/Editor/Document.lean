import DynamicLisp.Editor.Index
import DynamicLisp.Editor.Signature

/-! Open documents and what an editor asks about them. -/
namespace DynamicLisp.Editor

/-- A complaint about a document. -/
inductive Diagnostic
  | malformed (e : ReadError)
  | unmatchedParentheses
  | unmatchedQuote
deriving DecidableEq, Inhabited

inductive Severity
  | error | warning
deriving DecidableEq, Inhabited

namespace Diagnostic

def message : Diagnostic → String
  | malformed e => e.message
  | unmatchedParentheses => "Unmatched parentheses detected"
  | unmatchedQuote => "Unmatched quote detected"

def severity : Diagnostic → Severity
  | malformed _ => .error
  | unmatchedParentheses | unmatchedQuote => .warning

/-- The name under which complaints are made. -/
def source : String := "rlisp-ls"

end Diagnostic

/-- What is wrong with a document. -/
def diagnostics (x : Index) : List Diagnostic :=
  (x.fault.map Diagnostic.malformed).toList ++
  (if x.balance ≠ 0 then [.unmatchedParentheses] else []) ++
  (if x.unmatchedQuote then [.unmatchedQuote] else [])

/-- What is known about a word: operators that are always there come before definitions. -/
def describe (x : Index) (word : String) : Option String :=
  match signatures.lookup word with
  | some s => some s
  | none => (x.symbols.find? word).map fun d =>
    (match d.detail with
      | none | some "" => ""
      | some shape => shape ++ " ") ++
    d.kind.noun ++ " " ++ word ++ " (defined at " ++ Nat.repr (d.position.line + 1) ++ ":" ++
    Nat.repr (d.position.column + 1) ++ ")"

/-- The shape of a call. -/
def signatureOf (x : Index) (callee : String) : Option String :=
  match signatures.lookup callee with
  | some s => some s
  | none =>
    match x.symbols.find? callee with
    | some d => if d.kind = .var then none else d.detail
    | none => none

/-- The names of the parameters in a shape: the words between the first opening and the first
closing bracket, without the name that is called. -/
def parametersOf (signature : String) : List String :=
  let inside := (signature.toList.dropWhile (· ≠ '(')).drop 1 |>.takeWhile (· ≠ ')')
  ((Text.words inside).drop 1).map String.ofList

structure Completion where
  label : String
  isVariable : Bool
  detail : Option String
deriving DecidableEq, Inhabited

/-- The operators that are always there. -/
def standardCompletions : List Completion := signatures.map fun (name, s) => ⟨name, false, some s⟩

def Index.completions (x : Index) : List Completion :=
  x.symbols.entries.map fun (name, d) => ⟨name, decide (d.kind = .var), d.detail⟩

structure Document where
  text : String
  index : Index
deriving Inhabited

def Document.ofText (text : String) : Document := ⟨text, Index.ofText text⟩

namespace Document

def hover (d : Document) (p : Position) : Option String :=
  (wordAt d.text.toList p).bind fun w => describe d.index (String.ofList w)

/-- The call at a position, with its parameters. -/
def signature (d : Document) (p : Position) : Option (String × List String) :=
  let callee := calleeOf (linePrefix d.text.toList p)
  match callee.bind fun w => signatureOf d.index (String.ofList w) with
  | none | some "" => none
  | some s => some (s, parametersOf s)

/-- The names in the order of their first definitions. -/
def symbols (d : Document) : List Definition := d.index.symbols.entries.map (·.2)

end Document

/-- The open documents, by their address. -/
abbrev Documents := Table String Document

namespace Documents

def put (ds : Documents) (uri text : String) : Documents × List Diagnostic :=
  let d := Document.ofText text
  (ds.set uri d, diagnostics d.index)

/-- A document is shown for the first time. -/
def opened (ds : Documents) (uri text : String) : Documents × List Diagnostic := ds.put uri text

/-- A document is changed. Each change brings the whole text, and the last one counts. -/
def changed (ds : Documents) (uri : String) (texts : List String) : Documents × List Diagnostic :=
  ds.put uri (texts.getLast?.getD (((ds.find? uri).map Document.text).getD ""))

/-- A document is closed, and nothing is wrong with it any more. -/
def closed (ds : Documents) (uri : String) : Documents × List Diagnostic := (ds.erase uri, [])

def hover (ds : Documents) (uri : String) (p : Position) : Option String :=
  (ds.find? uri).bind (·.hover p)

def signature (ds : Documents) (uri : String) (p : Position) : Option (String × List String) :=
  (ds.find? uri).bind (·.signature p)

def symbols (ds : Documents) (uri : String) : Option (List Definition) :=
  (ds.find? uri).map (·.symbols)

/-- What a word may be completed to. -/
def completions (ds : Documents) (uri : String) : List Completion :=
  standardCompletions ++ ((ds.find? uri).map (·.index.completions)).getD []

end Documents

end DynamicLisp.Editor
