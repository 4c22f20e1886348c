import DynamicLisp.Editor.Position
import DynamicLisp.Editor.Scan
import DynamicLisp.Reader.Script
import DynamicLisp.Table

/-! The definitions in a document, found without evaluating it. -/
namespace DynamicLisp.Editor

inductive DefinitionKind
  | var | function | struct | constructor | predicate | accessor
deriving DecidableEq, Inhabited

def DefinitionKind.noun : DefinitionKind → String
  | var => "var"
  | function => "function"
  | struct => "struct"
  | constructor => "constructor"
  | predicate => "predicate"
  | accessor => "accessor"

structure Definition where
  name : String
  kind : DefinitionKind
  position : Position
  /-- The shape of a use, if there is one to show. -/
  detail : Option String
deriving DecidableEq, Inhabited

structure Index where
  symbols : Table String Definition
  structs : Table String (List String)
  /-- How many more brackets are opened than closed. -/
  balance : Int
  unmatchedQuote : Bool
  fault : Option ReadError
deriving Inhabited

/-- A name and what follows it in parentheses. -/
def shape (name : String) (rest : List String) : String :=
  "(" ++ " ".intercalate (name :: rest) ++ ")"

/-- The tokens up to the next closing bracket. -/
def upToClosing (ps : List Placed) : List Token :=
  (ps.map (·.token)).takeWhile (!·.isClosing)

/-- The definition that follows the word `define`. -/
def defined (cs : List Char) : List Placed → List Definition
  | ⟨.opening _, _⟩ :: ⟨.atom text, start⟩ :: rest =>
    let name := String.ofList text
    let params := (upToClosing rest).map fun t => String.ofList t.text
    [⟨name, .function, Position.ofOffset cs start, some (shape name params)⟩]
  | ⟨.atom text, start⟩ :: _ =>
    [⟨String.ofList text, .var, Position.ofOffset cs start, none⟩]
  | _ => []

/-- The name, the place and the fields of the struct type that follows the word `define-struct`. -/
def declared? (cs : List Char) : List Placed → Option (String × Position × List String)
  | ⟨.atom text, start⟩ :: ⟨.opening _, _⟩ :: rest =>
    some (String.ofList text, Position.ofOffset cs start, (upToClosing rest).filterMap Token.name?)
  | _ => none

/-- The definitions that come with a struct type. -/
def structDefinitions (name : String) (p : Position) (fields : List String) : List Definition :=
  [⟨name, .struct, p, some (shape name fields)⟩,
    ⟨"make-" ++ name, .constructor, p, some (shape ("make-" ++ name) fields)⟩,
    ⟨name ++ "?", .predicate, p, some (shape (name ++ "?") ["v"])⟩] ++
  fields.map fun field =>
    let accessor := name ++ "-" ++ field
    ⟨accessor, .accessor, p, some (shape accessor ["v"])⟩

namespace Index

def empty : Index := ⟨.empty, .empty, 0, false, none⟩

def addSymbols (x : Index) (ds : List Definition) : Index :=
  { x with symbols := x.symbols.update (ds.map fun d => (d.name, d)) }

/-- What an opening bracket adds that stands before the given tokens. -/
def addForm (cs : List Char) (x : Index) : List Placed → Index
  | ⟨.atom head, _⟩ :: rest =>
    if head = "define".toList then x.addSymbols (defined cs rest)
    else if head = "define-struct".toList then
      match declared? cs rest with
      | some (name, p, fields) =>
        { x.addSymbols (structDefinitions name p fields) with
          structs := x.structs.set name fields }
      | none => x
    else x
  | _ => x

/-- Goes through the tokens of a document. -/
def addTokens (cs : List Char) (x : Index) : List Placed → Index
  | [] => x
  | p :: ps =>
    let x := match p.token with
      | .opening _ => { x.addForm cs ps with balance := x.balance + 1 }
      | .closing _ => { x with balance := x.balance - 1 }
      | _ => x
    addTokens cs x ps

end Index

/-- Where a character stands with respect to strings and comments. -/
inductive QuoteState
  | code | codeEscaped | string | stringEscaped | comment
deriving DecidableEq, Inhabited

namespace QuoteState

def next : QuoteState → Char → QuoteState
  | comment, c => if c = '\n' then code else comment
  | codeEscaped, _ => code
  | stringEscaped, _ => string
  | code, c =>
    if c = '\\' then codeEscaped else if c = ';' then comment else if c = '"' then string else code
  | string, c => if c = '\\' then stringEscaped else if c = '"' then code else string

def inString : QuoteState → Bool
  | string | stringEscaped => true
  | code | codeEscaped | comment => false

end QuoteState

/-- Whether a document ends inside a string, as far as quotes and backslashes tell. -/
def hasUnmatchedQuote (cs : List Char) : Bool := (cs.foldl QuoteState.next .code).inString

/-- The index of a document. -/
def Index.ofChars (cs : List Char) : Index :=
  { Index.addTokens cs .empty (scan cs) with
    unmatchedQuote := hasUnmatchedQuote cs
    fault := (Script.ofChars cs).fault }

def Index.ofText (text : String) : Index := ofChars text.toList

end DynamicLisp.Editor
