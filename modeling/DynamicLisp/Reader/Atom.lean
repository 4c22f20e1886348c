import DynamicLisp.Datum.Basic
import DynamicLisp.Reader.Error
import DynamicLisp.Reader.Numeral

/-! The meaning of atoms and of the inside of strings. -/
namespace DynamicLisp

def isIdentifierChar (c : Char) : Bool :=
  c.isAlphanum || "-_+/*%><=?!&$.#:λ".toList.contains c

/-- Takes the variadic mark from the end of an identifier. -/
def dropVariadicMark (cs : List Char) : Option (List Char) :=
  match cs.reverse with
  | '.' :: '.' :: '.' :: name => some name.reverse
  | _ => none

/-- The symbol that an identifier writes. -/
def Symbol.ofText? (cs : List Char) : Except ReadError Symbol :=
  if cs = [] ∨ !cs.all isIdentifierChar then throw (.invalidIdentifier (String.ofList cs))
  else match dropVariadicMark cs with
    | none => return ⟨String.ofList cs, false⟩
    | some [] => throw .emptyIdentifier
    | some name => return ⟨String.ofList name, true⟩

/-- Booleans come before numbers, and numbers before identifiers. -/
def Datum.ofAtom? (cs : List Char) : Except ReadError Datum :=
  if cs = "#t".toList ∨ cs = "true".toList then return .bool true
  else if cs = "#f".toList ∨ cs = "false".toList then return .bool false
  else match Numeral.ofText? cs with
    | some n => return .number n.value
    | none => return .symbol (← Symbol.ofText? cs)

/-- The character that a backslash and a letter stand for. -/
def unescapeChar? : Char → Option Char
  | 'n' => some '\n'
  | 't' => some '\t'
  | 'r' => some '\r'
  | '"' => some '"'
  | '\\' => some '\\'
  | _ => none

/-- The characters that the inside of a written string stands for. -/
def unescape : List Char → Except ReadError (List Char)
  | [] => return []
  | ['\\'] => throw (.unknownEscape none)
  | '\\' :: c :: cs =>
    match unescapeChar? c with
    | some d => return d :: (← unescape cs)
    | none => throw (.unknownEscape (some c))
  | c :: cs => return c :: (← unescape cs)

end DynamicLisp
