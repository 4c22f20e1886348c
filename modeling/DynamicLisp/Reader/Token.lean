import DynamicLisp.Text.Blank

/-! Tokens: the pieces of source text that have a meaning of their own. -/
namespace DynamicLisp

inductive Bracket
  | round | square
deriving DecidableEq, Inhabited

namespace Bracket

def opener : Bracket → Char
  | round => '('
  | square => '['

def closer : Bracket → Char
  | round => ')'
  | square => ']'

end Bracket

inductive Token
  | quote
  | opening (b : Bracket)
  | closing (b : Bracket)
  /-- A string as it is written between its double quotes. -/
  | string (body : List Char)
  | atom (text : List Char)
deriving DecidableEq, Inhabited

/-- The characters of a token in the source text. -/
def Token.text : Token → List Char
  | quote => ['\x27']
  | opening b => [b.opener]
  | closing b => [b.closer]
  | string body => '"' :: body ++ ['"']
  | atom text => text

namespace Token

def isClosing : Token → Bool
  | closing _ => true
  | _ => false

/-- The text of an atom. -/
def name? : Token → Option String
  | atom text => some (String.ofList text)
  | _ => none

end Token

/-- The characters that end an atom although they are not blank. -/
def isDelimiter (c : Char) : Bool :=
  c == '(' || c == ')' || c == '[' || c == ']' || c == '\x27' || c == '"' || c == ';'

def isAtomChar (c : Char) : Bool := !Text.isBlank c && !isDelimiter c

end DynamicLisp
