import DynamicLisp.Reader.Error
import DynamicLisp.Text.Pattern

/-! The pieces that a text is cut into, by their patterns. -/
namespace DynamicLisp

open Text (Pattern)

/-- The kinds of pieces, in the order in which they are tried. -/
inductive PieceKind
  | comment | quote | opening | closing | string | unterminated | atom
deriving DecidableEq, Inhabited

namespace PieceKind

def all : List PieceKind := [comment, quote, opening, closing, string, unterminated, atom]

def untilNewline : Pattern := .many (.one (· != '\n'))

/-- A character between the double quotes of a string. A backslash takes the next one along. -/
def quotedChar : Pattern :=
  .either (.both (.one (· == '\\')) (.one fun _ => true)) (.one fun c => c != '\\' && c != '"')

def pattern : PieceKind → Pattern
  | comment => .both (.one (· == ';')) untilNewline
  | quote => .one (· == '\x27')
  | opening => .one fun c => c == '(' || c == '['
  | closing => .one fun c => c == ')' || c == ']'
  | string => .both (.one (· == '"')) (.both (.many quotedChar) (.one (· == '"')))
  | unterminated => .both (.one (· == '"')) untilNewline
  | atom => .both (.one isAtomChar) (.many (.one isAtomChar))

end PieceKind

/-- A piece at the front of a text, and what follows it. -/
structure Piece where
  kind : PieceKind
  text : List Char
  rest : List Char
deriving DecidableEq, Inhabited

/-- The piece of a kind that a text starts with. -/
def PieceKind.match? (kind : PieceKind) (cs : List Char) : Option Piece :=
  (kind.pattern.rests cs).head?.map fun rest =>
    ⟨kind, cs.take (cs.length - rest.length), rest⟩

namespace Piece

/-- The piece that a text starts with. -/
def at? (cs : List Char) : Option Piece := PieceKind.all.findSome? (·.match? cs)

/-- The first piece of a text, behind as many blanks as there can be. -/
def first? (cs : List Char) : Option Piece :=
  ((Pattern.many (.one Text.isBlank)).rests cs).findSome? at?

end Piece

/-- The tokens of a text with their kinds, and the error behind the last of them, if any. -/
structure Lexed where
  tokens : List (PieceKind × List Char)
  fault : Option ReadError
deriving DecidableEq, Inhabited

namespace Lexed

/-- No piece is found. Nothing but blanks is left, or a character has no place. -/
def stuck (cs : List Char) : Lexed :=
  if cs.all Text.isBlank then ⟨[], none⟩ else ⟨[], cs.head?.map .unexpectedCharacter⟩

/-- Cuts a text into pieces from its front on, and drops the comments. -/
def ofChars (cs : List Char) : Lexed :=
  if cs = [] then ⟨[], none⟩
  else match Piece.first? cs with
    | none => stuck cs
    | some p =>
      if p.rest.length < cs.length then
        if p.text = [] then ofChars p.rest
        else match p.kind with
          | .comment => ofChars p.rest
          | .unterminated => ⟨[], some .unterminatedString⟩
          | kind =>
            let later := ofChars p.rest
            ⟨(kind, p.text) :: later.tokens, later.fault⟩
      else stuck cs
termination_by cs.length

end Lexed

end DynamicLisp
