import DynamicLisp.Reader.Atom
import DynamicLisp.Reader.Cursor

/-! Expressions from tokens. What has been opened and not closed is kept on a stack of frames, so
that each token is looked at once. -/
namespace DynamicLisp

/-- Something opened that waits for more tokens. -/
inductive Frame
  | quote
  /-- A list with its items so far, the last one first. -/
  | list (b : Bracket) (items : List Datum)

/-- What there is after a token: a whole expression, or frames still open. -/
inductive Progress
  | whole (d : Datum)
  | pending (frames : List Frame)

/-- Hands a complete expression to the innermost frame. -/
def complete (d : Datum) : List Frame → Progress
  | [] => .whole d
  | .quote :: fs => complete (.quote d) fs
  | .list b items :: fs => .pending (.list b (d :: items) :: fs)

/-- Takes one token. -/
def feed (fs : List Frame) : Token → Except ReadError Progress
  | .atom text => return complete (← Datum.ofAtom? text) fs
  | .string body => return complete (.string (String.ofList (← unescape body))) fs
  | .quote => return .pending (.quote :: fs)
  | .opening b => return .pending (.list b [] :: fs)
  | .closing b =>
    match fs with
    | .list b' items :: fs =>
      if b = b' then return complete (.list items.reverse) fs else throw (.mismatched b b')
    | _ => throw (.unexpectedCloser b)

/-- The error of a text that ends before its frames are closed. -/
def endFault : List Frame → Option ReadError
  | [] => none
  | .quote :: _ => some .endAfterQuote
  | .list .. :: _ => some .endInList

namespace Cursor

/-- Reads up to the end of an expression of which the frames have been read before. -/
def readFrom (fs : List Frame) (fault : Option ReadError) :
    List Token → Except ReadError (Option Datum) × Cursor
  | [] =>
    match fault <|> endFault fs with
    | some e => (.error e, done)
    | none => (.ok none, done)
  | t :: ts =>
    match feed fs t with
    | .error e => (.error e, ⟨ts, fault⟩)
    | .ok (.whole d) => (.ok (some d), ⟨ts, fault⟩)
    | .ok (.pending fs) => readFrom fs fault ts

/-- The next expression, or nothing at the end of the text. -/
def read (c : Cursor) : Except ReadError (Option Datum) × Cursor := readFrom [] c.fault c.tokens

end Cursor

/-- The complete expressions of a text, and the error that ends it, if any. -/
structure Script where
  exprs : List Datum
  fault : Option ReadError

namespace Script

/-- Reads all expressions, from inside the frames, and gives the place where reading ended. -/
def collect (fs : List Frame) (fault : Option ReadError) : List Token → Script × Cursor
  | [] => (⟨[], fault <|> endFault fs⟩, .done)
  | t :: ts =>
    match feed fs t with
    | .error e => (⟨[], some e⟩, ⟨ts, fault⟩)
    | .ok (.whole d) =>
      let (s, c) := collect [] fault ts
      (⟨d :: s.exprs, s.fault⟩, c)
    | .ok (.pending fs) => collect fs fault ts

def ofCursor (c : Cursor) : Script × Cursor := collect [] c.fault c.tokens

def ofChars (cs : List Char) : Script := (ofCursor (Cursor.ofChars cs)).1

def ofText (text : String) : Script := ofChars text.toList

/-- The expressions, if all of the text can be read. -/
def whole (s : Script) : Except ReadError (List Datum) :=
  match s.fault with
  | none => .ok s.exprs
  | some e => .error e

end Script

/-- Reads every expression of a text. -/
def readChars (cs : List Char) : Except ReadError (List Datum) := (Script.ofChars cs).whole

def read (text : String) : Except ReadError (List Datum) := readChars text.toList

end DynamicLisp
