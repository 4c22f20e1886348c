import DynamicLisp.Text.Lines

/-! Places in a document, and the words at them. -/
namespace DynamicLisp.Editor

/-- A line and a column, both counted from zero. -/
structure Position where
  line : Nat
  column : Nat
deriving DecidableEq, Inhabited

/-- The position behind a character that follows a position. -/
def Position.next (p : Position) (c : Char) : Position :=
  if c = '\n' then ⟨p.line + 1, 0⟩ else ⟨p.line, p.column + 1⟩

/-- The position behind a number of characters. Only `\n` ends a line here. -/
def Position.ofOffset (cs : List Char) (offset : Nat) : Position :=
  (cs.take offset).foldl Position.next ⟨0, 0⟩

/-- The characters that no word holds. -/
def isWordBreak (c : Char) : Bool :=
  c == ' ' || c == '\t' || c == '(' || c == ')' || c == '[' || c == ']' || c == '\x27' ||
    c == '"' || c == '\n' || c == '\r'

def isWordChar (c : Char) : Bool := !isWordBreak c

/-- The word around a column of a line, or none if there is a break on both sides. -/
def wordIn (line : List Char) (column : Nat) : Option (List Char) :=
  let before := ((line.take column).reverse.takeWhile isWordChar).reverse
  let after := (line.drop column).takeWhile isWordChar
  if before ++ after = [] then none else some (before ++ after)

def lineAt? (cs : List Char) (line : Nat) : Option (List Char) := (Text.lines cs)[line]?

/-- The word at a position of a document. -/
def wordAt (cs : List Char) (p : Position) : Option (List Char) :=
  (lineAt? cs p.line).bind (wordIn · p.column)

/-- The text from the start of a line to a position in it. -/
def linePrefix (cs : List Char) (p : Position) : List Char :=
  ((lineAt? cs p.line).getD []).take p.column

/-- The text behind the last opening bracket, if there is one. -/
def afterOpener : List Char → Option (List Char)
  | [] => none
  | c :: cs =>
    match afterOpener cs with
    | some rest => some rest
    | none => if c = '(' ∨ c = '[' then some cs else none

/-- The name that is being called at the end of a line: the first word behind the last opening
bracket, without closing brackets at its end. -/
def calleeOf (cs : List Char) : Option (List Char) :=
  match (afterOpener cs).map Text.words with
  | some (w :: _) =>
    match Text.dropEndWhile (fun c => c == ')' || c == ']') w with
    | [] => none
    | name => some name
  | _ => none

end DynamicLisp.Editor
