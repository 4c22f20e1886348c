import DynamicLisp.Text.Split

/-! File paths in normal form. -/
namespace DynamicLisp

/-- Where a path starts. Two slashes at the front are kept apart from one. -/
inductive Anchor
  | here | root | doubleRoot
deriving DecidableEq, Inhabited

def Anchor.text : Anchor → String
  | here => ""
  | root => "/"
  | doubleRoot => "//"

/-- A path without empty parts and without parts that stand for the directory itself. -/
structure Path where
  anchor : Anchor
  parts : List String
deriving DecidableEq, Inhabited

namespace Path

def anchorOf : List Char → Anchor
  | '/' :: '/' :: '/' :: _ => .root
  | '/' :: '/' :: _ => .doubleRoot
  | '/' :: _ => .root
  | _ => .here

def ofText (s : String) : Path :=
  let parts := (Text.splitWhere (· = '/') s.toList).map String.ofList
  ⟨anchorOf s.toList, parts.filter fun part => part != "" && part != "."⟩

def text (p : Path) : String :=
  if p.anchor = .here ∧ p.parts = [] then "." else p.anchor.text ++ "/".intercalate p.parts

/-- Whether the character U+0000 is in the path. The system takes it for the end of a name. -/
def hasNul (p : Path) : Bool := p.parts.any (·.toList.contains '\x00')

def isAbsolute (p : Path) : Bool := p.anchor != .here

/-- The second path as seen from the first one. -/
def join (p q : Path) : Path := if q.isAbsolute then q else ⟨p.anchor, p.parts ++ q.parts⟩

end Path

end DynamicLisp
