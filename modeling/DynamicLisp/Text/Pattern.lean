/-! Patterns for the front of a text. A match takes as much as it can in each repetition and the
first of two patterns that it can, and goes back on this where it could not go on otherwise. -/
namespace DynamicLisp.Text

inductive Pattern
  /-- One character of a class. -/
  | one (p : Char → Bool)
  /-- One pattern and then another. -/
  | both (a b : Pattern)
  /-- One pattern, or else another. -/
  | either (a b : Pattern)
  /-- A pattern over and over again. -/
  | many (a : Pattern)

namespace Pattern

/-- What each match leaves of a text, the one that is tried first in front. What is repeated takes
at least one character each time. -/
def rests : Pattern → List Char → List (List Char)
  | one _, [] => []
  | one p, c :: cs => if p c then [cs] else []
  | both a b, cs => (a.rests cs).flatMap fun rest => b.rests rest
  | either a b, cs => a.rests cs ++ b.rests cs
  | many a, cs =>
    ((a.rests cs).flatMap fun rest =>
      if rest.length < cs.length then (many a).rests rest else []) ++ [cs]
termination_by a cs => (a, cs.length)

end Pattern

end DynamicLisp.Text
