import DynamicLisp.Text.Blank

/-! Cutting text into parts. -/
namespace DynamicLisp.Text

/-- Puts a character in front of the first part. -/
def consPart (c : Char) : List (List Char) → List (List Char)
  | [] => [[c]]
  | part :: parts => (c :: part) :: parts

theorem flatten_consPart (c : Char) (parts : List (List Char)) :
    (consPart c parts).flatten = c :: parts.flatten := by
  cases parts <;> rfl

/-- The parts of a text between the characters of a class; one more than there are of them. -/
def splitWhere (p : Char → Bool) : List Char → List (List Char)
  | [] => [[]]
  | c :: cs => if p c then [] :: splitWhere p cs else consPart c (splitWhere p cs)

/-- The blank-free words of a text. -/
def words (cs : List Char) : List (List Char) := (splitWhere isBlank cs).filter (!·.isEmpty)

end DynamicLisp.Text
