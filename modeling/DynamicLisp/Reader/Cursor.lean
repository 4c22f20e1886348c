import DynamicLisp.Reader.Error

/-! A cursor over the tokens of a text. -/
namespace DynamicLisp

/-- The tokens still to come, and the error met behind the last of them, if any. -/
structure Cursor where
  tokens : List Token
  fault : Option ReadError
deriving DecidableEq, Inhabited

namespace Cursor

/-- A cursor at the end of its text. -/
def done : Cursor := ⟨[], none⟩

/-- Drops blanks and comments from the front; `comment` tells that the text starts in a comment. -/
def skip (comment : Bool) : List Char → List Char
  | [] => []
  | c :: cs =>
    if comment then skip (c ≠ '\n') cs
    else if Text.isBlank c then skip false cs
    else if c = ';' then skip true cs
    else c :: cs

/-- Cuts a text behind the double quote that closes a string. A backslash takes the next character
along, whatever it is. -/
def closeString : List Char → Option (List Char × List Char)
  | [] => none
  | '"' :: cs => some ([], cs)
  | '\\' :: c :: cs => (closeString cs).map fun (body, rest) => ('\\' :: c :: body, rest)
  | c :: cs => (closeString cs).map fun (body, rest) => (c :: body, rest)

/-- What stands at the front of a text. -/
inductive Front
  | finished
  | unterminated
  | token (t : Token) (rest : List Char)

/-- The first token of a text that starts with neither a blank nor a comment. -/
def front : List Char → Front
  | [] => .finished
  | '\x27' :: cs => .token .quote cs
  | '(' :: cs => .token (.opening .round) cs
  | '[' :: cs => .token (.opening .square) cs
  | ')' :: cs => .token (.closing .round) cs
  | ']' :: cs => .token (.closing .square) cs
  | '"' :: cs =>
    match closeString cs with
    | some (body, rest) => .token (.string body) rest
    | none => .unterminated
  | c :: cs => .token (.atom (c :: cs.takeWhile isAtomChar)) (cs.dropWhile isAtomChar)

theorem length_skip_le (comment : Bool) (cs : List Char) :
    (skip comment cs).length ≤ cs.length := by
  induction cs generalizing comment with
  | nil => simp [skip]
  | cons c cs ih =>
    simp only [skip]
    split
    · exact Nat.le_succ_of_le (ih _)
    · split
      · exact Nat.le_succ_of_le (ih _)
      · split
        · exact Nat.le_succ_of_le (ih _)
        · exact Nat.le_refl _

theorem length_closeString_lt {cs body rest : List Char} (h : closeString cs = some (body, rest)) :
    rest.length < cs.length := by
  fun_induction closeString cs generalizing body rest with
  | case1 => simp at h
  | case2 cs => simp_all
  | case3 c cs ih =>
    obtain ⟨⟨b, r⟩, hr, he⟩ := Option.map_eq_some_iff.1 h
    have := ih hr
    simp_all
    omega
  | case4 c cs _ _ ih =>
    obtain ⟨⟨b, r⟩, hr, he⟩ := Option.map_eq_some_iff.1 h
    have := ih hr
    simp_all
    omega

theorem length_dropWhile_le (p : Char → Bool) (cs : List Char) :
    (cs.dropWhile p).length ≤ cs.length :=
  (List.dropWhile_suffix p).length_le

theorem length_front_lt {cs rest : List Char} {t : Token} (h : front cs = .token t rest) :
    rest.length < cs.length := by
  unfold front at h
  split at h
  case h_7 =>
    split at h
    · rename_i hc
      cases h
      exact Nat.lt_succ_of_lt (length_closeString_lt hc)
    · cases h
  case h_8 =>
    cases h
    exact Nat.lt_succ_of_le (length_dropWhile_le _ _)
  all_goals (cases h; try simp)

/-- A cursor at the start of a text. -/
def ofChars (cs : List Char) : Cursor :=
  match _h : front (skip false cs) with
  | .finished => done
  | .unterminated => ⟨[], some .unterminatedString⟩
  | .token t rest =>
    let c := ofChars rest
    ⟨t :: c.tokens, c.fault⟩
termination_by cs.length
decreasing_by exact Nat.lt_of_lt_of_le (length_front_lt ‹_›) (length_skip_le _ _)

def ofText (s : String) : Cursor := ofChars s.toList

/-- The next token, left in place. At the end an error is raised once and then forgotten. -/
def peek (c : Cursor) : Except ReadError (Option Token) × Cursor :=
  match c.tokens, c.fault with
  | t :: _, _ => (.ok (some t), c)
  | [], some e => (.error e, done)
  | [], none => (.ok none, done)

/-- The next token, taken away. -/
def advance (c : Cursor) : Except ReadError (Option Token) × Cursor :=
  match c.tokens, c.fault with
  | t :: ts, fault => (.ok (some t), ⟨ts, fault⟩)
  | [], some e => (.error e, done)
  | [], none => (.ok none, done)

end Cursor

end DynamicLisp
