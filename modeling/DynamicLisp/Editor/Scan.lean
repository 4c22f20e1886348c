import DynamicLisp.Reader.Token

/-! The tokens of a document that is being edited, with their places. A double quote that opens no
string is passed over, so that the rest of the document still has its tokens. -/
namespace DynamicLisp.Editor

/-- A token and the number of characters before it. -/
structure Placed where
  token : Token
  start : Nat
deriving DecidableEq, Inhabited

/-- The number of characters up to the end of the token. -/
def Placed.stop (p : Placed) : Nat := p.start + p.token.text.length

/-- Cuts a text behind the double quote that closes a string. A backslash takes the next character
along, but not the end of a line. -/
def closeString : List Char → Option (List Char × List Char)
  | [] => none
  | '"' :: cs => some ([], cs)
  | '\\' :: c :: cs =>
    if c = '\n' then none
    else (closeString cs).map fun (body, rest) => ('\\' :: c :: body, rest)
  | c :: cs => (closeString cs).map fun (body, rest) => (c :: body, rest)

/-- The brackets and the quote, which are tokens alone. -/
def single? : Char → Option Token
  | '\x27' => some .quote
  | '(' => some (.opening .round)
  | '[' => some (.opening .square)
  | ')' => some (.closing .round)
  | ']' => some (.closing .square)
  | _ => none

theorem length_closeString_lt {cs body rest : List Char} (h : closeString cs = some (body, rest)) :
    rest.length < cs.length := by
  fun_induction closeString cs generalizing body rest with
  | case1 => simp at h
  | case2 cs => simp_all
  | case3 => simp at h
  | case4 c cs _ ih =>
    obtain ⟨⟨b, r⟩, hr, he⟩ := Option.map_eq_some_iff.1 h
    have := ih hr
    simp_all
    omega
  | case5 c cs _ _ ih =>
    obtain ⟨⟨b, r⟩, hr, he⟩ := Option.map_eq_some_iff.1 h
    have := ih hr
    simp_all
    omega

theorem length_dropWhile_lt (p : Char → Bool) (c : Char) (cs : List Char) :
    (cs.dropWhile p).length < (c :: cs).length :=
  Nat.lt_succ_of_le (List.dropWhile_suffix p).length_le

/-- The tokens of a text that has `start` characters before it. -/
def scanFrom (start : Nat) : List Char → List Placed
  | [] => []
  | c :: cs =>
    if Text.isBlank c then scanFrom (start + 1) cs
    else if c = ';' then
      let comment := cs.takeWhile (· ≠ '\n')
      scanFrom (start + 1 + comment.length) (cs.dropWhile (· ≠ '\n'))
    else if c = '"' then
      match _h : closeString cs with
      | some (body, rest) => ⟨.string body, start⟩ :: scanFrom (start + body.length + 2) rest
      | none => scanFrom (start + 1) cs
    else match single? c with
      | some t => ⟨t, start⟩ :: scanFrom (start + 1) cs
      | none =>
        let text := c :: cs.takeWhile isAtomChar
        ⟨.atom text, start⟩ :: scanFrom (start + text.length) (cs.dropWhile isAtomChar)
termination_by cs => cs.length
decreasing_by
  · exact Nat.lt_succ_self _
  · exact length_dropWhile_lt _ _ _
  · exact Nat.lt_succ_of_lt (length_closeString_lt ‹_›)
  · exact Nat.lt_succ_self _
  · exact Nat.lt_succ_self _
  · exact length_dropWhile_lt _ _ _

/-- The tokens of a document. -/
def scan (cs : List Char) : List Placed := scanFrom 0 cs

end DynamicLisp.Editor
