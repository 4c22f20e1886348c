import DynamicLisp.Proofs.Editor.Diagnostics
import DynamicLisp.Proofs.Reader.Patterns

/-! Double quotes without a partner, as the editor and as the lexer find them. The editor goes through
a document character by character and the lexer piece by piece; they agree where backslashes stand in
strings and comments only (`unmatchedQuote_iff`). -/
namespace DynamicLisp

namespace Piece

variable {c : Char} {cs front rest text : List Char} {t : Token} {p : Piece} {left : Nat}

/-- The pieces that a text is cut into, comments among them, up to one that opens a string without an
end. -/
def all (cs : List Char) : List Piece :=
  match _h : first? cs with
  | none => []
  | some p => p :: if p.kind = .unterminated then [] else all p.rest
termination_by cs.length
decreasing_by exact length_rest_lt ‹_›

/-- The piece takes the character from which on so much of the text is left. A string without an end
takes everything to the end of the text. -/
def Covers (p : Piece) (left : Nat) : Prop :=
  left ≤ p.text.length + p.rest.length ∧ (p.kind = .unterminated ∨ p.rest.length < left)

instance (p : Piece) : DecidablePred p.Covers := fun _ => inferInstanceAs (Decidable (_ ∧ _))

theorem all_of_first? (h : first? cs = some p) :
    all cs = p :: if p.kind = .unterminated then [] else all p.rest := by
  rw [all]
  split <;> simp_all

theorem all_blank (h : Text.isBlank c = true) : all (c :: cs) = all cs := by
  rw [all, all.eq_def cs, first?_blank h]

theorem all_comment (h : '\n' ∉ text) (hr : ∀ c ∈ rest.head?, c = '\n') :
    all (';' :: text ++ rest) = ⟨.comment, ';' :: text, rest⟩ :: all rest :=
  all_of_first? (first?_of_at? (at?_comment h hr))

theorem all_text (h : t.Stands rest) :
    all (t.text ++ rest) = ⟨t.kind, t.text, rest⟩ :: all rest := by
  rw [all_of_first? (first?_of_at? (at?_text h))]
  cases t <;> rfl

theorem all_unterminated (h : Cursor.closeString cs = none) : all ('"' :: cs) =
    [⟨.unterminated, '"' :: cs.takeWhile (· != '\n'), cs.dropWhile (· != '\n')⟩] :=
  all_of_first? (first?_of_at? (at?_unterminated h))

theorem length_at?_le (h : at? cs = some p) : p.text.length + p.rest.length ≤ cs.length := by
  obtain ⟨kind, -, hkind⟩ := List.exists_of_findSome?_eq_some h
  obtain ⟨rest, hrest, rfl⟩ := Option.map_eq_some_iff.1 hkind
  have hlt := PieceKind.length_pattern_lt (List.mem_of_head? hrest)
  simp only [List.length_take]
  omega

theorem length_first?_le (h : first? cs = some p) : p.text.length + p.rest.length ≤ cs.length := by
  obtain ⟨front, hfront, hp⟩ := List.exists_of_findSome?_eq_some h
  exact Nat.le_trans (length_at?_le hp) (Text.Pattern.length_rests_le hfront)

/-- A piece of a text is no longer than the text from it on. -/
theorem length_le_of_mem_all (h : p ∈ all cs) : p.text.length + p.rest.length ≤ cs.length := by
  fun_induction all cs with
  | case1 => cases h
  | case2 cs q hq ih =>
    rcases List.mem_cons.1 h with rfl | h
    · exact length_first?_le hq
    · have hlater := length_rest_lt hq
      split at h
      · cases h
      · have hp := ih h
        omega

end Piece

/-- The pieces in which characters have no meaning of their own. -/
def PieceKind.isLiteral : PieceKind → Bool
  | comment | string | unterminated => true
  | _ => false

/-- Each backslash of a text lies in a string or in a comment, as the lexer cuts them. -/
def Shielded (cs : List Char) : Prop :=
  ∀ i, cs[i]? = some '\\' → ∃ p ∈ Piece.all cs, p.kind.isLiteral = true ∧ p.Covers (cs.length - i)

variable {cs front rest text : List Char} {k : Cursor}

theorem Shielded.of_blank {c : Char} (hc : Text.isBlank c = true) (h : Shielded (c :: cs)) :
    Shielded cs := by
  intro i hi
  obtain ⟨p, hp, hliteral, hcovers⟩ := h (i + 1) hi
  rw [Piece.all_blank hc] at hp
  rw [List.length_cons, Nat.add_sub_add_right] at hcovers
  exact ⟨p, hp, hliteral, hcovers⟩

/-- A piece in front takes no character of what is behind it. -/
theorem Shielded.behind {kind : PieceKind}
    (hall : Piece.all (front ++ rest) = ⟨kind, front, rest⟩ :: Piece.all rest)
    (hkind : kind ≠ .unterminated) (h : Shielded (front ++ rest)) : Shielded rest := by
  intro i hi
  have hindex : (front ++ rest)[front.length + i]? = some '\\' := by
    rw [List.getElem?_append_right (Nat.le_add_right _ _), Nat.add_sub_cancel_left, hi]
  obtain ⟨q, hq, hliteral, hcovers⟩ := h _ hindex
  rw [List.length_append, Nat.add_sub_add_left] at hcovers
  rw [hall] at hq
  rcases List.mem_cons.1 hq with rfl | hq
  · rcases hcovers.2 with hopen | hlt
    · exact (hkind hopen).elim
    · dsimp only at hlt
      omega
  · exact ⟨q, hq, hliteral, hcovers⟩

/-- No other piece takes a character of an atom. -/
theorem Shielded.not_mem_atom (h : Shielded (text ++ rest)) (ht : (Token.atom text).Stands rest) :
    '\\' ∉ text := by
  intro hmem
  obtain ⟨i, hlt, hi⟩ := List.mem_iff_getElem.1 hmem
  have hindex : (text ++ rest)[i]? = some '\\' := by
    rw [List.getElem?_append_left hlt, List.getElem?_eq_getElem hlt, hi]
  obtain ⟨q, hq, hliteral, hcovers⟩ := h i hindex
  have hall := Piece.all_text ht
  rw [Token.text] at hall
  rw [hall] at hq
  rcases List.mem_cons.1 hq with rfl | hq
  · cases hliteral
  · have hle := Piece.length_le_of_mem_all hq
    have hleft := hcovers.1
    rw [List.length_append] at hleft
    omega

/-- In a text whose backslashes lie in strings and comments no atom holds one. -/
theorem Shielded.not_backslash (hlexes : Lexes cs k) (h : Shielded cs) :
    ∀ text, .atom text ∈ k.tokens → '\\' ∉ text := by
  induction hlexes with
  | nil => exact nofun
  | blank hblank _ ih => exact ih (h.of_blank hblank)
  | comment htext hrest _ ih =>
    have hall := Piece.all_comment htext hrest
    exact ih (Shielded.behind hall (by decide) h)
  | @token t rest k hstands _ ih =>
    have hall := Piece.all_text hstands
    have hkind : t.kind ≠ .unterminated := by cases t <;> rintro ⟨⟩
    intro text hmem
    rcases List.mem_cons.1 hmem with rfl | hmem
    · exact h.not_mem_atom hstands
    · exact ih (Shielded.behind hall hkind h) text hmem
  | unterminated _ => exact nofun

namespace Editor

/-- If the backslashes of a text lie in strings and comments, a double quote is reported without a
partner exactly if the lexer meets a string without an end. -/
theorem unmatchedQuote_iff (text : String) (h : Shielded text.toList) :
    (Index.ofText text).unmatchedQuote = true ↔
      (Lexed.ofChars text.toList).fault = some .unterminatedString := by
  have hlexes := lexes_ofChars text.toList
  have hquote : (Index.ofText text).unmatchedQuote = (Cursor.ofChars text.toList).fault.isSome :=
    hasUnmatchedQuote_eq hlexes (h.not_backslash hlexes)
  rw [hquote, lexed_ofChars, Cursor.lexed]
  rcases hlexes.fault_eq with hnone | hsome
  · simp [hnone]
  · simp [hsome]

/-- The editor does not see a double quote behind a backslash in an atom. -/
example : hasUnmatchedQuote ['\\', '"'] = false ∧
    (Cursor.ofChars ['\\', '"']).fault = some .unterminatedString := by decide +kernel

/-- Double quotes behind backslashes in a string and in a comment, and a backslash at the end of a
string without an end. -/
theorem unmatchedQuote_iff_backslash :
    let text := "\"\\\";\" ;\\\"\n\"\\"
    Shielded text.toList ∧ (Index.ofText text).unmatchedQuote = true ∧
      (Lexed.ofChars text.toList).fault = some .unterminatedString := by
  intro text
  have htext : text.toList = (Token.string ['\\', '"', ';']).text ++
      ' ' :: (';' :: ['\\', '"'] ++ ['\n', '"', '\\']) := by decide
  have hall : Piece.all text.toList = [
      ⟨.string, ['"', '\\', '"', ';', '"'], [' ', ';', '\\', '"', '\n', '"', '\\']⟩,
      ⟨.comment, [';', '\\', '"'], ['\n', '"', '\\']⟩, ⟨.unterminated, ['"', '\\'], []⟩] := by
    have hstring : (Token.string ['\\', '"', ';']).Stands
        (' ' :: (';' :: ['\\', '"'] ++ ['\n', '"', '\\'])) :=
      .escaped '"' (.plain (by decide) (by decide) .nil)
    have hnewline : ∀ c ∈ ['\n', '"', '\\'].head?, c = '\n' := fun _ h => (Option.some.inj h).symm
    rw [htext, Piece.all_text hstring, Piece.all_blank rfl, Piece.all_comment (by decide) hnewline,
      Piece.all_blank rfl, Piece.all_unterminated rfl]
    rfl
  have hshielded : Shielded text.toList := by
    have hindex : ∀ i < text.toList.length, text.toList[i]? = some '\\' →
        ∃ p ∈ Piece.all text.toList, p.kind.isLiteral = true ∧ p.Covers (text.toList.length - i) := by
      rw [hall]
      decide
    intro i hi
    exact hindex i (List.getElem?_eq_some_iff.1 hi).1 hi
  have hfault : (Lexed.ofChars text.toList).fault = some .unterminatedString := by
    rw [lexed_ofChars]
    decide +kernel
  exact ⟨hshielded, (unmatchedQuote_iff text hshielded).2 hfault, hfault⟩

end Editor

end DynamicLisp
