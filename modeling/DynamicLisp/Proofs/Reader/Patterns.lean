import DynamicLisp.Proofs.Reader.Lexical
import DynamicLisp.Reader.Lexeme

/-! What the patterns find at the front of a text: what a cursor finds there. So cutting a text by
the patterns gives the tokens of its cursor, and every character has its place
(`lexed_ofChars`). -/
namespace DynamicLisp

open Text (Pattern)

/-! ### Patterns -/

namespace Text.Pattern

variable {p : Char → Bool} {a b : Pattern} {c : Char} {cs rest : List Char}

@[simp] theorem rests_one_nil : (one p).rests [] = [] := by rw [rests]

@[simp] theorem rests_one_cons : (one p).rests (c :: cs) = if p c then [cs] else [] := by
  rw [rests]

@[simp] theorem rests_both : (both a b).rests cs = (a.rests cs).flatMap b.rests := by rw [rests]

@[simp] theorem rests_either : (either a b).rests cs = a.rests cs ++ b.rests cs := by rw [rests]

theorem rests_many : (many a).rests cs = ((a.rests cs).flatMap fun rest =>
    if rest.length < cs.length then (many a).rests rest else []) ++ [cs] := by
  rw [rests]

theorem rests_many_one_cons : (many (one p)).rests (c :: cs) =
    (if p c then (many (one p)).rests cs else []) ++ [c :: cs] := by
  rw [rests_many]
  by_cases h : p c <;> simp [h]

theorem head?_many_one : ((many (one p)).rests cs).head? = some (cs.dropWhile p) := by
  induction cs with
  | nil => simp [rests_many]
  | cons c cs ih =>
    rw [rests_many_one_cons]
    by_cases h : p c <;> simp [h, ih]

/-- A repetition with something behind it. -/
theorem rests_both_many : (both (many a) b).rests cs = ((a.rests cs).flatMap fun rest =>
    if rest.length < cs.length then (both (many a) b).rests rest else []) ++ b.rests cs := by
  rw [rests_both, rests_many, List.flatMap_append, List.flatMap_singleton, List.flatMap_assoc]
  congr 2
  funext rest
  by_cases h : rest.length < cs.length <;> simp [h]

theorem length_rests_le (h : rest ∈ a.rests cs) : rest.length ≤ cs.length := by
  fun_induction rests a cs generalizing rest with
  | case1 => simp at h
  | case2 p c cs hp => simp_all
  | case3 p c cs hp => simp_all
  | case4 a b cs ihb iha =>
    obtain ⟨r, hr, hrest⟩ := List.mem_flatMap.1 h
    exact Nat.le_trans (ihb r hrest) (iha hr)
  | case5 a b cs iha ihb =>
    rcases List.mem_append.1 h with h | h
    · exact iha h
    · exact ihb h
  | case6 a cs ih iha =>
    rcases List.mem_append.1 h with h | h
    · obtain ⟨r, hr, hrest⟩ := List.mem_flatMap.1 h
      by_cases hlt : r.length < cs.length
      · rw [if_pos hlt] at hrest
        exact Nat.le_trans (ih r hlt hrest) (iha hr)
      · rw [if_neg hlt] at hrest
        cases hrest
    · exact Nat.le_of_eq (congrArg List.length (List.mem_singleton.1 h))

theorem length_one_lt (h : rest ∈ (one p).rests cs) : rest.length < cs.length := by
  cases cs with
  | nil => simp at h
  | cons c cs =>
    by_cases hc : p c <;> simp_all

theorem length_both_one_lt (h : rest ∈ (both (one p) b).rests cs) : rest.length < cs.length := by
  rw [rests_both] at h
  obtain ⟨r, hr, hrest⟩ := List.mem_flatMap.1 h
  exact Nat.lt_of_le_of_lt (length_rests_le hrest) (length_one_lt hr)

end Text.Pattern

/-- Every piece takes something. -/
theorem PieceKind.length_pattern_lt {kind : PieceKind} {cs rest : List Char}
    (h : rest ∈ kind.pattern.rests cs) : rest.length < cs.length := by
  cases kind with
  | quote | opening | closing => exact Pattern.length_one_lt h
  | _ => exact Pattern.length_both_one_lt h

/-- The pattern finds the end of a string where the cursor finds it, and nowhere else. -/
theorem rests_string (cs : List Char) :
    (Pattern.both (.many PieceKind.quotedChar) (.one (· == '"'))).rests cs =
      ((Cursor.closeString cs).map (·.2)).toList := by
  fun_induction Cursor.closeString cs with
  | case1 =>
    have hnone : PieceKind.quotedChar.rests [] = [] := by simp [PieceKind.quotedChar]
    rw [Pattern.rests_both_many, hnone]
    simp
  | case2 cs =>
    have hnone : PieceKind.quotedChar.rests ('"' :: cs) = [] := by simp [PieceKind.quotedChar]
    rw [Pattern.rests_both_many, hnone]
    simp
  | case3 c cs ih =>
    have hone : PieceKind.quotedChar.rests ('\\' :: c :: cs) = [cs] := by
      simp [PieceKind.quotedChar]
    rw [Pattern.rests_both_many, hone, List.flatMap_singleton, if_pos (by simp +arith), ih]
    cases Cursor.closeString cs <;> simp
  | case4 c cs hquote hslash ih =>
    by_cases hc : c = '\\'
    · -- A backslash at the end of the text takes nothing along.
      have hcs : cs = [] := by
        cases cs with
        | nil => rfl
        | cons d ds => exact (hslash d ds hc rfl).elim
      have hnone : PieceKind.quotedChar.rests ['\\'] = [] := by simp [PieceKind.quotedChar]
      rw [hc, hcs, Pattern.rests_both_many, hnone]
      simp [Cursor.closeString]
    · have hone : PieceKind.quotedChar.rests (c :: cs) = [cs] := by
        have hd : c ≠ '"' := hquote
        simp [PieceKind.quotedChar, hc, hd]
      rw [Pattern.rests_both_many, hone, List.flatMap_singleton, if_pos (by simp), ih]
      have hd : c ≠ '"' := hquote
      cases Cursor.closeString cs <;> simp [hd]

/-! ### Pieces -/

/-- The kind of piece that a token is. -/
def Token.kind : Token → PieceKind
  | quote => .quote
  | opening _ => .opening
  | closing _ => .closing
  | string _ => .string
  | atom _ => .atom

namespace PieceKind

variable {kind : PieceKind} {c : Char} {cs front rest : List Char}

/-- The characters that pieces of a kind start with. -/
def starts : PieceKind → Char → Bool
  | comment, c => c == ';'
  | quote, c => c == '\x27'
  | opening, c => c == '(' || c == '['
  | closing, c => c == ')' || c == ']'
  | string, c | unterminated, c => c == '"'
  | atom, c => isAtomChar c

theorem match?_of_head (h : (kind.pattern.rests (front ++ rest)).head? = some rest) :
    kind.match? (front ++ rest) = some ⟨kind, front, rest⟩ := by
  simp [match?, h]

theorem match?_eq_none (h : kind.starts c = false) : kind.match? (c :: cs) = none := by
  cases kind <;> simp_all [match?, pattern, starts]

end PieceKind

namespace Piece

variable {c : Char} {cs text rest : List Char} {t : Token} {kind : PieceKind} {p : Piece}

theorem at?_nil : at? [] = none := by
  simp [at?, PieceKind.all, PieceKind.match?, PieceKind.pattern]

theorem at?_eq_none (h : ∀ kind ∈ PieceKind.all, kind.starts c = false) : at? (c :: cs) = none := by
  rw [at?, List.findSome?_eq_none_iff]
  intro kind hkind
  exact PieceKind.match?_eq_none (h kind hkind)

/-- A piece is found if none is of the kinds that are tried before. -/
theorem at?_of_match (before : List PieceKind) {after : List PieceKind}
    (hall : PieceKind.all = before ++ kind :: after)
    (hbefore : ∀ kind ∈ before, kind.match? cs = none) (h : kind.match? cs = some p) :
    at? cs = some p := by
  have hnone : before.findSome? (·.match? cs) = none := List.findSome?_eq_none_iff.2 hbefore
  rw [at?, hall, List.findSome?_append, hnone, List.findSome?_cons, h]
  rfl

theorem at?_of_starts (before : List PieceKind) {after : List PieceKind}
    (hall : PieceKind.all = before ++ kind :: after)
    (hbefore : ∀ kind ∈ before, kind.starts c = false) (h : kind.match? (c :: cs) = some p) :
    at? (c :: cs) = some p :=
  at?_of_match before hall (fun kind hkind => PieceKind.match?_eq_none (hbefore kind hkind)) h

theorem at?_blank (h : Text.isBlank c = true) : at? (c :: cs) = none := by
  have hatom : isAtomChar c = false := by simp [isAtomChar, h]
  have hblank : [';', '\x27', '(', '[', ')', ']', '"'].all (!Text.isBlank ·) = true := by decide
  have hmark : ∀ d ∈ [';', '\x27', '(', '[', ')', ']', '"'], c ≠ d := by
    rintro d hd rfl
    simpa [h] using List.all_eq_true.1 hblank c hd
  simp only [List.forall_mem_cons] at hmark
  apply at?_eq_none
  simp [PieceKind.all, PieceKind.starts, hatom, hmark]

theorem at?_comment (h : '\n' ∉ text) (hr : ∀ c ∈ rest.head?, c = '\n') :
    at? (';' :: text ++ rest) = some ⟨.comment, ';' :: text, rest⟩ := by
  have hline : ∀ c ∈ text, (c != '\n') = true := by
    intro c hc
    have hne : c ≠ '\n' := fun he => h (he ▸ hc)
    simp [hne]
  have hend : ∀ c ∈ rest.head?, (c != '\n') = false := fun c hc => by simp [hr c hc]
  have hdrop := (span_append hline hend).2
  have hmatch : PieceKind.comment.match? (';' :: text ++ rest) =
      some ⟨.comment, ';' :: text, rest⟩ := by
    apply PieceKind.match?_of_head
    simp [PieceKind.pattern, PieceKind.untilNewline, Pattern.head?_many_one, hdrop]
  exact at?_of_starts [] rfl nofun hmatch

theorem at?_text (h : t.Stands rest) : at? (t.text ++ rest) = some ⟨t.kind, t.text, rest⟩ := by
  have hmatch : t.kind.match? (t.text ++ rest) = some ⟨t.kind, t.text, rest⟩ := by
    apply PieceKind.match?_of_head
    cases t with
    | quote => simp [Token.kind, Token.text, PieceKind.pattern]
    | opening b => cases b <;> simp [Token.kind, Token.text, PieceKind.pattern, Bracket.opener]
    | closing b => cases b <;> simp [Token.kind, Token.text, PieceKind.pattern, Bracket.closer]
    | string body =>
      have hclose := Inside.closeString h rest
      have hrests := rests_string (body ++ '"' :: rest)
      rw [hclose] at hrests
      simp [Token.kind, Token.text, PieceKind.pattern] at hrests ⊢
      rw [hrests]
      rfl
    | atom text =>
      obtain ⟨hne, hchars, hends⟩ := h
      obtain ⟨c, cs, rfl⟩ := List.exists_cons_of_ne_nil hne
      obtain ⟨hc, hcs⟩ := List.forall_mem_cons.1 hchars
      have hdrop := (span_append hcs hends).2
      simp [Token.kind, Token.text, PieceKind.pattern, hc, Pattern.head?_many_one, hdrop]
  cases t with
  | quote => exact at?_of_starts [.comment] rfl (by decide) hmatch
  | opening b =>
    cases b <;> exact at?_of_starts [.comment, .quote] rfl (by decide) hmatch
  | closing b =>
    cases b <;> exact at?_of_starts [.comment, .quote, .opening] rfl (by decide) hmatch
  | string body =>
    exact at?_of_starts [.comment, .quote, .opening, .closing] rfl (by decide) hmatch
  | atom text =>
    obtain ⟨hne, hchars, -⟩ := h
    obtain ⟨c, cs, rfl⟩ := List.exists_cons_of_ne_nil hne
    have hmark := (not_blank_of_isAtomChar (hchars c List.mem_cons_self)).2
    apply at?_of_starts [.comment, .quote, .opening, .closing, .string, .unterminated]
      rfl _ hmatch
    simp_all [PieceKind.starts]

/-- A double quote without an end is found, as far as its line goes. -/
theorem at?_unterminated (h : Cursor.closeString cs = none) :
    at? ('"' :: cs) =
      some ⟨.unterminated, '"' :: cs.takeWhile (· != '\n'), cs.dropWhile (· != '\n')⟩ := by
  have hstring : PieceKind.string.match? ('"' :: cs) = none := by
    have hrests := rests_string cs
    rw [h] at hrests
    simp [PieceKind.match?, PieceKind.pattern] at hrests ⊢
    exact hrests
  have hcut : '"' :: cs = ('"' :: cs.takeWhile (· != '\n')) ++ cs.dropWhile (· != '\n') := by
    rw [List.cons_append, List.takeWhile_append_dropWhile]
  have hmatch : PieceKind.unterminated.match? ('"' :: cs) =
      some ⟨.unterminated, '"' :: cs.takeWhile (· != '\n'), cs.dropWhile (· != '\n')⟩ := by
    rw [hcut]
    apply PieceKind.match?_of_head
    simp [PieceKind.pattern, PieceKind.untilNewline, Pattern.head?_many_one]
  apply at?_of_match [.comment, .quote, .opening, .closing, .string] rfl _ hmatch
  simp only [List.forall_mem_cons, List.not_mem_nil, false_implies, implies_true, and_true]
  exact ⟨PieceKind.match?_eq_none rfl, PieceKind.match?_eq_none rfl,
    PieceKind.match?_eq_none rfl, PieceKind.match?_eq_none rfl, hstring⟩

theorem first?_nil : first? [] = none := by
  simp [first?, Pattern.rests_many, at?_nil]

theorem first?_blank (h : Text.isBlank c = true) : first? (c :: cs) = first? cs := by
  rw [first?, first?, Pattern.rests_many_one_cons, if_pos h, List.findSome?_append]
  simp [at?_blank h]

theorem first?_of_at? (h : at? cs = some p) : first? cs = some p := by
  cases cs with
  | nil =>
    rw [at?_nil] at h
    cases h
  | cons c cs =>
    by_cases hc : Text.isBlank c = true
    · rw [at?_blank hc] at h
      cases h
    · rw [first?, Pattern.rests_many_one_cons, if_neg hc]
      simpa using h

/-- Where no piece is found there are only blanks. -/
theorem blank_of_first? (h : first? cs = none) : ∀ c ∈ cs, Text.isBlank c = true := by
  induction cs with
  | nil => exact nofun
  | cons c cs ih =>
    have hnone (p : Piece) : at? (c :: cs) ≠ some p := by
      intro hp
      rw [first?_of_at? hp] at h
      cases h
    rcases first_piece c cs with
      hc | ⟨text, rest, htext, hrest, he⟩ | ⟨t, rest, ht, he⟩ | ⟨rfl, hopen⟩
    · rw [first?_blank hc] at h
      exact List.forall_mem_cons.2 ⟨hc, ih h⟩
    · exact (hnone _ (he ▸ at?_comment htext hrest)).elim
    · exact (hnone _ (he ▸ at?_text ht)).elim
    · exact (hnone _ (at?_unterminated hopen)).elim

theorem length_rest_lt (h : first? cs = some p) : p.rest.length < cs.length := by
  obtain ⟨front, hfront, hp⟩ := List.exists_of_findSome?_eq_some h
  obtain ⟨kind, -, hkind⟩ := List.exists_of_findSome?_eq_some hp
  obtain ⟨rest, hrest, rfl⟩ := Option.map_eq_some_iff.1 hkind
  have hlt := PieceKind.length_pattern_lt (List.mem_of_head? hrest)
  exact Nat.lt_of_lt_of_le hlt (Pattern.length_rests_le hfront)

end Piece

/-! ### Texts -/

namespace Lexed

variable {c : Char} {cs : List Char} {p : Piece} {k : Cursor}

theorem ofChars_of_first? (h : Piece.first? cs = some p) : ofChars cs =
    if p.text = [] then ofChars p.rest
    else match p.kind with
      | .comment => ofChars p.rest
      | .unterminated => ⟨[], some .unterminatedString⟩
      | kind => ⟨(kind, p.text) :: (ofChars p.rest).tokens, (ofChars p.rest).fault⟩ := by
  have hcs : cs ≠ [] := by
    rintro rfl
    rw [Piece.first?_nil] at h
    cases h
  rw [ofChars, if_neg hcs, h]
  exact if_pos (Piece.length_rest_lt h)

theorem ofChars_of_blank (h : ∀ c ∈ cs, Text.isBlank c = true) (hnone : Piece.first? cs = none) :
    ofChars cs = ⟨[], none⟩ := by
  rw [ofChars, hnone]
  split
  · rfl
  · rw [stuck, if_pos (List.all_eq_true.2 h)]

theorem ofChars_blank (h : Text.isBlank c = true) : ofChars (c :: cs) = ofChars cs := by
  cases hp : Piece.first? cs with
  | none =>
    have hcs := Piece.blank_of_first? hp
    rw [ofChars_of_blank hcs hp]
    exact ofChars_of_blank (List.forall_mem_cons.2 ⟨h, hcs⟩) ((Piece.first?_blank h).trans hp)
  | some p => rw [ofChars_of_first? hp, ofChars_of_first? ((Piece.first?_blank h).trans hp)]

end Lexed

/-- The tokens that a cursor still has to give, by kind and text. -/
def Cursor.lexed (k : Cursor) : Lexed := ⟨k.tokens.map fun t => (t.kind, t.text), k.fault⟩

theorem Lexes.lexed {cs : List Char} {k : Cursor} (h : Lexes cs k) : Lexed.ofChars cs = k.lexed := by
  induction h with
  | nil =>
    rw [Lexed.ofChars]
    rfl
  | blank hc _ ih => rw [Lexed.ofChars_blank hc, ih]
  | @comment text rest k htext hrest _ ih =>
    have hp := Piece.first?_of_at? (Piece.at?_comment htext hrest)
    rw [Lexed.ofChars_of_first? hp]
    simpa using ih
  | @token t rest k ht _ ih =>
    have hp := Piece.first?_of_at? (Piece.at?_text ht)
    have htext : t.text ≠ [] := List.length_pos_iff.1 ht.length_pos
    rw [Lexed.ofChars_of_first? hp, if_neg htext, ih]
    cases t <;> rfl
  | unterminated hopen =>
    have hp := Piece.first?_of_at? (Piece.at?_unterminated hopen)
    rw [Lexed.ofChars_of_first? hp]
    rfl

/-- Cutting a text by the patterns gives the tokens of its cursor. -/
theorem lexed_ofChars (cs : List Char) : Lexed.ofChars cs = (Cursor.ofChars cs).lexed :=
  (lexes_ofChars cs).lexed

end DynamicLisp
