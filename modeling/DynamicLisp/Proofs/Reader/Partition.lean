import DynamicLisp.Proofs.Reader.Patterns

/-! A text and its tokens. Blanks, comments and tokens together are the text, up to its end or up to a
double quote that opens a string without an end (`lexed_partition`). -/
namespace DynamicLisp

open Cursor (Ends ends_cons prepend)

variable {before rest cs w : List Char} {t : Token} {ts : List Token} {k : Cursor}

/-- Blanks and comments that stand before the rest of a text. A comment goes on to the end of its
line, or of the text. -/
inductive Gap (rest : List Char) : List Char → Prop
  | nil : Gap rest []
  | blank {c : Char} {w : List Char} : Text.isBlank c = true → Gap rest w → Gap rest (c :: w)
  | comment {text w : List Char} :
    '\n' ∉ text → (∀ c ∈ (w ++ rest).head?, c = '\n') → Gap rest w → Gap rest (';' :: text ++ w)

/-- The text before a token does not belong to it. -/
def Token.Starts (before : List Char) : Token → Prop
  | atom _ => ∀ c ∈ before.getLast?, isAtomChar c = false
  | _ => True

/-- A text is gaps with tokens between them, up to the rest. An atom can be made longer on neither
side. -/
inductive Partition (rest : List Char) : List Char → List Token → List Char → Prop
  | last (before : List Char) {w : List Char} : Gap rest w → Partition rest before [] (w ++ rest)
  | token {before w cs : List Char} {t : Token} {ts : List Token} :
    Gap (t.text ++ cs) w → t.Starts (before ++ w) → t.Stands cs →
    Partition rest (before ++ w ++ t.text) ts cs →
    Partition rest before (t :: ts) (w ++ (t.text ++ cs))

/-- No double quote closes the string that the text is in. -/
def Unclosed (cs : List Char) : Prop := ∀ body after, Inside body → cs ≠ body ++ '"' :: after

theorem closeString_eq_none : Cursor.closeString cs = none ↔ Unclosed cs := by
  constructor
  · intro h body after hbody he
    have hclose := hbody.closeString after
    rw [← he, h] at hclose
    cases hclose
  · intro h
    cases hclose : Cursor.closeString cs with
    | none => rfl
    | some p =>
      obtain ⟨hbody, he⟩ := closeString_eq_some.1 hclose
      exact (h _ _ hbody he).elim

/-! ### From a partition to the tokens -/

theorem Lexes.text_ne_nil (h : Lexes cs k) : ∀ t ∈ k.tokens, t.text ≠ [] := by
  induction h with
  | nil => exact nofun
  | token hstands _ ih =>
    exact List.forall_mem_cons.2 ⟨List.length_pos_iff.1 hstands.length_pos, ih⟩
  | unterminated _ => exact nofun
  | _ => assumption

theorem Gap.lexes (h : Gap rest w) (hk : Lexes rest k) : Lexes (w ++ rest) k := by
  induction h with
  | nil => exact hk
  | blank hc _ ih => exact .blank hc ih
  | comment htext hend _ ih =>
    rw [List.append_assoc]
    exact .comment htext hend ih

theorem Partition.lexes (h : Partition rest before ts cs) (hk : Lexes rest k) :
    Lexes cs (prepend ts k) := by
  induction h with
  | last _ hgap => exact hgap.lexes hk
  | token hgap _ hstands _ ih => exact hgap.lexes (.token hstands ih)

/-! ### From the tokens to a partition -/

theorem Partition.blank {c : Char} (hc : Text.isBlank c = true)
    (h : Partition rest (before ++ [c]) ts cs) : Partition rest before ts (c :: cs) := by
  cases h with
  | last _ hgap => exact .last _ (.blank hc hgap)
  | @token _ w cs t ts hgap hstarts hstands htail =>
    have hbefore : before ++ [c] ++ w = before ++ c :: w := by simp
    rw [hbefore] at hstarts htail
    exact .token (.blank hc hgap) hstarts hstands htail

theorem Partition.comment {text : List Char} (htext : '\n' ∉ text)
    (hend : ∀ c ∈ cs.head?, c = '\n') (h : Partition rest (before ++ ';' :: text) ts cs) :
    Partition rest before ts (';' :: text ++ cs) := by
  cases h with
  | last _ hgap =>
    rw [← List.append_assoc]
    exact .last _ (.comment htext hend hgap)
  | @token _ w cs t ts hgap hstarts hstands htail =>
    have hbefore : before ++ ';' :: text ++ w = before ++ (';' :: text ++ w) := by simp
    rw [hbefore] at hstarts htail
    rw [← List.append_assoc]
    exact .token (.comment htext hend hgap) hstarts hstands htail

/-- No atom goes on from one text into the other. -/
def Apart (before cs : List Char) : Prop :=
  (∀ c ∈ before.getLast?, isAtomChar c = false) ∨ Ends cs

theorem Apart.concat {c : Char} (hc : isAtomChar c = false) (before cs : List Char) :
    Apart (before ++ [c]) cs := by
  left
  simp [hc]

theorem Apart.text (ht : t.Stands rest) (before : List Char) : Apart (before ++ t.text) rest := by
  cases t with
  | atom text => exact .inr ht.2.2
  | string body =>
    have happart := Apart.concat (c := '"') rfl (before ++ '"' :: body) rest
    rwa [List.append_assoc] at happart
  | quote => exact .concat rfl before rest
  | opening b => cases b <;> exact .concat rfl before rest
  | closing b => cases b <;> exact .concat rfl before rest

theorem Apart.starts (h : Apart before (t.text ++ rest)) (ht : t.Stands rest) :
    t.Starts before := by
  cases t with
  | atom text =>
    obtain ⟨hne, hchars, -⟩ := ht
    obtain ⟨c, cs, rfl⟩ := List.exists_cons_of_ne_nil hne
    rcases h with h | h
    · exact h
    · have hc := hchars c List.mem_cons_self
      rw [h c rfl] at hc
      cases hc
  | _ => trivial

/-- The tokens of a text with what stands between them, up to the end of the text or to a string
without an end. -/
theorem Lexes.partition (h : Lexes cs k) (before : List Char) (hbefore : Apart before cs) :
    (k.fault = none ∧ Partition [] before k.tokens cs) ∨
    (k.fault = some .unterminatedString ∧
      ∃ rest, Unclosed rest ∧ Partition ('"' :: rest) before k.tokens cs) := by
  induction h generalizing before with
  | nil => exact .inl ⟨rfl, .last before .nil⟩
  | @blank c cs k hc _ ih =>
    have hatom : isAtomChar c = false := by simp [isAtomChar, hc]
    rcases ih (before ++ [c]) (.concat hatom before cs) with ⟨hk, h⟩ | ⟨hk, rest, hrest, h⟩
    · exact .inl ⟨hk, h.blank hc⟩
    · exact .inr ⟨hk, rest, hrest, h.blank hc⟩
  | @comment text cs k htext hend _ ih =>
    have hends : Ends cs := by
      intro c hc
      rw [hend c hc]
      rfl
    rcases ih (before ++ ';' :: text) (.inr hends) with ⟨hk, h⟩ | ⟨hk, rest, hrest, h⟩
    · exact .inl ⟨hk, h.comment htext hend⟩
    · exact .inr ⟨hk, rest, hrest, h.comment htext hend⟩
  | @token t cs k ht _ ih =>
    have hstarts : t.Starts (before ++ []) := by
      rw [List.append_nil]
      exact hbefore.starts ht
    rcases ih (before ++ [] ++ t.text) (.text ht _) with ⟨hk, h⟩ | ⟨hk, rest, hrest, h⟩
    · exact .inl ⟨hk, .token .nil hstarts ht h⟩
    · exact .inr ⟨hk, rest, hrest, .token .nil hstarts ht h⟩
  | unterminated hopen =>
    exact .inr ⟨rfl, _, closeString_eq_none.1 hopen, .last before .nil⟩

theorem partition_of_tokens (h : Cursor.ofChars cs = k) :
    (k.fault = none ∧ Partition [] [] k.tokens cs) ∨
    (k.fault = some .unterminatedString ∧
      ∃ rest, Unclosed rest ∧ Partition ('"' :: rest) [] k.tokens cs) :=
  (lexes_iff.2 h).partition [] (.inl nofun)

theorem ofChars_partition : Cursor.ofChars cs = ⟨ts, none⟩ ↔ Partition [] [] ts cs := by
  constructor
  · intro h
    rcases partition_of_tokens h with ⟨-, h⟩ | ⟨h, -⟩
    · exact h
    · cases h
  · intro h
    have heq := (h.lexes .nil).eq
    simpa [prepend, Cursor.done] using heq

theorem ofChars_partition_unclosed : Cursor.ofChars cs = ⟨ts, some .unterminatedString⟩ ↔
    ∃ rest, Unclosed rest ∧ Partition ('"' :: rest) [] ts cs := by
  constructor
  · intro h
    rcases partition_of_tokens h with ⟨h, -⟩ | ⟨-, h⟩
    · cases h
    · exact h
  · rintro ⟨rest, hrest, h⟩
    have heq := (h.lexes (.unterminated (closeString_eq_none.2 hrest))).eq
    simpa [prepend] using heq

namespace Lexed

/-- Cut by its patterns, every text is gaps and tokens to its end, or else up to a double quote that
opens a string without an end, and then that is the error. No other error is met, and no token is
empty. -/
theorem lexed_partition (cs : List Char) :
    ofChars cs = (Cursor.ofChars cs).lexed ∧
    (∀ ts, Cursor.ofChars cs = ⟨ts, none⟩ ↔ Partition [] [] ts cs) ∧
    (∀ ts, Cursor.ofChars cs = ⟨ts, some .unterminatedString⟩ ↔
      ∃ rest, Unclosed rest ∧ Partition ('"' :: rest) [] ts cs) ∧
    ((ofChars cs).fault = none ∨ (ofChars cs).fault = some .unterminatedString ∧
      ReadError.unterminatedString.message = "Unexpected EOF before end of string.") ∧
    ∀ p ∈ (ofChars cs).tokens, p.2 ≠ [] := by
  have hlexes := lexes_ofChars cs
  have hlexed := hlexes.lexed
  refine ⟨hlexed, fun _ => ofChars_partition, fun _ => ofChars_partition_unclosed, ?_, ?_⟩
  · rw [hlexed]
    rcases hlexes.fault_eq with h | h
    · exact .inl h
    · exact .inr ⟨h, rfl⟩
  · rw [hlexed]
    intro p hp
    obtain ⟨t, ht, rfl⟩ := List.mem_map.1 hp
    exact hlexes.text_ne_nil t ht

/-- A semicolon in a string, a double quote in a comment, and a backslash at the end of a string
without an end. -/
theorem lexed_partition_backslash :
    let cs := "a\";\" ;\"\n[\"\\".toList
    (ofChars cs).fault = some .unterminatedString ∧
      (ofChars cs).tokens = [(.atom, ['a']), (.string, ['"', ';', '"']), (.opening, ['['])] ∧
      ∃ rest, Unclosed rest ∧
        Partition ('"' :: rest) [] [.atom ['a'], .string [';'], .opening .square] cs := by
  intro cs
  have htokens : Cursor.ofChars cs =
      ⟨[.atom ['a'], .string [';'], .opening .square], some .unterminatedString⟩ := by
    decide +kernel
  obtain ⟨hlexed, -, hunclosed, -⟩ := lexed_partition cs
  have hcut := (hunclosed _).1 htokens
  rw [hlexed, htokens]
  exact ⟨rfl, rfl, hcut⟩

end Lexed

end DynamicLisp
