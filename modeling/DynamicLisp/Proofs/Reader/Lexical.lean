import DynamicLisp.Reader.Cursor

/-! How a text falls into blanks, comments and tokens (`Lexes`). Each text does so in the one way
that its cursor tells (`lexes_iff`), and the end of a line keeps two texts apart
(`Lexes.newline`). -/
namespace DynamicLisp

/-- What can stand between the double quotes of a string. A backslash takes the next character
along. -/
inductive Inside : List Char → Prop
  | nil : Inside []
  | plain {c : Char} {cs : List Char} : c ≠ '"' → c ≠ '\\' → Inside cs → Inside (c :: cs)
  | escaped (c : Char) {cs : List Char} : Inside cs → Inside ('\\' :: c :: cs)

namespace Cursor

/-- Tokens put before those to come. -/
def prepend (ts : List Token) (c : Cursor) : Cursor := ⟨ts ++ c.tokens, c.fault⟩

theorem prepend_append (ts us : List Token) (c : Cursor) :
    prepend (ts ++ us) c = prepend ts (prepend us c) := by
  simp [prepend, List.append_assoc]

/-- What may stand behind an atom. -/
def Ends (cs : List Char) : Prop := ∀ c ∈ cs.head?, isAtomChar c = false

theorem ends_nil : Ends [] := nofun

theorem ends_cons {c : Char} (cs : List Char) (h : isAtomChar c = false) : Ends (c :: cs) := by
  intro d hd
  cases hd
  exact h

end Cursor

open Cursor (Ends ends_cons prepend)

/-- The text of the token is read as the token where the rest follows. -/
def Token.Stands (rest : List Char) : Token → Prop
  | string body => Inside body
  | atom text => text ≠ [] ∧ (∀ c ∈ text, isAtomChar c = true) ∧ Ends rest
  | _ => True

/-- A text, and a cursor with its tokens. A comment ends before the end of its line. -/
inductive Lexes : List Char → Cursor → Prop
  | nil : Lexes [] .done
  | blank {c : Char} {cs : List Char} {k : Cursor} :
    Text.isBlank c = true → Lexes cs k → Lexes (c :: cs) k
  | comment {text rest : List Char} {k : Cursor} :
    '\n' ∉ text → (∀ c ∈ rest.head?, c = '\n') → Lexes rest k → Lexes (';' :: text ++ rest) k
  | token {t : Token} {rest : List Char} {k : Cursor} :
    t.Stands rest → Lexes rest k → Lexes (t.text ++ rest) (prepend [t] k)
  | unterminated {cs : List Char} :
    Cursor.closeString cs = none → Lexes ('"' :: cs) ⟨[], some .unterminatedString⟩

variable {cs us body text rest : List Char} {t : Token} {k l : Cursor}

/-! ### Strings -/

theorem Inside.closeString (h : Inside body) (rest : List Char) :
    Cursor.closeString (body ++ '"' :: rest) = some (body, rest) := by
  induction h with
  | nil => rfl
  | @plain c cs hquote hslash _ ih =>
    rw [List.cons_append, Cursor.closeString, ih]
    · rfl
    · exact hquote
    · intro d ds hd
      exact (hslash hd).elim
  | escaped c _ ih =>
    rw [List.cons_append, List.cons_append, Cursor.closeString, ih]
    rfl

theorem closeString_eq_some :
    Cursor.closeString cs = some (body, rest) ↔ Inside body ∧ cs = body ++ '"' :: rest := by
  constructor
  · intro h
    fun_induction Cursor.closeString cs generalizing body rest with
    | case1 => cases h
    | case2 => cases h; exact ⟨.nil, rfl⟩
    | case3 c cs ih =>
      obtain ⟨⟨b, r⟩, hr, he⟩ := Option.map_eq_some_iff.1 h
      cases he
      obtain ⟨hb, rfl⟩ := ih hr
      exact ⟨.escaped c hb, rfl⟩
    | case4 c cs hquote hslash ih =>
      obtain ⟨⟨b, r⟩, hr, he⟩ := Option.map_eq_some_iff.1 h
      cases he
      obtain ⟨hb, rfl⟩ := ih hr
      refine ⟨.plain hquote ?_ hb, rfl⟩
      -- A backslash would have taken the next character along, and there is one.
      rintro rfl
      obtain ⟨d, ds, hds⟩ := List.exists_cons_of_ne_nil (l := b ++ '"' :: rest) (by simp)
      exact hslash d ds rfl hds
  · rintro ⟨h, rfl⟩
    exact h.closeString rest

/-! ### What the cursor does at each piece -/

theorem skip_blank {c : Char} (h : Text.isBlank c = true) (cs : List Char) :
    Cursor.skip false (c :: cs) = Cursor.skip false cs := by
  simp [Cursor.skip, h]

theorem skip_comment (h : '\n' ∉ text) (hr : ∀ c ∈ rest.head?, c = '\n') :
    Cursor.skip false (';' :: text ++ rest) = Cursor.skip false rest := by
  change Cursor.skip true (text ++ rest) = Cursor.skip false rest
  induction text with
  | nil =>
    cases rest with
    | nil => rfl
    | cons c cs =>
      obtain rfl := hr c rfl
      rfl
  | cons c text ih =>
    have hc : c ≠ '\n' := fun he => h (he ▸ List.mem_cons_self)
    have ht : '\n' ∉ text := fun hmem => h (List.mem_cons_of_mem c hmem)
    simpa [Cursor.skip, hc] using ih ht

theorem front_unterminated (h : Cursor.closeString cs = none) :
    Cursor.front (Cursor.skip false ('"' :: cs)) = .unterminated := by
  change Cursor.front ('"' :: cs) = .unterminated
  simp [Cursor.front, h]

theorem not_blank_of_isAtomChar {c : Char} (h : isAtomChar c = true) :
    Text.isBlank c = false ∧ c ∉ ['(', ')', '[', ']', '\x27', '"', ';'] := by
  simp only [isAtomChar, isDelimiter, Bool.and_eq_true, Bool.not_eq_true', Bool.or_eq_false_iff,
    beq_eq_false_iff_ne] at h
  simp [h]

theorem skip_text (h : t.Stands rest) : Cursor.skip false (t.text ++ rest) = t.text ++ rest := by
  cases t with
  | quote => rfl
  | opening b => cases b <;> rfl
  | closing b => cases b <;> rfl
  | string body => rfl
  | atom text =>
    obtain ⟨hne, hchars, -⟩ := h
    obtain ⟨c, cs, rfl⟩ := List.exists_cons_of_ne_nil hne
    obtain ⟨hblank, hmark⟩ := not_blank_of_isAtomChar (hchars c List.mem_cons_self)
    have hcomment : c ≠ ';' := fun he => hmark (by simp [he])
    simp [Token.text, Cursor.skip, hblank, hcomment]

theorem span_append {p : Char → Bool} (h : ∀ c ∈ cs, p c = true)
    (hr : ∀ c ∈ rest.head?, p c = false) :
    (cs ++ rest).takeWhile p = cs ∧ (cs ++ rest).dropWhile p = rest := by
  rw [List.takeWhile_append_of_pos h, List.dropWhile_append_of_pos h]
  cases rest with
  | nil => simp
  | cons d rest =>
    have hd : p d = false := hr d rfl
    simp [hd]

theorem front_text (h : t.Stands rest) :
    Cursor.front (Cursor.skip false (t.text ++ rest)) = .token t rest := by
  rw [skip_text h]
  cases t with
  | quote => rfl
  | opening b => cases b <;> rfl
  | closing b => cases b <;> rfl
  | string body =>
    have hclose := Inside.closeString h rest
    simp [Token.text, Cursor.front, hclose]
  | atom text =>
    obtain ⟨hne, hchars, hends⟩ := h
    obtain ⟨c, cs, rfl⟩ := List.exists_cons_of_ne_nil hne
    obtain ⟨hc, hcs⟩ := List.forall_mem_cons.1 hchars
    obtain ⟨htake, hdrop⟩ := span_append hcs hends
    have hmark := (not_blank_of_isAtomChar hc).2
    simp only [List.mem_cons, List.not_mem_nil, or_false, not_or] at hmark
    obtain ⟨hopen, hclose, hsquare, hunsquare, hquote, hstring, -⟩ := hmark
    rw [Token.text, List.cons_append, Cursor.front, htake, hdrop]
    all_goals assumption

namespace Cursor

theorem ofChars_front (cs : List Char) : ofChars cs = match front (skip false cs) with
    | .finished => done
    | .unterminated => ⟨[], some .unterminatedString⟩
    | .token t rest => prepend [t] (ofChars rest) := by
  rw [ofChars]
  split <;> simp_all [prepend]

theorem ofChars_of_token (h : front (skip false cs) = .token t rest) :
    ofChars cs = prepend [t] (ofChars rest) := by
  rw [ofChars_front, h]

theorem ofChars_of_skip (h : skip false cs = skip false us) : ofChars cs = ofChars us := by
  rw [ofChars, ofChars.eq_def us, h]

theorem ofChars_text (h : t.Stands rest) :
    ofChars (t.text ++ rest) = prepend [t] (ofChars rest) :=
  ofChars_of_token (front_text h)

end Cursor

/-! ### Every text falls into pieces -/

theorem Lexes.eq (h : Lexes cs k) : Cursor.ofChars cs = k := by
  induction h with
  | nil =>
    rw [Cursor.ofChars]
    rfl
  | blank hblank _ ih =>
    rw [Cursor.ofChars_of_skip (skip_blank hblank _), ih]
  | comment htext hrest _ ih =>
    rw [Cursor.ofChars_of_skip (skip_comment htext hrest), ih]
  | token hstands _ ih => rw [Cursor.ofChars_text hstands, ih]
  | unterminated hopen => rw [Cursor.ofChars_front, front_unterminated hopen]

theorem head_dropWhile (p : Char → Bool) (cs : List Char) :
    ∀ c ∈ (cs.dropWhile p).head?, p c = false := by
  intro c hc
  have hhead := List.head?_dropWhile_not p cs
  rw [hc] at hhead
  exact hhead

/-- A character that is not skipped and opens neither a string nor an atom is a token alone. -/
theorem exists_mark {c : Char} (hblank : ¬ Text.isBlank c = true) (hcomment : c ≠ ';')
    (hstring : c ≠ '"') (hatom : ¬ isAtomChar c = true) (rest : List Char) :
    ∃ t : Token, t.text = [c] ∧ t.Stands rest := by
  have hc : isDelimiter c = true := by simpa [isAtomChar, hblank] using hatom
  simp only [isDelimiter, Bool.or_eq_true, beq_iff_eq] at hc
  rcases hc with (((((rfl | rfl) | rfl) | rfl) | rfl) | rfl) | rfl
  · exact ⟨.opening .round, rfl, trivial⟩
  · exact ⟨.closing .round, rfl, trivial⟩
  · exact ⟨.opening .square, rfl, trivial⟩
  · exact ⟨.closing .square, rfl, trivial⟩
  · exact ⟨.quote, rfl, trivial⟩
  · exact (hstring rfl).elim
  · exact (hcomment rfl).elim

theorem not_mem_takeWhile (cs : List Char) : '\n' ∉ cs.takeWhile (· ≠ '\n') := by
  intro hmem
  have hne := List.all_eq_true.1 List.all_takeWhile _ hmem
  simp at hne

/-- What a text can start with. -/
theorem first_piece (c : Char) (cs : List Char) :
    Text.isBlank c = true ∨
    (∃ text rest, '\n' ∉ text ∧ (∀ d ∈ rest.head?, d = '\n') ∧ c :: cs = ';' :: text ++ rest) ∨
    (∃ t rest, Token.Stands rest t ∧ c :: cs = t.text ++ rest) ∨
    (c = '"' ∧ Cursor.closeString cs = none) := by
  by_cases hblank : Text.isBlank c = true
  · exact .inl hblank
  by_cases hcomment : c = ';'
  · refine .inr (.inl ⟨_, cs.dropWhile (· ≠ '\n'), not_mem_takeWhile cs, fun d hd => ?_, ?_⟩)
    · simpa using head_dropWhile _ cs d hd
    · rw [hcomment, List.cons_append, List.takeWhile_append_dropWhile]
  by_cases hstring : c = '"'
  · cases hclose : Cursor.closeString cs with
    | none => exact .inr (.inr (.inr ⟨hstring, rfl⟩))
    | some p =>
      obtain ⟨hbody, hcs⟩ := closeString_eq_some.1 hclose
      refine .inr (.inr (.inl ⟨.string p.1, p.2, hbody, ?_⟩))
      simp [Token.text, hstring, hcs]
  right; right; left
  by_cases hatom : isAtomChar c = true
  · refine ⟨.atom (c :: cs.takeWhile isAtomChar), cs.dropWhile isAtomChar, ⟨?_, ?_, ?_⟩, ?_⟩
    · exact List.cons_ne_nil _ _
    · exact List.forall_mem_cons.2 ⟨hatom, List.all_eq_true.1 List.all_takeWhile⟩
    · exact head_dropWhile _ cs
    · rw [Token.text, List.cons_append, List.takeWhile_append_dropWhile]
  · obtain ⟨t, ht, hstands⟩ := exists_mark hblank hcomment hstring hatom cs
    exact ⟨t, cs, hstands, by rw [ht, List.singleton_append]⟩

theorem Token.Stands.length_pos (h : t.Stands rest) : 0 < t.text.length := by
  cases t with
  | atom text => exact List.length_pos_iff.2 h.1
  | _ => simp [Token.text]

theorem exists_lexes (cs : List Char) : ∃ k, Lexes cs k := by
  match cs with
  | [] => exact ⟨_, .nil⟩
  | c :: cs =>
    rcases first_piece c cs with
      hblank | ⟨text, rest, htext, hrest, he⟩ | ⟨t, rest, hstands, he⟩ | ⟨rfl, hclose⟩
    · obtain ⟨k, hk⟩ := exists_lexes cs
      exact ⟨k, .blank hblank hk⟩
    · have hlength : rest.length < (c :: cs).length := by
        rw [he, List.length_append, List.length_cons]
        omega
      obtain ⟨k, hk⟩ := exists_lexes rest
      rw [he]
      exact ⟨k, .comment htext hrest hk⟩
    · have hlength : rest.length < (c :: cs).length := by
        have hpos := hstands.length_pos
        rw [he, List.length_append]
        omega
      obtain ⟨k, hk⟩ := exists_lexes rest
      rw [he]
      exact ⟨_, .token hstands hk⟩
    · exact ⟨_, .unterminated hclose⟩
termination_by cs.length
decreasing_by
  · exact Nat.lt_succ_self _
  · exact hlength
  · exact hlength

/-- A text falls into pieces in one way, and its cursor holds the tokens among them. -/
theorem lexes_iff : Lexes cs k ↔ Cursor.ofChars cs = k := by
  constructor
  · exact Lexes.eq
  · rintro rfl
    obtain ⟨k, hk⟩ := exists_lexes cs
    rwa [hk.eq]

theorem lexes_ofChars (cs : List Char) : Lexes cs (Cursor.ofChars cs) := lexes_iff.2 rfl

/-- A string without an end is the only error among pieces. -/
theorem Lexes.fault_eq (h : Lexes cs k) : k.fault = none ∨ k.fault = some .unterminatedString := by
  induction h with
  | nil => exact .inl rfl
  | unterminated _ => exact .inr rfl
  | _ => assumption

theorem Token.Stands.newline (h : t.Stands rest) (us : List Char) :
    t.Stands (rest ++ '\n' :: us) := by
  cases t with
  | atom text =>
    obtain ⟨hne, hchars, hends⟩ := h
    refine ⟨hne, hchars, ?_⟩
    cases rest with
    | nil => exact ends_cons us rfl
    | cons c rest => exact ends_cons _ (hends c rfl)
  | _ => exact h

/-- No piece of a text reaches over the end of its last line. -/
theorem Lexes.newline (h : Lexes cs k) (hk : k.fault = none) (h' : Lexes us l) :
    Lexes (cs ++ '\n' :: us) (prepend k.tokens l) := by
  induction h with
  | nil => exact .blank rfl h'
  | blank hblank _ ih => exact .blank hblank (ih hk)
  | @comment text rest k htext hrest _ ih =>
    rw [List.append_assoc]
    refine .comment htext ?_ (ih hk)
    cases rest with
    | nil => simp
    | cons c rest => exact hrest
  | token hstands _ ih =>
    rw [List.append_assoc]
    exact .token (hstands.newline us) (ih hk)
  | unterminated _ => cases hk

end DynamicLisp
