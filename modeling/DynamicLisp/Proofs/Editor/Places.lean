import DynamicLisp.Editor.Scan
import DynamicLisp.Proofs.Reader.Earliest
import DynamicLisp.Proofs.Reader.Lexical

/-! The scanner of the editor beside the reader. Both find the same tokens at the same places, as
long as no backslash in a string takes the end of a line along (`scan_places`). -/
namespace DynamicLisp

/-- A token, with the numbers of characters before its start and before its end. -/
structure Place where
  token : Token
  start : Nat
  stop : Nat
deriving DecidableEq, Inhabited

namespace Cursor

/-- The places at which the reader finds tokens, told by how much of a text of the given length is
left. -/
def placesIn (length : Nat) (cs : List Char) : List Place :=
  match _h : front (skip false cs) with
  | .token t rest =>
    ⟨t, length - (skip false cs).length, length - rest.length⟩ :: placesIn length rest
  | _ => []
termination_by cs.length
decreasing_by exact Nat.lt_of_lt_of_le (length_front_lt ‹_›) (length_skip_le _ _)

def places (cs : List Char) : List Place := placesIn cs.length cs

end Cursor

/-- Inside a string, a backslash that is not taken along itself takes the end of a line along. -/
def TakesNewline (body : List Char) : Prop :=
  ∃ before after, Inside before ∧ body = before ++ '\\' :: '\n' :: after

variable {cs us body text rest : List Char} {t : Token} {k : Cursor} {n length : Nat}

/-! ### Places -/

theorem placesIn_of_skip (h : Cursor.skip false cs = Cursor.skip false us) :
    Cursor.placesIn length cs = Cursor.placesIn length us := by
  rw [Cursor.placesIn, Cursor.placesIn.eq_def length us, h]

theorem placesIn_text (h : t.Stands rest) : Cursor.placesIn length (t.text ++ rest) =
    ⟨t, length - (t.text ++ rest).length, length - rest.length⟩ :: Cursor.placesIn length rest := by
  have hfront := front_text h
  rw [Cursor.placesIn]
  split
  · rename_i h'
    rw [hfront] at h'
    cases h'
    rw [skip_text h]
  · rename_i h'
    exact (h' _ _ hfront).elim

theorem placesIn_unterminated (h : Cursor.closeString cs = none) :
    Cursor.placesIn length ('"' :: cs) = [] := by
  have hfront := front_unterminated h
  rw [Cursor.placesIn]
  split <;> simp_all

theorem Lexes.placesIn_tokens (h : Lexes cs k) :
    (Cursor.placesIn length cs).map (·.token) = k.tokens := by
  induction h with
  | nil =>
    rw [Cursor.placesIn]
    rfl
  | blank hblank _ ih => rw [placesIn_of_skip (skip_blank hblank _), ih]
  | comment htext hrest _ ih => rw [placesIn_of_skip (skip_comment htext hrest), ih]
  | token hstands _ ih =>
    rw [placesIn_text hstands, List.map_cons, ih]
    rfl
  | unterminated hopen =>
    rw [placesIn_unterminated hopen]
    rfl

/-- An atom does not go on behind an atom, and no comment starts directly before one. -/
def Detached (before cs : List Char) : Prop :=
  ∀ c ∈ cs.head?, isAtomChar c = true → ∀ b ∈ before.getLast?, isAtomChar b = false ∧ b ≠ ';'

theorem Detached.of_not_atomChar {before : List Char} (h : ∀ c ∈ cs.head?, isAtomChar c = false) :
    Detached before cs := by
  intro c hc hatom
  rw [h c hc] at hatom
  cases hatom

/-- What follows a token is detached from it. -/
theorem Token.Stands.detached (h : t.Stands rest) (before : List Char) :
    Detached (before ++ t.text) rest := by
  cases t with
  | atom text => exact .of_not_atomChar h.2.2
  | opening b | closing b =>
    rintro - - - c hc
    rw [Token.text, List.getLast?_concat] at hc
    cases b <;> cases hc <;> decide
  | quote =>
    rintro - - - c hc
    obtain rfl : '\x27' = c := by simpa [Token.text] using hc
    decide
  | string body =>
    rintro - - - c hc
    rw [Token.text, ← List.append_assoc, List.getLast?_concat] at hc
    cases hc
    decide

/-- A token is found where it stands in the text. -/
theorem Lexes.stands_at (h : Lexes cs k) (before : List Char) :
    ∀ p ∈ Cursor.placesIn (before ++ cs).length cs, ∃ front rest,
      before ++ cs = front ++ (p.token.text ++ rest) ∧ p.start = front.length ∧
      p.stop = front.length + p.token.text.length ∧ p.token.Stands rest ∧
      (Detached before cs → Detached front (p.token.text ++ rest)) := by
  induction h generalizing before with
  | nil =>
    intro p hp
    rw [Cursor.placesIn] at hp
    cases hp
  | @blank c cs k hblank _ ih =>
    have hdetached : Detached (before ++ [c]) cs := by
      rintro - - - b hb
      obtain rfl : c = b := by simpa using hb
      refine ⟨by simp [isAtomChar, hblank], ?_⟩
      rintro rfl
      cases hblank
    rw [placesIn_of_skip (skip_blank hblank cs), ← List.singleton_append, ← List.append_assoc]
    intro p hp
    obtain ⟨front, rest, hcs, hstart, hstop, hstands, hfront⟩ := ih (before ++ [c]) p hp
    exact ⟨front, rest, hcs, hstart, hstop, hstands, fun _ => hfront hdetached⟩
  | @comment text rest k htext hrest _ ih =>
    have hdetached : Detached (before ++ ';' :: text) rest := .of_not_atomChar fun c hc => by
      rw [hrest c hc]
      rfl
    rw [placesIn_of_skip (skip_comment htext hrest), ← List.append_assoc]
    intro p hp
    obtain ⟨front, rest, hcs, hstart, hstop, hstands, hfront⟩ := ih (before ++ ';' :: text) p hp
    exact ⟨front, rest, hcs, hstart, hstop, hstands, fun _ => hfront hdetached⟩
  | @token t rest k hstands _ ih =>
    rw [placesIn_text hstands]
    refine List.forall_mem_cons.2 ⟨⟨before, rest, rfl, ?_, ?_, hstands, id⟩, fun p hp => ?_⟩
    · change (before ++ (t.text ++ rest)).length - (t.text ++ rest).length = before.length
      rw [List.length_append]
      omega
    · change (before ++ (t.text ++ rest)).length - rest.length = before.length + t.text.length
      simp only [List.length_append]
      omega
    · rw [← List.append_assoc] at hp ⊢
      obtain ⟨front, rest, hcs, hstart, hstop, hp, hfront⟩ := ih (before ++ t.text) p hp
      exact ⟨front, rest, hcs, hstart, hstop, hp, fun _ => hfront (hstands.detached before)⟩
  | unterminated hopen =>
    intro p hp
    rw [placesIn_unterminated hopen] at hp
    cases hp

/-- A token is found where its text stands. -/
theorem Lexes.text_at (h : Lexes cs k) (before : List Char) :
    ∀ p ∈ Cursor.placesIn (before ++ cs).length cs,
      ((before ++ cs).drop p.start).take (p.stop - p.start) = p.token.text := by
  intro p hp
  obtain ⟨front, rest, hcs, hstart, hstop, -, -⟩ := h.stands_at before p hp
  rw [hcs, hstart, hstop, Nat.add_sub_cancel_left, List.drop_left, List.take_left]

/-! ### Scanning -/

namespace Editor

theorem scanFrom_blank {c : Char} (h : Text.isBlank c = true) (cs : List Char) :
    scanFrom n (c :: cs) = scanFrom (n + 1) cs := by
  rw [scanFrom]
  simp [h]

theorem scanFrom_comment (h : '\n' ∉ text) (hr : ∀ c ∈ rest.head?, c = '\n') :
    scanFrom n (';' :: text ++ rest) = scanFrom (n + (';' :: text).length) rest := by
  have hline : ∀ c ∈ text, decide (c ≠ '\n') = true := fun c hc =>
    decide_eq_true fun he => h (he ▸ hc)
  have hend : ∀ c ∈ rest.head?, decide (c ≠ '\n') = false := fun c hc => by simp [hr c hc]
  obtain ⟨htake, hdrop⟩ := span_append hline hend
  have hlength : n + (';' :: text).length = n + 1 + text.length := by
    rw [List.length_cons]
    omega
  rw [hlength, List.cons_append, scanFrom, htake, hdrop]
  rfl

theorem closeString_of_inside (h : Inside body) (hn : ¬ TakesNewline body) (rest : List Char) :
    closeString (body ++ '"' :: rest) = some (body, rest) := by
  induction h with
  | nil => rfl
  | @plain c cs hquote hslash hcs ih =>
    have hrest : ¬ TakesNewline cs := by
      rintro ⟨before, after, hbefore, rfl⟩
      exact hn ⟨c :: before, after, .plain hquote hslash hbefore, rfl⟩
    rw [List.cons_append, closeString, ih hrest]
    · rfl
    · exact hquote
    · intro d ds hd
      exact (hslash hd).elim
  | @escaped c cs hcs ih =>
    have hc : c ≠ '\n' := by
      rintro rfl
      exact hn ⟨[], cs, .nil, rfl⟩
    have hrest : ¬ TakesNewline cs := by
      rintro ⟨before, after, hbefore, rfl⟩
      exact hn ⟨'\\' :: c :: before, after, .escaped c hbefore, rfl⟩
    rw [List.cons_append, List.cons_append, closeString, if_neg hc, ih hrest]
    rfl

theorem scanFrom_text (h : t.Stands rest) (hn : ∀ body, t = .string body → ¬ TakesNewline body) :
    scanFrom n (t.text ++ rest) = ⟨t, n⟩ :: scanFrom (n + t.text.length) rest := by
  cases t with
  | quote =>
    change scanFrom n ('\x27' :: rest) = _
    rw [scanFrom]
    rfl
  | opening b => cases b <;> (change scanFrom n (_ :: rest) = _; rw [scanFrom]; rfl)
  | closing b => cases b <;> (change scanFrom n (_ :: rest) = _; rw [scanFrom]; rfl)
  | string body =>
    have hclose := closeString_of_inside h (hn body rfl) rest
    have htext : (Token.string body).text ++ rest = '"' :: (body ++ '"' :: rest) := by
      simp [Token.text]
    rw [htext, scanFrom, if_neg (by decide), if_neg (by decide), if_pos rfl]
    split
    · rename_i h'
      rw [hclose] at h'
      cases h'
      simp [Token.text, Nat.add_assoc]
    · rename_i h'
      rw [hclose] at h'
      cases h'
  | atom text =>
    obtain ⟨hne, hchars, hends⟩ := h
    obtain ⟨c, cs, rfl⟩ := List.exists_cons_of_ne_nil hne
    obtain ⟨hc, hcs⟩ := List.forall_mem_cons.1 hchars
    obtain ⟨htake, hdrop⟩ := span_append hcs hends
    obtain ⟨hblank, hmark⟩ := not_blank_of_isAtomChar hc
    have hsingle : single? c = none := by
      unfold single?
      split <;> simp_all
    have hcomment : c ≠ ';' := fun he => hmark (by simp [he])
    have hstring : c ≠ '"' := fun he => hmark (by simp [he])
    rw [Token.text, List.cons_append, scanFrom, htake, hdrop, hsingle]
    simp [hblank, hcomment, hstring]

def Placed.place (p : Placed) : Place := ⟨p.token, p.start, p.stop⟩

/-- The scanner keeps pace with the reader from piece to piece. -/
theorem scanFrom_places (h : Lexes cs k) (hfault : k.fault = none)
    (hn : ∀ body, .string body ∈ k.tokens → ¬ TakesNewline body) (n : Nat) :
    (scanFrom n cs).map Placed.place = Cursor.placesIn (n + cs.length) cs := by
  induction h generalizing n with
  | nil =>
    rw [scanFrom, Cursor.placesIn]
    rfl
  | @blank c cs k hblank _ ih =>
    have hlength : n + (c :: cs).length = n + 1 + cs.length := by
      rw [List.length_cons]
      omega
    rw [scanFrom_blank hblank, ih hfault hn, placesIn_of_skip (skip_blank hblank cs), hlength]
  | @comment text rest k htext hrest _ ih =>
    rw [scanFrom_comment htext hrest, ih hfault hn, placesIn_of_skip (skip_comment htext hrest),
      List.length_append, Nat.add_assoc]
  | @token t rest k hstands _ ih =>
    have ht : ∀ body, t = .string body → ¬ TakesNewline body := fun body he =>
      hn body (he ▸ List.mem_cons_self)
    have hrest : ∀ body, .string body ∈ k.tokens → ¬ TakesNewline body := fun body hb =>
      hn body (List.mem_cons_of_mem t hb)
    have hstart : n + (t.text ++ rest).length - (t.text ++ rest).length = n := by omega
    have hstop : n + (t.text ++ rest).length - rest.length = n + t.text.length := by
      rw [List.length_append]
      omega
    rw [scanFrom_text hstands ht, List.map_cons, ih hfault hrest, placesIn_text hstands, hstart,
      hstop, List.length_append, Nat.add_assoc]
    rfl
  | unterminated _ => cases hfault

/-- What the scanner finds in a text that the reader cuts into tokens to its end. -/
theorem scan_tokens (hfault : (Cursor.ofChars cs).fault = none)
    (hn : ∀ body, .string body ∈ (Cursor.ofChars cs).tokens → ¬ TakesNewline body) :
    (scan cs).map Placed.place = Cursor.places cs := by
  have h := scanFrom_places (lexes_ofChars cs) hfault hn 0
  rwa [Nat.zero_add] at h

theorem map_token_scan (hfault : (Cursor.ofChars cs).fault = none)
    (hn : ∀ body, .string body ∈ (Cursor.ofChars cs).tokens → ¬ TakesNewline body) :
    (scan cs).map (·.token) = (Cursor.ofChars cs).tokens := by
  rw [← (lexes_ofChars cs).placesIn_tokens, ← Cursor.places, ← scan_tokens hfault hn, List.map_map]
  rfl

end Editor

/-! ### Strings that are read -/

/-- The end of a line is no letter with a meaning behind a backslash. -/
theorem Spells.not_takesNewline (h : Spells body cs) : ¬ TakesNewline body := by
  rintro ⟨before, after, hbefore, he⟩
  induction h generalizing before with
  | nil => simp at he
  | plain hslash _ ih =>
    cases hbefore with
    | nil =>
      injection he with hc
      exact hslash hc
    | plain _ _ hrest =>
      injection he with _ he
      exact ih _ hrest he
    | escaped _ _ =>
      injection he with hc
      exact hslash hc
  | escaped hknown _ ih =>
    cases hbefore with
    | nil =>
      injection he with _ he
      injection he with hc
      simp [hc, knownEscapes] at hknown
    | plain _ hslash _ =>
      injection he with hc
      exact hslash hc.symm
    | escaped _ hrest =>
      injection he with _ he
      injection he with _ he
      exact ih _ hrest he

theorem not_takesNewline_of_consume {fs fs' : List Frame} {ts : List Token} {ds : List Datum}
    (h : consume fs ts = .ok (ds, fs')) : ∀ body, .string body ∈ ts → ¬ TakesNewline body := by
  intro body hbody
  obtain ⟨gs, p, hfed⟩ := exists_fed h _ hbody
  cases hfed with
  | string _ hspells => exact hspells.not_takesNewline

namespace Editor

/-- The reader finds each token where its text stands. In a text that it cuts into tokens to its
end, the scanner finds the same tokens at the same places, unless a backslash in a string that is
not taken along itself takes the end of a line along. In a text that can be read there is none. -/
theorem scan_places (text : String) :
    ((Cursor.places text.toList).map (·.token) = (Cursor.ofText text).tokens ∧
      ∀ p ∈ Cursor.places text.toList,
        (text.toList.drop p.start).take (p.stop - p.start) = p.token.text) ∧
    ((Cursor.ofText text).fault = none →
      (∀ body, .string body ∈ (Cursor.ofText text).tokens → ¬ TakesNewline body) →
      (scan text.toList).map Placed.place = Cursor.places text.toList) ∧
    (∀ ds, read text = .ok ds → (Cursor.ofText text).fault = none ∧
      ∀ body, .string body ∈ (Cursor.ofText text).tokens → ¬ TakesNewline body) := by
  have hlexes := lexes_ofChars text.toList
  refine ⟨⟨hlexes.placesIn_tokens, hlexes.text_at []⟩, scan_tokens, fun ds hread => ?_⟩
  obtain ⟨hfault, hs⟩ := ofCursor_eq_iff.1 (read_eq_ok.1 hread)
  exact ⟨hfault, not_takesNewline_of_consume (consume_sequence hs)⟩

/-- Brackets and the end of a line in a string, and a double quote in a comment. -/
theorem scan_places_brackets :
    let text := "(a \"[;\n\") ; \"\n'b"
    (Cursor.ofText text).fault = none ∧
      (∀ body, .string body ∈ (Cursor.ofText text).tokens → ¬ TakesNewline body) ∧
      (scan text.toList).map Placed.place = Cursor.places text.toList ∧
      Cursor.places text.toList = [⟨.opening .round, 0, 1⟩, ⟨.atom ['a'], 1, 2⟩,
        ⟨.string ['[', ';', '\n'], 3, 8⟩, ⟨.closing .round, 8, 9⟩, ⟨.quote, 14, 15⟩,
        ⟨.atom ['b'], 15, 16⟩] := by
  intro text
  have htokens : Cursor.ofText text = ⟨[.opening .round, .atom ['a'], .string ['[', ';', '\n'],
    .closing .round, .quote, .atom ['b']], none⟩ := by decide +kernel
  have hfault : (Cursor.ofText text).fault = none := by rw [htokens]
  have hbodies : ∀ body, .string body ∈ (Cursor.ofText text).tokens → ¬ TakesNewline body := by
    intro body hbody
    obtain rfl : body = ['[', ';', '\n'] := by simpa [htokens] using hbody
    have hspells : Spells ['[', ';', '\n'] ['[', ';', '\n'] := spells_of_unescape rfl
    exact hspells.not_takesNewline
  exact ⟨hfault, hbodies, (scan_places text).2.1 hfault hbodies, by decide +kernel⟩

/-- A text can be read although a backslash in it stands directly before the end of a line, if this
backslash is taken along by one before it. -/
theorem newline_after_escaped_backslash :
    read "\"\\\\\n\"" = .ok [.string "\\\n"] ∧
      ∃ body, .string body ∈ (Cursor.ofText "\"\\\\\n\"").tokens ∧ ['\\', '\n'] <:+: body := by
  have htokens : Cursor.ofText "\"\\\\\n\"" = ⟨[.string ['\\', '\\', '\n']], none⟩ := by
    decide +kernel
  constructor
  · rw [read_eq_ok, ofCursor_eq_iff, htokens]
    have hspells : Spells ['\\', '\\', '\n'] ['\\', '\n'] := spells_of_unescape rfl
    exact ⟨rfl, .cons (.string hspells) .nil⟩
  · rw [htokens]
    exact ⟨_, List.mem_singleton_self _, ['\\'], [], rfl⟩

end Editor

end DynamicLisp
