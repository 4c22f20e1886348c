import DynamicLisp.Editor.Document
import DynamicLisp.Proofs.Editor.Places

/-! What an editor complains about. The warnings about parentheses and quotes agree with the reader:
there are none for a text that can be read, and a list that is not closed brings the one about
parentheses (`diagnostics_exact`). -/
namespace DynamicLisp

/-! ### Brackets -/

/-- How many more lists are open behind a token than before it. -/
def Token.nesting : Token → Int
  | opening _ => 1
  | closing _ => -1
  | _ => 0

def nesting : List Token → Int
  | [] => 0
  | t :: ts => t.nesting + nesting ts

/-- The number of lists among the frames. -/
def openLists : List Frame → Nat
  | [] => 0
  | .quote :: fs => openLists fs
  | .list .. :: fs => openLists fs + 1

variable {cs body text rest : List Char} {t : Token} {ts : List Token} {k : Cursor} {d : Datum}
  {ds : List Datum} {fs fs' : List Frame} {p : Progress} {e : ReadError}

@[simp] theorem nesting_nil : nesting [] = 0 := rfl

@[simp] theorem nesting_cons (t : Token) (ts : List Token) :
    nesting (t :: ts) = t.nesting + nesting ts := rfl

theorem openLists_complete (d : Datum) (fs : List Frame) :
    openLists (complete d fs).result.2 = openLists fs := by
  induction fs generalizing d with
  | nil => rfl
  | cons f fs ih =>
    cases f with
    | quote => exact ih (.quote d)
    | list b items => rfl

theorem openLists_fed (h : Fed fs t p) :
    (openLists p.result.2 : Int) = openLists fs + t.nesting := by
  cases h with
  | atom _ _ => simp [openLists_complete, Token.nesting]
  | string _ _ => simp [openLists_complete, Token.nesting]
  | quote _ => simp [Progress.result, openLists, Token.nesting]
  | opening b _ => simp [Progress.result, openLists, Token.nesting]
  | closing b items fs =>
    rw [openLists_complete, openLists, Token.nesting]
    omega

/-- The brackets of tokens that can be read tell how many lists they leave open. -/
theorem openLists_consume (h : consume fs ts = .ok (ds, fs')) :
    (openLists fs' : Int) = openLists fs + nesting ts := by
  induction ts generalizing fs ds with
  | nil => cases h; simp
  | cons t ts ih =>
    obtain ⟨p, es, hp, hrest, -⟩ := consume_cons.1 h
    have hfirst := openLists_fed (fed_of_feed hp)
    have hothers := ih hrest
    rw [nesting_cons]
    omega

namespace Editor

theorem balance_addTokens (cs : List Char) (x : Index) (ps : List Placed) :
    (x.addTokens cs ps).balance = x.balance + nesting (ps.map (·.token)) := by
  induction ps generalizing x with
  | nil => simp [Index.addTokens]
  | cons p ps ih =>
    obtain ⟨t, start⟩ := p
    rw [Index.addTokens, ih, List.map_cons, nesting_cons]
    cases t <;> simp [Token.nesting] <;> omega

/-! ### Quotes -/

theorem foldl_comment (h : '\n' ∉ text) : text.foldl QuoteState.next .comment = .comment := by
  induction text with
  | nil => rfl
  | cons c text ih =>
    have hc : c ≠ '\n' := fun he => h (he ▸ List.mem_cons_self)
    have htext : '\n' ∉ text := fun hmem => h (List.mem_cons_of_mem c hmem)
    rw [List.foldl_cons, QuoteState.next, if_neg hc, ih htext]

theorem foldl_inside (h : Inside body) : body.foldl QuoteState.next .string = .string := by
  induction h with
  | nil => rfl
  | plain hquote hslash _ ih =>
    rw [List.foldl_cons, QuoteState.next, if_neg hslash, if_neg hquote, ih]
  | escaped c _ ih =>
    rw [List.foldl_cons, List.foldl_cons]
    exact ih

/-- A string without an end reaches to the end of the text. -/
theorem inString_of_unterminated (h : Cursor.closeString cs = none) :
    (cs.foldl QuoteState.next .string).inString = true := by
  fun_induction Cursor.closeString cs with
  | case1 => rfl
  | case2 => cases h
  | case3 c cs ih => exact ih (Option.map_eq_none_iff.1 h)
  | case4 c cs hquote hslash ih =>
    have hcs := Option.map_eq_none_iff.1 h
    by_cases hc : c = '\\'
    · cases cs with
      | nil => rw [hc]; rfl
      | cons d ds => exact (hslash d ds hc rfl).elim
    · rw [List.foldl_cons, QuoteState.next, if_neg hc, if_neg hquote, ih hcs]

theorem next_code {c : Char} (hslash : c ≠ '\\') (hcomment : c ≠ ';') (hquote : c ≠ '"') :
    QuoteState.next .code c = .code := by
  rw [QuoteState.next, if_neg hslash, if_neg hcomment, if_neg hquote]

theorem foldl_atom (hchars : ∀ c ∈ text, isAtomChar c = true) (hslash : '\\' ∉ text) :
    text.foldl QuoteState.next .code = .code := by
  induction text with
  | nil => rfl
  | cons c text ih =>
    obtain ⟨hc, htext⟩ := List.forall_mem_cons.1 hchars
    have hmark := (not_blank_of_isAtomChar hc).2
    have hcode : QuoteState.next .code c = .code := by
      apply next_code
      · rintro rfl
        exact hslash List.mem_cons_self
      · rintro rfl
        simp at hmark
      · rintro rfl
        simp at hmark
    rw [List.foldl_cons, hcode, ih htext fun hmem => hslash (List.mem_cons_of_mem c hmem)]

/-- Tokens begin and end outside of strings and comments. -/
theorem foldl_text (h : t.Stands rest) (hslash : ∀ text, t = .atom text → '\\' ∉ text) :
    t.text.foldl QuoteState.next .code = .code := by
  cases t with
  | quote => rfl
  | opening b => cases b <;> rfl
  | closing b => cases b <;> rfl
  | string body =>
    rw [Token.text, List.cons_append, List.foldl_cons, List.foldl_append]
    change [_].foldl QuoteState.next (body.foldl QuoteState.next .string) = _
    rw [foldl_inside h]
    rfl
  | atom text => exact foldl_atom h.2.1 (hslash text rfl)

/-- As long as no atom holds a backslash, the quotes of a text tell whether it ends in a string. -/
theorem hasUnmatchedQuote_eq (h : Lexes cs k)
    (hslash : ∀ text, .atom text ∈ k.tokens → '\\' ∉ text) :
    hasUnmatchedQuote cs = k.fault.isSome := by
  unfold hasUnmatchedQuote
  induction h with
  | nil => rfl
  | @blank c cs k hblank _ ih =>
    have hc : QuoteState.next .code c = .code := by
      apply next_code <;> (rintro rfl; cases hblank)
    rw [List.foldl_cons, hc, ih hslash]
  | @comment text rest k htext hrest _ ih =>
    have hih := ih hslash
    rw [List.foldl_append, List.foldl_cons]
    change (rest.foldl QuoteState.next (text.foldl QuoteState.next .comment)).inString = _
    rw [foldl_comment htext, ← hih]
    cases rest with
    | nil => rfl
    | cons c rest =>
      obtain rfl := hrest c rfl
      rfl
  | @token t rest k hstands _ ih =>
    have ht : ∀ text, t = .atom text → '\\' ∉ text := fun text he =>
      hslash text (he ▸ List.mem_cons_self)
    have hrest : ∀ text, .atom text ∈ k.tokens → '\\' ∉ text := fun text hmem =>
      hslash text (List.mem_cons_of_mem t hmem)
    rw [List.foldl_append, foldl_text hstands ht, ih hrest]
    rfl
  | unterminated hopen => exact inString_of_unterminated hopen

end Editor

/-! ### Texts that end too early -/

/-- The text ends where the frames are open: complete expressions come first, and then the tokens
that open the frames. -/
def Cursor.EndsIn (c : Cursor) (fs : List Frame) : Prop :=
  c.fault = none ∧ ∃ us ws ds, c.tokens = us ++ ws ∧ Sequence us ds ∧ Opened ws fs

theorem Opened.consume (h : Opened ts fs) : consume [] ts = .ok ([], fs) := by
  induction h with
  | nil => rfl
  | @quote ts fs _ ih => exact consume_trans ih (consume_one (.quote fs))
  | @list ts us fs items b _ hs ih =>
    have hitems := consume_items b [] fs hs
    rw [List.reverse_reverse, List.append_nil] at hitems
    exact consume_trans ih (consume_trans (consume_one (.opening b fs)) hitems)

theorem consume_of_endsIn {c : Cursor} (h : c.EndsIn fs) :
    ∃ ds, consume [] c.tokens = .ok (ds, fs) := by
  obtain ⟨-, us, ws, ds, htokens, hs, ho⟩ := h
  rw [htokens]
  exact ⟨_, consume_trans (consume_sequence hs) ho.consume⟩

theorem endsIn_of_consume {c : Cursor} (hfault : c.fault = none)
    (h : consume [] c.tokens = .ok (ds, fs)) : c.EndsIn fs := by
  obtain ⟨us, ws, htokens, hs, ho⟩ := sequence_of_consume .nil h
  exact ⟨hfault, us, ws, ds, htokens, hs, ho⟩

theorem exists_endsIn {text : String} (h : read text = .error .endInList) :
    ∃ fs, (Cursor.ofText text).EndsIn fs ∧ 1 ≤ openLists fs := by
  rw [read_eq_error] at h
  obtain ⟨ds, fs, hc⟩ | ⟨ts, t, us, ds, fs, e, hts, hc, he⟩ :=
    consume_or_feed [] (Cursor.ofText text).tokens
  · rw [ofCursor_of_consume hc] at h
    rcases (lexes_ofChars text.toList).fault_eq with hfault | hfault
    · change (Cursor.ofText text).fault = none at hfault
      rw [hfault] at h
      refine ⟨fs, endsIn_of_consume hfault hc, ?_⟩
      rcases fs with _ | ⟨_ | ⟨b, items⟩, fs⟩
      · cases h
      · cases h
      · exact Nat.succ_pos _
    · change (Cursor.ofText text).fault = some .unterminatedString at hfault
      rw [hfault] at h
      cases h
  · rw [(earliest_token hts hc he).1] at h
    cases h
    exact ((raises_of_feed he).ne_end.1 rfl).elim

namespace Editor

variable {text : String}

theorem fault_ofText (text : String) :
    (Index.ofText text).fault = (Script.ofCursor (Cursor.ofText text)).1.fault := rfl

/-- The brackets of a text of which all tokens can be taken tell the lists that it leaves open. -/
theorem balance_of_endsIn (h : (Cursor.ofText text).EndsIn fs) :
    (Index.ofText text).balance = openLists fs := by
  obtain ⟨ds, hc⟩ := consume_of_endsIn h
  have htokens : (scan text.toList).map (·.token) = (Cursor.ofText text).tokens :=
    map_token_scan h.1 (not_takesNewline_of_consume hc)
  have hbalance : (Index.ofText text).balance =
      0 + nesting ((scan text.toList).map (·.token)) := balance_addTokens _ .empty _
  have hopen := openLists_consume hc
  rw [hbalance, htokens]
  simp only [openLists] at hopen
  omega

theorem not_backslash_of_consume (h : consume fs ts = .ok (ds, fs')) :
    ∀ text, .atom text ∈ ts → '\\' ∉ text := by
  intro text htext hslash
  obtain ⟨gs, p, hfed⟩ := exists_fed h _ htext
  cases hfed with
  | atom _ hd => rcases ofAtom?_chars hd _ hslash with hchar | hdigit <;> contradiction

theorem unmatchedQuote_of_endsIn (h : (Cursor.ofText text).EndsIn fs) :
    (Index.ofText text).unmatchedQuote = false := by
  obtain ⟨ds, hc⟩ := consume_of_endsIn h
  have hquote := hasUnmatchedQuote_eq (lexes_ofChars text.toList) (not_backslash_of_consume hc)
  have hfault : (Cursor.ofChars text.toList).fault = none := h.1
  rw [hfault] at hquote
  exact hquote

theorem endsIn_of_read (h : read text = .ok ds) : (Cursor.ofText text).EndsIn [] := by
  obtain ⟨hfault, hs⟩ := ofCursor_eq_iff.1 (read_eq_ok.1 h)
  exact endsIn_of_consume hfault (consume_sequence hs)

theorem read_of_endsIn (h : (Cursor.ofText text).EndsIn fs) (he : endFault fs = some e) :
    read text = .error e := by
  obtain ⟨ds, hc⟩ := consume_of_endsIn h
  rw [read_eq_error, ofCursor_of_consume hc, h.1, he]
  rfl

theorem diagnostics_eq_nil {x : Index} :
    diagnostics x = [] ↔ x.fault = none ∧ x.balance = 0 ∧ x.unmatchedQuote = false := by
  unfold diagnostics
  cases x.fault <;> cases x.unmatchedQuote <;> by_cases h : x.balance = 0 <;> simp [h]

theorem mem_diagnostics_of_fault {x : Index} (h : x.fault = some e) :
    .malformed e ∈ diagnostics x := by
  simp [diagnostics, h]

theorem mem_diagnostics_of_balance {x : Index} (h : x.balance ≠ 0) :
    .unmatchedParentheses ∈ diagnostics x := by
  simp [diagnostics, h]

theorem diagnostics_eq_nil_iff_read :
    diagnostics (Index.ofText text) = [] ↔ ∃ ds, read text = .ok ds := by
  rw [diagnostics_eq_nil]
  constructor
  · rintro ⟨hfault, -, -⟩
    rw [fault_ofText] at hfault
    refine ⟨(Script.ofCursor (Cursor.ofText text)).1.exprs, ?_⟩
    rw [read_eq_ok, ← hfault]
  · rintro ⟨ds, h⟩
    have hend := endsIn_of_read h
    refine ⟨?_, balance_of_endsIn hend, unmatchedQuote_of_endsIn hend⟩
    rw [fault_ofText, read_eq_ok.1 h]

/-- There is nothing to complain about in a text exactly if it can be read. A text that ends inside
lists has as many more brackets opened than closed as there are lists still open, and brings the
warning about parentheses with the error. -/
theorem diagnostics_exact (text : String) :
    (diagnostics (Index.ofText text) = [] ↔ ∃ ds, read text = .ok ds) ∧
    (read text = .error .endInList →
      ∃ fs, (Cursor.ofText text).EndsIn fs ∧ 1 ≤ openLists fs) ∧
    (∀ fs, (Cursor.ofText text).EndsIn fs → (Index.ofText text).balance = openLists fs ∧
      (1 ≤ openLists fs → ∃ e, read text = .error e ∧
        .malformed e ∈ diagnostics (Index.ofText text) ∧
        .unmatchedParentheses ∈ diagnostics (Index.ofText text))) := by
  refine ⟨diagnostics_eq_nil_iff_read, exists_endsIn, fun fs hend => ?_⟩
  have hbalance := balance_of_endsIn hend
  refine ⟨hbalance, fun hopen => ?_⟩
  cases he : endFault fs with
  | none =>
    rcases fs with _ | ⟨_ | ⟨b, items⟩, fs⟩
    · exact (Nat.not_succ_le_zero 0 hopen).elim
    · cases he
    · cases he
  | some e =>
    have hread := read_of_endsIn hend he
    refine ⟨e, hread, mem_diagnostics_of_fault ?_, mem_diagnostics_of_balance ?_⟩
    · rw [fault_ofText]
      exact read_eq_error.1 hread
    · omega

/-- Two lists are open at the end of this text: the brackets in its string and its comment do not
count. -/
theorem diagnostics_exact_unclosed :
    let text := "(a [b \")\" ; )"
    let fs := [.list .square [.string ")", .name "b"], .list .round [.name "a"]]
    (Cursor.ofText text).EndsIn fs ∧ (Index.ofText text).balance = 2 ∧
      ∃ e, read text = .error e ∧ .malformed e ∈ diagnostics (Index.ofText text) ∧
        .unmatchedParentheses ∈ diagnostics (Index.ofText text) := by
  intro text fs
  have htokens : Cursor.ofText text = ⟨[.opening .round, .atom ['a'], .opening .square, .atom ['b'],
    .string [')']], none⟩ := by decide +kernel
  have hend : (Cursor.ofText text).EndsIn fs := by
    rw [htokens]
    exact endsIn_of_consume rfl rfl
  obtain ⟨hbalance, hcomplaints⟩ := (diagnostics_exact text).2.2 fs hend
  exact ⟨hend, hbalance, hcomplaints (Nat.succ_pos 1)⟩

end Editor

end DynamicLisp
