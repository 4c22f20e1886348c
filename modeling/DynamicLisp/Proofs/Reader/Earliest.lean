import DynamicLisp.Proofs.Reader.Atom
import DynamicLisp.Proofs.Reader.Grammar

/-! Which texts are read, and which error is reported otherwise. A text is read as what the grammar
derives from its tokens; the error of any other text stands at the first place where no accepted
text can go on as this one does (`read_grammar`). -/
namespace DynamicLisp

/-- What the reader meets in a text: tokens, and at the end an error or the end itself. -/
inductive Signal
  | token (t : Token)
  | fault (e : ReadError)
  | finish

namespace Signal

/-- The errors that are raised at a signal. -/
inductive Raises : Signal → ReadError → Prop
  | atom {text : List Char} {e : ReadError} :
    Datum.ofAtom? text = .error e → Raises (token (.atom text)) e
  | string {body : List Char} {e : ReadError} :
    unescape body = .error e → Raises (token (.string body)) e
  | unexpected (b : Bracket) : Raises (token (.closing b)) (.unexpectedCloser b)
  | mismatched {b b' : Bracket} : b ≠ b' → Raises (token (.closing b)) (.mismatched b b')
  | fault (e : ReadError) : Raises (fault e) e
  | endAfterQuote : Raises finish .endAfterQuote
  | endInList : Raises finish .endInList

theorem token_injective : Function.Injective token := fun _ _ h => by cases h; rfl

end Signal

namespace Cursor

/-- The tokens of a text, and how it ends. -/
def signals (c : Cursor) : List Signal := c.tokens.map .token ++ [c.fault.elim .finish .fault]

/-- The cursor behind some signals. -/
def dropSignals (c : Cursor) (n : Nat) : Cursor :=
  if n ≤ c.tokens.length then ⟨c.tokens.drop n, c.fault⟩ else done

theorem take_signals {c : Cursor} {ts us : List Token} (h : c.tokens = ts ++ us) :
    c.signals.take ts.length = ts.map .token := by
  simp [signals, h]

theorem take_signals_length (c : Cursor) :
    c.signals.take (c.tokens.length + 1) = c.signals := by
  apply List.take_of_length_le
  simp [signals]

theorem prefix_signals {ss ts : List Token} (h : ss.map .token <+: signals ⟨ts, none⟩) :
    ss <+: ts := by
  obtain he | ⟨r, hr⟩ := List.prefix_concat_iff.1 h
  · have hmem : Signal.finish ∈ ss.map Signal.token := by simp [he]
    simp at hmem
  · obtain ⟨us, vs, hts, hus, -⟩ := List.map_eq_append_iff.1 hr.symm
    rw [List.map_inj_right Signal.token_injective] at hus
    subst hus
    exact ⟨vs, hts.symm⟩

theorem signals_prefix {ss ts : List Token} (h : signals ⟨ss, none⟩ <+: signals ⟨ts, none⟩) :
    ss = ts := by
  obtain he | hp := List.prefix_concat_iff.1 h
  · exact (List.map_inj_right Signal.token_injective).1 (List.append_cancel_right he)
  · have hmem : Signal.finish ∈ ts.map Signal.token := hp.subset (by simp [signals])
    simp at hmem

end Cursor

/-- Some accepted sequence of tokens starts with the signals. -/
def Viable (ss : List Signal) : Prop :=
  ∃ ts ds, Sequence ts ds ∧ ss <+: Cursor.signals ⟨ts, none⟩

theorem Viable.of_prefix {ss ss' : List Signal} (h : Viable ss) (hp : ss' <+: ss) : Viable ss' := by
  obtain ⟨ts, ds, hs, hss⟩ := h
  exact ⟨ts, ds, hs, hp.trans hss⟩

/-- Whatever is open can be closed again. -/
theorem Opened.close {ts us : List Token} {fs : List Frame} {d : Datum} (h : Opened ts fs)
    (he : Expression us d) : ∃ vs d', Expression (ts ++ us ++ vs) d' := by
  induction h generalizing us d with
  | nil => exact ⟨[], d, by simpa using he⟩
  | quote _ ih =>
    obtain ⟨vs, d', hd⟩ := ih (.quote he)
    exact ⟨vs, d', by simpa using hd⟩
  | list b _ hs ih =>
    obtain ⟨vs, d', hd⟩ := ih (.list b (hs.append he.sequence))
    exact ⟨.closing b :: vs, d', by simpa using hd⟩

theorem viable_of_consume {ts : List Token} {ds : List Datum} {fs : List Frame}
    (h : consume [] ts = .ok (ds, fs)) : Viable (ts.map .token) := by
  obtain ⟨us, vs, rfl, hs, ho⟩ := sequence_of_consume .nil h
  obtain ⟨ws, d, he⟩ := ho.close (.list .round .nil)
  refine ⟨_, _, hs.append he.sequence, ?_⟩
  simp [Cursor.signals]

theorem consume_of_viable {ts : List Token} (h : Viable (ts.map .token)) :
    ∃ ds fs, consume [] ts = .ok (ds, fs) := by
  obtain ⟨us, ds, hs, hp⟩ := h
  obtain ⟨vs, rfl⟩ := Cursor.prefix_signals hp
  obtain ⟨es, fs, _, hc, -⟩ := consume_append.1 (consume_sequence hs)
  exact ⟨es, fs, hc⟩

/-- Reading stops at the first token that cannot be taken. -/
theorem consume_or_feed (fs : List Frame) (ts : List Token) :
    (∃ ds fs', consume fs ts = .ok (ds, fs')) ∨
    ∃ us t vs ds fs' e, ts = us ++ t :: vs ∧ consume fs us = .ok (ds, fs') ∧
      feed fs' t = .error e := by
  induction ts generalizing fs with
  | nil => exact .inl ⟨[], fs, rfl⟩
  | cons t ts ih =>
    cases hp : feed fs t with
    | error e => exact .inr ⟨[], t, ts, [], fs, e, rfl, rfl, hp⟩
    | ok p =>
      obtain ⟨ds, fs', hc⟩ | ⟨us, t', vs, ds, fs', e, rfl, hc, he⟩ := ih p.result.2
      · exact .inl ⟨_, fs', consume_cons.2 ⟨p, ds, hp, hc, rfl⟩⟩
      · exact .inr ⟨t :: us, t', vs, _, fs', e, rfl, consume_cons.2 ⟨p, ds, hp, hc, rfl⟩, he⟩

theorem collect_append {fs fs' : List Frame} {ts : List Token} {ds : List Datum}
    (fault : Option ReadError) (us : List Token) (h : consume fs ts = .ok (ds, fs')) :
    Script.collect fs fault (ts ++ us) =
      (⟨ds ++ (Script.collect fs' fault us).1.exprs, (Script.collect fs' fault us).1.fault⟩,
        (Script.collect fs' fault us).2) := by
  induction ts generalizing fs ds with
  | nil => cases h; rfl
  | cons t ts ih =>
    obtain ⟨p, es, hp, hc, rfl⟩ := consume_cons.1 h
    rw [List.cons_append, Script.collect, hp]
    cases p with
    | whole d =>
      have hr := @ih [] _ hc
      simp [hr, Progress.result]
    | pending fs =>
      have hr := @ih fs _ hc
      simp [hr, Progress.result]

theorem raises_of_feed {fs : List Frame} {t : Token} {e : ReadError} (h : feed fs t = .error e) :
    (Signal.token t).Raises e := by
  cases t with
  | quote => cases h
  | opening b => cases h
  | atom text =>
    cases hd : Datum.ofAtom? text with
    | error e' => simp [feed, hd] at h; cases h; exact .atom hd
    | ok d => rw [feed, hd] at h; cases h
  | string body =>
    cases hd : unescape body with
    | error e' => simp [feed, hd] at h; cases h; exact .string hd
    | ok cs => rw [feed, hd] at h; cases h
  | closing b =>
    rcases fs with _ | ⟨_ | ⟨b', items⟩, fs⟩
    · cases h
      exact .unexpected b
    · cases h
      exact .unexpected b
    · by_cases hb : b = b'
      · simp [feed, hb] at h
        cases h
      · simp only [feed, if_neg hb] at h
        cases h
        exact .mismatched hb

/-- The error that a text ends with while frames are open. -/
theorem raises_of_endFault {fs : List Frame} {e : ReadError} (h : endFault fs = some e) :
    Signal.finish.Raises e := by
  rcases fs with _ | ⟨_ | _, fs⟩ <;> cases h
  · exact .endAfterQuote
  · exact .endInList

/-- The errors at the end of a text are raised at no token. -/
theorem Signal.Raises.ne_end {t : Token} {e : ReadError} (h : (Signal.token t).Raises e) :
    e ≠ .endInList ∧ e ≠ .endAfterQuote ∧ e ≠ .unterminatedString := by
  cases h with
  | atom hatom => rcases error_of_ofAtom? hatom with rfl | rfl <;> exact ⟨nofun, nofun, nofun⟩
  | string hbody =>
    obtain ⟨c, rfl⟩ := error_of_unescape hbody
    exact ⟨nofun, nofun, nofun⟩
  | unexpected b => exact ⟨nofun, nofun, nofun⟩
  | mismatched _ => exact ⟨nofun, nofun, nofun⟩

section

variable {c : Cursor} {ts : List Token} {ds : List Datum} {fs : List Frame} {e : ReadError}

/-- The error at a token that cannot be taken. -/
theorem earliest_token {us : List Token} {t : Token} (hc : c.tokens = ts ++ t :: us)
    (h : consume [] ts = .ok (ds, fs)) (he : feed fs t = .error e) :
    Script.ofCursor c = (⟨ds, some e⟩, c.dropSignals (ts.length + 1)) ∧
      c.signals[ts.length]? = some (.token t) ∧ Viable (c.signals.take ts.length) ∧
      ¬ Viable (c.signals.take (ts.length + 1)) := by
  refine ⟨?_, ?_, ?_, ?_⟩
  · rw [Script.ofCursor, hc, collect_append _ _ h, Script.collect, he]
    simp [Cursor.dropSignals, hc]
  · simp [Cursor.signals, hc]
  · rw [Cursor.take_signals hc]
    exact viable_of_consume h
  · have hc' : c.tokens = (ts ++ [t]) ++ us := by simp [hc]
    have hl : ts.length + 1 = (ts ++ [t]).length := by simp
    rw [hl, Cursor.take_signals hc']
    intro hv
    obtain ⟨_, _, ht⟩ := consume_of_viable hv
    obtain ⟨_, fs', _, h', ht, -⟩ := consume_append.1 ht
    rw [h] at h'
    cases h'
    obtain ⟨p, _, hp, -⟩ := consume_cons.1 ht
    rw [he] at hp
    cases hp

theorem ofCursor_of_consume (h : consume [] c.tokens = .ok (ds, fs)) :
    Script.ofCursor c = (⟨ds, c.fault <|> endFault fs⟩, .done) := by
  have := collect_append c.fault [] h
  rw [List.append_nil] at this
  rw [Script.ofCursor, this]
  simp [Script.collect]

/-- The error at the end of a text of which all tokens can be taken. -/
theorem earliest_end (h : consume [] c.tokens = .ok (ds, fs))
    (he : (c.fault <|> endFault fs) = some e) :
    ∃ s, c.signals[c.tokens.length]? = some s ∧ s.Raises e ∧
      Viable (c.signals.take c.tokens.length) ∧
      ¬ Viable (c.signals.take (c.tokens.length + 1)) := by
  refine ⟨c.fault.elim .finish .fault, by simp [Cursor.signals], ?_, ?_, ?_⟩
  · cases hf : c.fault with
    | none => rw [hf] at he; exact raises_of_endFault he
    | some e' => rw [hf] at he; cases he; exact .fault e
  · rw [Cursor.take_signals (List.append_nil _).symm]
    exact viable_of_consume h
  · rw [Cursor.take_signals_length]
    rintro ⟨ts, es, hs, hp⟩
    cases hf : c.fault with
    | some e' =>
      have hmem : Signal.fault e' ∈ Cursor.signals ⟨ts, none⟩ :=
        hp.subset (by simp [Cursor.signals, hf])
      simp [Cursor.signals] at hmem
    | none =>
      have hts : c.tokens = ts := Cursor.signals_prefix (by simpa [Cursor.signals, hf] using hp)
      rw [hts, consume_sequence hs] at h
      cases h
      simp [hf, endFault] at he

/-- A text is read when all its tokens can be taken and nothing is open behind them. -/
theorem ofCursor_eq_iff :
    (Script.ofCursor c).1 = ⟨ds, none⟩ ↔ c.fault = none ∧ Sequence c.tokens ds := by
  constructor
  · intro h
    obtain ⟨es, fs, hc⟩ | ⟨ts, t, us, es, fs, e, hts, hc, he⟩ := consume_or_feed [] c.tokens
    · rw [ofCursor_of_consume hc] at h
      injection h with hds hf
      subst hds
      obtain ⟨hfault, hend⟩ : c.fault = none ∧ endFault fs = none := by simpa using hf
      obtain ⟨vs, ws, htokens, hs, ho⟩ := sequence_of_consume .nil hc
      cases ho with
      | nil =>
        have htokens : c.tokens = vs := by simpa using htokens
        exact ⟨hfault, htokens ▸ hs⟩
      | quote _ => cases hend
      | list _ _ _ => cases hend
    · rw [(earliest_token hts hc he).1] at h
      injection h with _ hf
      cases hf
  · rintro ⟨hf, hs⟩
    rw [ofCursor_of_consume (consume_sequence hs), hf]
    rfl

end

theorem read_eq_ok {text : String} {ds : List Datum} :
    read text = .ok ds ↔ (Script.ofCursor (Cursor.ofText text)).1 = ⟨ds, none⟩ := by
  unfold read readChars Script.whole Script.ofChars Cursor.ofText
  obtain ⟨⟨es, _ | e⟩, c⟩ := Script.ofCursor (Cursor.ofChars text.toList) <;> simp

theorem ofText_of_read {text : String} {ds : List Datum} (h : read text = .ok ds) :
    Script.ofText text = ⟨ds, none⟩ := read_eq_ok.1 h

theorem read_eq_error {text : String} {e : ReadError} :
    read text = .error e ↔ (Script.ofCursor (Cursor.ofText text)).1.fault = some e := by
  unfold read readChars Script.whole Script.ofChars Cursor.ofText
  obtain ⟨⟨es, _ | e⟩, c⟩ := Script.ofCursor (Cursor.ofChars text.toList) <;> simp

/-- Viability is lost once and for all. -/
theorem viable_take_iff {ss : List Signal} {i : Nat} (hi : Viable (ss.take i))
    (hn : ¬ Viable (ss.take (i + 1))) (j : Nat) : Viable (ss.take j) ↔ j ≤ i := by
  constructor
  · intro hj
    apply Nat.le_of_not_lt
    intro hlt
    exact hn (hj.of_prefix (List.take_prefix_take_left (by omega)))
  · intro hj
    exact hi.of_prefix (List.take_prefix_take_left hj)

/-- Reading accepts exactly what the grammar derives from all tokens of a text, and the tree is the
only one that it derives. The error of any other text is raised at its first signal with which no
accepted token sequence goes on, and nothing behind that signal has been taken. -/
theorem read_grammar (text : String) :
    (∀ ds, read text = .ok ds ↔
      (Cursor.ofText text).fault = none ∧ Sequence (Cursor.ofText text).tokens ds) ∧
    (∀ ds es, Sequence (Cursor.ofText text).tokens ds → Sequence (Cursor.ofText text).tokens es →
      ds = es) ∧
    (∀ e, read text = .error e → ∃ i s, (Cursor.ofText text).signals[i]? = some s ∧ s.Raises e ∧
      (∀ j, Viable ((Cursor.ofText text).signals.take j) ↔ j ≤ i) ∧
      (Script.ofCursor (Cursor.ofText text)).2 = (Cursor.ofText text).dropSignals (i + 1)) := by
  refine ⟨fun ds => read_eq_ok.trans ofCursor_eq_iff, fun ds es => Sequence.unique, fun e he => ?_⟩
  rw [read_eq_error] at he
  generalize Cursor.ofText text = c at he
  obtain ⟨ds, fs, hc⟩ | ⟨ts, t, us, ds, fs, e', hts, hc, hf⟩ := consume_or_feed [] c.tokens
  · rw [ofCursor_of_consume hc] at he
    obtain ⟨s, hs, hr, hv, hn⟩ := earliest_end hc he
    refine ⟨c.tokens.length, s, hs, hr, viable_take_iff hv hn, ?_⟩
    rw [ofCursor_of_consume hc, Cursor.dropSignals, if_neg (by omega)]
  · obtain ⟨hread, hs, hv, hn⟩ := earliest_token hts hc hf
    rw [hread] at he
    cases he
    exact ⟨ts.length, .token t, hs, raises_of_feed hf, viable_take_iff hv hn, by rw [hread]⟩

end DynamicLisp
