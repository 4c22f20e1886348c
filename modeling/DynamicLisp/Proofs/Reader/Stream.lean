import DynamicLisp.Proofs.Reader.Atom
import DynamicLisp.Proofs.Reader.Earliest
import DynamicLisp.Proofs.Reader.Lexical

/-! Reading on demand. A stream asks for the tokens of a text when it needs them, and can look at one
token before it is taken. It gives what the cursor over all tokens gives, and each call takes the
tokens that it uses and asks for no others (`stream_takes`). -/
namespace DynamicLisp

/-- What is asked of a stream: to look at the next token, to take it, or to read an expression. -/
inductive Call
  | peek | advance | read
deriving DecidableEq, Inhabited

inductive Item
  | token (t : Token)
  | datum (d : Datum)

/-- What a call gives. There is no item at the end of the text. -/
abbrev Call.Outcome := Except ReadError (Option Item)

namespace Call

variable {α σ : Type}

def outcome (item : α → Item) (p : Except ReadError (Option α) × σ) : Call.Outcome × σ :=
  (p.1.map (Option.map item), p.2)

/-- Makes calls one after the other. Those behind an error are made as well. -/
def run (call : σ → Call → Call.Outcome × σ) (s : σ) : List Call → List Call.Outcome × σ
  | [] => ([], s)
  | k :: ks =>
    let (o, s) := call s k
    let (os, s) := run call s ks
    (o :: os, s)

theorem run_concat (call : σ → Call → Call.Outcome × σ) (s : σ) (ks : List Call) (k : Call) :
    (run call s (ks ++ [k])).2 = (call (run call s ks).2 k).2 := by
  induction ks generalizing s with
  | nil => rfl
  | cons k' ks ih => exact ih (call s k').2

end Call

def Cursor.call (c : Cursor) : Call → Call.Outcome × Cursor
  | .peek => Call.outcome .token c.peek
  | .advance => Call.outcome .token c.advance
  | .read => Call.outcome .datum c.read

/-- A text that is cut into tokens on demand. -/
structure Stream where
  /-- The text behind the tokens that have been asked for. Nothing is left of it behind an error. -/
  rest : List Char
  /-- The token that has been looked at and not been taken. -/
  buffer : Option Token
  /-- A record of the tokens that have been asked for. -/
  asked : List Token
  /-- A record of the tokens that have been taken. -/
  taken : List Token
deriving Inhabited

namespace Stream

def ofText (text : String) : Stream := ⟨text.toList, none, [], []⟩

/-- Asks for the next token of the text. -/
def ask (s : Stream) : Except ReadError (Option Token) × Stream :=
  match Cursor.front (Cursor.skip false s.rest) with
  | .token t rest => (.ok (some t), { s with rest := rest, asked := s.asked ++ [t] })
  | .finished => (.ok none, { s with rest := [] })
  | .unterminated => (.error .unterminatedString, { s with rest := [] })

def peek (s : Stream) : Except ReadError (Option Token) × Stream :=
  match s.buffer with
  | some t => (.ok (some t), s)
  | none =>
    match s.ask with
    | (.ok t, s) => (.ok t, { s with buffer := t })
    | (.error e, s) => (.error e, s)

def advance (s : Stream) : Except ReadError (Option Token) × Stream :=
  match s.buffer with
  | some t => (.ok (some t), { s with buffer := none, taken := s.taken ++ [t] })
  | none =>
    match s.ask with
    | (.ok (some t), s) => (.ok (some t), { s with taken := s.taken ++ [t] })
    | (.ok none, s) => (.ok none, s)
    | (.error e, s) => (.error e, s)

/-- Takes the next token of an expression. Where frames are open it is looked at first, and if there is
none, that is an error. -/
def next (fs : List Frame) (s : Stream) : Except ReadError (Option Token) × Stream :=
  match endFault fs with
  | none => s.advance
  | some e =>
    match s.peek with
    | (.ok (some _), s) => s.advance
    | (.ok none, s) => (.error e, s)
    | (.error e, s) => (.error e, s)

/-- The characters that are left, with one for the token in the buffer. -/
def size (s : Stream) : Nat := s.rest.length + s.buffer.toList.length

variable {s s' : Stream} {t : Token} {ts taken : List Token} {buffer : Option Token}
  {fault : Option ReadError} {fs : List Frame} {c : Cursor}

/-- A request is for the first of the tokens to come, or meets the end of the text. -/
theorem ask_cases (s : Stream) :
    (∃ t rest, Cursor.ofChars s.rest = Cursor.prepend [t] (Cursor.ofChars rest) ∧
      rest.length < s.rest.length ∧
      s.ask = (.ok (some t), { s with rest := rest, asked := s.asked ++ [t] })) ∨
    ((Cursor.ofChars s.rest).tokens = [] ∧
      s.ask = ((Cursor.ofChars s.rest).fault.elim (.ok none) .error, { s with rest := [] })) := by
  rw [Cursor.ofChars_front s.rest]
  unfold ask
  cases h : Cursor.front (Cursor.skip false s.rest) with
  | token t rest =>
    have hlength := Nat.lt_of_lt_of_le (Cursor.length_front_lt h) (Cursor.length_skip_le _ _)
    exact .inl ⟨t, rest, rfl, hlength, rfl⟩
  | finished => exact .inr ⟨rfl, rfl⟩
  | unterminated => exact .inr ⟨rfl, rfl⟩

theorem size_peek_le (s : Stream) : s.peek.2.size ≤ s.size := by
  obtain ⟨rest, _ | t, asked, taken⟩ := s
  · unfold peek size
    rcases ask_cases ⟨rest, none, asked, taken⟩ with ⟨t, rest', -, hlength, h⟩ | ⟨-, h⟩
    · simp only [h]
      exact hlength
    · simp only [h]
      cases (Cursor.ofChars rest).fault <;> simp
  · exact Nat.le_refl _

theorem size_advance_lt (h : s.advance = (.ok (some t), s')) : s'.size < s.size := by
  obtain ⟨rest, _ | t', asked, taken⟩ := s
  · unfold advance at h
    rcases ask_cases ⟨rest, none, asked, taken⟩ with ⟨t, rest', -, hlength, hask⟩ | ⟨-, hask⟩
    · simp only [hask] at h
      cases h
      exact hlength
    · simp only [hask] at h
      cases hf : (Cursor.ofChars rest).fault <;> rw [hf] at h <;> cases h
  · cases h
    exact Nat.lt_succ_self _

theorem size_next_lt (h : s.next fs = (.ok (some t), s')) : s'.size < s.size := by
  unfold next at h
  split at h
  · exact size_advance_lt h
  · have hpeek := size_peek_le s
    split at h
    · rename_i hp
      rw [hp] at hpeek
      exact Nat.lt_of_lt_of_le (size_advance_lt h) hpeek
    · cases h
    · cases h

/-- Reads up to the end of an expression of which the frames have been read before. -/
def readFrom (fs : List Frame) (s : Stream) : Except ReadError (Option Datum) × Stream :=
  match _h : s.next fs with
  | (.ok (some t), s) =>
    match feed fs t with
    | .ok (.whole d) => (.ok (some d), s)
    | .ok (.pending fs) => readFrom fs s
    | .error e => (.error e, s)
  | (.ok none, s) => (.ok none, s)
  | (.error e, s) => (.error e, s)
termination_by s.size
decreasing_by exact size_next_lt ‹_›

/-- The next expression, or nothing at the end of the text. -/
def read (s : Stream) : Except ReadError (Option Datum) × Stream := s.readFrom []

def call (s : Stream) : Call → Call.Outcome × Stream
  | .peek => Call.outcome .token s.peek
  | .advance => Call.outcome .token s.advance
  | .read => Call.outcome .datum s.read

/-! ### The stream and the cursor -/

/-- Where a stream stands: the tokens that it has taken, the one that it has asked for beyond them, if
any, and what is to come. -/
inductive Stands (taken : List Token) : Stream → Option Token → Cursor → Prop
  | empty {rest : List Char} {c : Cursor} : Cursor.ofChars rest = c →
    Stands taken ⟨rest, none, taken, taken⟩ none c
  | looked {rest : List Char} {t : Token} {ts : List Token} {fault : Option ReadError} :
    Cursor.ofChars rest = ⟨ts, fault⟩ →
    Stands taken ⟨rest, some t, taken ++ [t], taken⟩ (some t) ⟨t :: ts, fault⟩

theorem Stands.peek (h : Stands taken s buffer c) :
    ∃ s', s.peek = (c.peek.1, s') ∧ Stands taken s' c.tokens.head? c.peek.2 := by
  cases h with
  | looked hrest => exact ⟨_, rfl, .looked hrest⟩
  | @empty rest c hrest =>
    rcases ask_cases ⟨rest, none, taken, taken⟩ with ⟨t, us, hus, -, hask⟩ | ⟨hend, hask⟩
    · cases hrest.symm.trans hus
      refine ⟨⟨us, some t, taken ++ [t], taken⟩, ?_, .looked rfl⟩
      simp only [Stream.peek, hask]
      rfl
    · rw [hrest] at hend hask
      obtain ⟨ts, fault⟩ := c
      cases hend
      refine ⟨⟨[], none, taken, taken⟩, ?_, ?_⟩
      · simp only [Stream.peek, hask]
        cases fault <;> rfl
      · cases fault <;> exact .empty Lexes.nil.eq

theorem Stands.advance (h : Stands taken s buffer c) :
    ∃ s', s.advance = (c.advance.1, s') ∧
      Stands (taken ++ c.tokens.take 1) s' none c.advance.2 := by
  cases h with
  | looked hrest => exact ⟨_, rfl, .empty hrest⟩
  | @empty rest c hrest =>
    rcases ask_cases ⟨rest, none, taken, taken⟩ with ⟨t, us, hus, -, hask⟩ | ⟨hend, hask⟩
    · cases hrest.symm.trans hus
      refine ⟨⟨us, none, taken ++ [t], taken ++ [t]⟩, ?_, .empty rfl⟩
      simp only [Stream.advance, hask]
      rfl
    · rw [hrest] at hend hask
      obtain ⟨ts, fault⟩ := c
      cases hend
      refine ⟨⟨[], none, taken, taken⟩, ?_, ?_⟩
      · simp only [Stream.advance, hask]
        cases fault <;> rfl
      · rw [List.take_nil, List.append_nil]
        cases fault <;> exact .empty Lexes.nil.eq

theorem Stands.next (h : Stands taken s buffer ⟨t :: ts, fault⟩) (fs : List Frame) :
    ∃ s', s.next fs = (.ok (some t), s') ∧ Stands (taken ++ [t]) s' none ⟨ts, fault⟩ := by
  unfold Stream.next
  cases endFault fs with
  | none => exact h.advance
  | some e =>
    obtain ⟨s₁, hpeek, h₁⟩ := h.peek
    obtain ⟨s₂, hadvance, h₂⟩ := h₁.advance
    refine ⟨s₂, ?_, h₂⟩
    simp only [hpeek]
    exact hadvance

theorem Stands.next_end (h : Stands taken s buffer ⟨[], fault⟩) (fs : List Frame) :
    ∃ s', s.next fs = ((fault <|> endFault fs).elim (.ok none) .error, s') ∧
      Stands taken s' none .done := by
  unfold Stream.next
  cases endFault fs with
  | none =>
    obtain ⟨s', hadvance, h'⟩ := h.advance
    rw [List.take_nil, List.append_nil] at h'
    refine ⟨s', ?_, ?_⟩
    · rw [hadvance]
      cases fault <;> rfl
    · cases fault <;> exact h'
  | some e =>
    obtain ⟨s', hpeek, h'⟩ := h.peek
    refine ⟨s', ?_, ?_⟩
    · simp only [hpeek]
      cases fault <;> rfl
    · cases fault <;> exact h'

/-- The stream reads as the cursor does. -/
theorem Stands.readFrom (h : Stands taken s buffer ⟨ts, fault⟩) (fs : List Frame) :
    ∃ used s', s.readFrom fs = ((Cursor.readFrom fs fault ts).1, s') ∧
      ts = used ++ (Cursor.readFrom fs fault ts).2.tokens ∧
      Stands (taken ++ used) s' none (Cursor.readFrom fs fault ts).2 := by
  induction ts generalizing taken s buffer fs with
  | nil =>
    obtain ⟨s', hnext, h'⟩ := h.next_end fs
    refine ⟨[], s', ?_⟩
    rw [Stream.readFrom, Cursor.readFrom, List.append_nil, hnext]
    cases fault <|> endFault fs with
    | none => exact ⟨rfl, rfl, h'⟩
    | some e => exact ⟨rfl, rfl, h'⟩
  | cons t ts ih =>
    obtain ⟨s₁, hnext, h₁⟩ := h.next fs
    rw [Stream.readFrom, Cursor.readFrom, hnext]
    cases hfeed : feed fs t with
    | error e => exact ⟨[t], s₁, by simp [hfeed], rfl, h₁⟩
    | ok p =>
      cases p with
      | whole d => exact ⟨[t], s₁, by simp [hfeed], rfl, h₁⟩
      | pending fs' =>
        obtain ⟨used, s', hread, hts, h'⟩ := ih h₁ fs'
        refine ⟨t :: used, s', ?_, congrArg (t :: ·) hts, ?_⟩
        · simp [hfeed, hread]
        · rwa [List.append_assoc] at h'

theorem Stands.call (h : Stands taken s buffer c) (k : Call) :
    ∃ used s' buffer', s.call k = ((c.call k).1, s') ∧
      c.tokens = used ++ (c.call k).2.tokens ∧
      Stands (taken ++ used) s' buffer' (c.call k).2 ∧ (k ≠ .peek → buffer' = none) := by
  cases k with
  | peek =>
    obtain ⟨s', hpeek, h'⟩ := h.peek
    refine ⟨[], s', c.tokens.head?, ?_, ?_, ?_, fun hk => (hk rfl).elim⟩
    · simp only [Stream.call, Cursor.call, Call.outcome, hpeek]
    · obtain ⟨_ | ⟨t, ts⟩, _ | e⟩ := c <;> rfl
    · rw [List.append_nil]
      exact h'
  | advance =>
    obtain ⟨s', hadvance, h'⟩ := h.advance
    refine ⟨c.tokens.take 1, s', none, ?_, ?_, h', fun _ => rfl⟩
    · simp only [Stream.call, Cursor.call, Call.outcome, hadvance]
    · obtain ⟨_ | ⟨t, ts⟩, _ | e⟩ := c <;> rfl
  | read =>
    obtain ⟨used, s', hread, htokens, h'⟩ := h.readFrom []
    refine ⟨used, s', none, ?_, htokens, h', fun _ => rfl⟩
    simp only [Stream.call, Stream.read, Cursor.call, Cursor.read, Call.outcome, hread]

end Stream

/-! ### What calls take -/

/-- Some expression starts with the tokens. -/
def Begins (ts : List Token) : Prop := ∃ us d, Expression (ts ++ us) d

/-- What a call gives, the tokens that it takes, and what is still to come, by what is to come before
it. -/
inductive Takes : Cursor → Call → Call.Outcome → List Token → Cursor → Prop
  /-- Looking at a token changes nothing. -/
  | peek (t : Token) (ts : List Token) (fault : Option ReadError) :
    Takes ⟨t :: ts, fault⟩ .peek (.ok (some (.token t))) [] ⟨t :: ts, fault⟩
  | advance (t : Token) (ts : List Token) (fault : Option ReadError) :
    Takes ⟨t :: ts, fault⟩ .advance (.ok (some (.token t))) [t] ⟨ts, fault⟩
  /-- An expression takes its own tokens. -/
  | read {ts : List Token} {d : Datum} (later : List Token) (fault : Option ReadError) :
    Expression ts d →
    Takes ⟨ts ++ later, fault⟩ .read (.ok (some (.datum d))) ts ⟨later, fault⟩
  /-- A token with which no expression can go on is the last one taken. -/
  | offending {ts : List Token} {t : Token} {e : ReadError} (later : List Token)
    (fault : Option ReadError) :
    Begins ts → ¬ Begins (ts ++ [t]) → (Signal.token t).Raises e →
    Takes ⟨ts ++ t :: later, fault⟩ .read (.error e) (ts ++ [t]) ⟨later, fault⟩
  /-- An expression that the end of the text cuts off takes all tokens. -/
  | ended {ts : List Token} {e : ReadError} : ts ≠ [] → Begins ts → Signal.finish.Raises e →
    Takes ⟨ts, none⟩ .read (.error e) ts .done
  | unterminated {ts : List Token} {e : ReadError} : Begins ts →
    Takes ⟨ts, some e⟩ .read (.error e) ts .done
  | fault (k : Call) (e : ReadError) : Takes ⟨[], some e⟩ k (.error e) [] .done
  | finish (k : Call) : Takes .done k (.ok none) [] .done

/-- What calls made one after the other give, and the tokens that they take. -/
inductive TakesAll : Cursor → List Call → List Call.Outcome → List Token → Cursor → Prop
  | nil (c : Cursor) : TakesAll c [] [] [] c
  | cons {c c' c'' : Cursor} {k : Call} {ks : List Call} {o : Call.Outcome} {os : List Call.Outcome}
    {used taken : List Token} : Takes c k o used c' → TakesAll c' ks os taken c'' →
    TakesAll c (k :: ks) (o :: os) (used ++ taken) c''

theorem opened_of_consume {ts : List Token} {fs : List Frame}
    (h : consume [] ts = .ok ([], fs)) : Opened ts fs := by
  obtain ⟨us, vs, hts, hs, ho⟩ := sequence_of_consume .nil h
  cases hs
  obtain rfl : ts = vs := hts
  exact ho

theorem Opened.begins {ts : List Token} {fs : List Frame} (h : Opened ts fs) : Begins ts := by
  obtain ⟨us, d, he⟩ := h.close (.list .round .nil)
  exact ⟨_, d, by rwa [List.append_assoc] at he⟩

theorem Begins.exists_consume {ts : List Token} (h : Begins ts) :
    ∃ ds fs, consume [] ts = .ok (ds, fs) := by
  obtain ⟨us, d, he⟩ := h
  obtain ⟨ds, fs, _, hts, -⟩ := consume_append.1 (consume_expression [] he)
  exact ⟨ds, fs, hts⟩

theorem not_begins_of_feed {ts : List Token} {t : Token} {fs : List Frame} {e : ReadError}
    (h : consume [] ts = .ok ([], fs)) (he : feed fs t = .error e) : ¬ Begins (ts ++ [t]) := by
  intro hbegins
  obtain ⟨_, _, hc⟩ := hbegins.exists_consume
  obtain ⟨_, fs', _, hts, ht, -⟩ := consume_append.1 hc
  cases h.symm.trans hts
  obtain ⟨p, _, hp, -⟩ := consume_cons.1 ht
  rw [he] at hp
  cases hp

/-- Reading from inside frames comes to the end of the expression, to a token that cannot be taken, or to
the end of the text. -/
theorem Cursor.readFrom_cases (fs : List Frame) (fault : Option ReadError) (ts : List Token) :
    (∃ us t vs fs' d, ts = us ++ t :: vs ∧ consume fs us = .ok ([], fs') ∧
      feed fs' t = .ok (.whole d) ∧ readFrom fs fault ts = (.ok (some d), ⟨vs, fault⟩)) ∨
    (∃ us t vs fs' e, ts = us ++ t :: vs ∧ consume fs us = .ok ([], fs') ∧
      feed fs' t = .error e ∧ readFrom fs fault ts = (.error e, ⟨vs, fault⟩)) ∨
    ∃ fs', consume fs ts = .ok ([], fs') ∧
      readFrom fs fault ts = ((fault <|> endFault fs').elim (.ok none) .error, .done) := by
  induction ts generalizing fs with
  | nil =>
    refine .inr (.inr ⟨fs, rfl, ?_⟩)
    rw [readFrom]
    cases fault <|> endFault fs <;> rfl
  | cons t ts ih =>
    cases hfeed : feed fs t with
    | error e => exact .inr (.inl ⟨[], t, ts, fs, e, rfl, rfl, hfeed, by simp [readFrom, hfeed]⟩)
    | ok p =>
      cases p with
      | whole d => exact .inl ⟨[], t, ts, fs, d, rfl, rfl, hfeed, by simp [readFrom, hfeed]⟩
      | pending fs₁ =>
        have hread : readFrom fs fault (t :: ts) = readFrom fs₁ fault ts := by
          simp [readFrom, hfeed]
        have hconsume {us : List Token} {fs' : List Frame} (h : consume fs₁ us = .ok ([], fs')) :
            consume fs (t :: us) = .ok ([], fs') := consume_cons.2 ⟨_, [], hfeed, h, rfl⟩
        rw [hread]
        obtain ⟨us, u, vs, fs', d, rfl, hc, hu, hr⟩ | ⟨us, u, vs, fs', e, rfl, hc, hu, hr⟩ |
          ⟨fs', hc, hr⟩ := ih fs₁
        · exact .inl ⟨t :: us, u, vs, fs', d, rfl, hconsume hc, hu, hr⟩
        · exact .inr (.inl ⟨t :: us, u, vs, fs', e, rfl, hconsume hc, hu, hr⟩)
        · exact .inr (.inr ⟨fs', hconsume hc, hr⟩)

variable {c c' : Cursor} {k : Call} {ks : List Call} {o : Call.Outcome} {os : List Call.Outcome}
  {used taken : List Token}

theorem Cursor.read_takes (c : Cursor) :
    ∃ used, Takes c .read (c.call .read).1 used (c.call .read).2 := by
  obtain ⟨tokens, fault⟩ := c
  unfold call read
  rcases readFrom_cases [] fault tokens with ⟨ts, t, later, fs, d, rfl, hc, hfeed, hr⟩ |
    ⟨ts, t, later, fs, e, rfl, hc, hfeed, hr⟩ | ⟨fs, hc, hr⟩
  · have hd : Expression (ts ++ [t]) d := (opened_of_consume hc).fed (fed_of_feed hfeed)
    have htokens : ts ++ t :: later = (ts ++ [t]) ++ later := by simp
    refine ⟨ts ++ [t], ?_⟩
    simp only [hr]
    rw [htokens]
    exact .read later fault hd
  · refine ⟨ts ++ [t], ?_⟩
    simp only [hr]
    exact .offending later fault (opened_of_consume hc).begins (not_begins_of_feed hc hfeed)
      (raises_of_feed hfeed)
  · have hopened := opened_of_consume hc
    refine ⟨tokens, ?_⟩
    simp only [hr]
    cases fault with
    | some e => exact .unterminated hopened.begins
    | none =>
      cases hend : endFault fs with
      | none =>
        cases hopened with
        | nil => exact .finish .read
        | _ => cases hend
      | some e =>
        refine .ended ?_ hopened.begins (raises_of_endFault hend)
        rintro rfl
        cases hc
        cases hend

theorem Cursor.call_takes (c : Cursor) (k : Call) :
    ∃ used, Takes c k (c.call k).1 used (c.call k).2 := by
  cases k with
  | read => exact c.read_takes
  | peek =>
    obtain ⟨_ | ⟨t, ts⟩, _ | e⟩ := c
    · exact ⟨[], .finish .peek⟩
    · exact ⟨[], .fault .peek e⟩
    · exact ⟨[], .peek t ts _⟩
    · exact ⟨[], .peek t ts _⟩
  | advance =>
    obtain ⟨_ | ⟨t, ts⟩, _ | e⟩ := c
    · exact ⟨[], .finish .advance⟩
    · exact ⟨[], .fault .advance e⟩
    · exact ⟨[t], .advance t ts _⟩
    · exact ⟨[t], .advance t ts _⟩

theorem Expression.ne_nil {ts : List Token} {d : Datum} (h : Expression ts d) : ts ≠ [] := by
  cases h <;> exact List.cons_ne_nil _ _

/-- Nothing is lost: the tokens to come are those taken and those still to come. -/
theorem Takes.tokens (h : Takes c k o used c') : c.tokens = used ++ c'.tokens := by
  cases h <;> simp [Cursor.done]

theorem Takes.of_done (h : Takes .done k o used c') : o = .ok none ∧ c' = .done := by
  generalize hc : Cursor.done = c at h
  cases h with
  | read _ _ he =>
    obtain ⟨hnil, -⟩ := List.append_eq_nil_iff.1 (congrArg Cursor.tokens hc).symm
    exact (he.ne_nil hnil).elim
  | _ => simp_all [Cursor.done]

/-- A call raises the error behind the last token, or this error is still to come. -/
theorem Takes.fault_cases (h : Takes c k o used c') (hc : ∀ e ∈ c.fault, e = .unterminatedString) :
    (o = .error .unterminatedString ∧ c' = .done) ∨
    (o ≠ .error .unterminatedString ∧ c'.fault = c.fault) := by
  cases h with
  | unterminated _ => exact .inl ⟨by rw [hc _ rfl], rfl⟩
  | fault => exact .inl ⟨by rw [hc _ rfl], rfl⟩
  | offending _ _ _ _ he =>
    refine .inr ⟨?_, rfl⟩
    rintro ⟨⟩
    exact he.ne_end.2.2 rfl
  | ended _ _ he =>
    refine .inr ⟨?_, rfl⟩
    rintro ⟨⟩
    cases he
  | _ => exact .inr ⟨nofun, rfl⟩

theorem TakesAll.tokens (h : TakesAll c ks os taken c') : c.tokens = taken ++ c'.tokens := by
  induction h with
  | nil c => rfl
  | cons hcall _ ih => rw [hcall.tokens, ih, List.append_assoc]

theorem TakesAll.of_done (h : TakesAll .done ks os taken c') : ∀ o ∈ os, o = .ok none := by
  generalize hc : Cursor.done = c at h
  induction h with
  | nil c => exact nofun
  | cons hcall _ ih =>
    subst hc
    obtain ⟨ho, hc'⟩ := hcall.of_done
    exact List.forall_mem_cons.2 ⟨ho, ih hc'.symm⟩

/-- Behind the error of the lexer nothing is to be had. -/
theorem TakesAll.end_of_fault (h : TakesAll c ks os taken c')
    (hc : ∀ e ∈ c.fault, e = .unterminatedString) {before after : List Call.Outcome}
    (hos : os = before ++ .error .unterminatedString :: after) : ∀ o ∈ after, o = .ok none := by
  induction h generalizing before with
  | nil c => simp at hos
  | cons hcall htail ih =>
    rcases hcall.fault_cases hc with ⟨rfl, rfl⟩ | ⟨ho, hfault⟩
    · have hdone := htail.of_done
      cases before with
      | nil =>
        cases hos
        exact hdone
      | cons o before =>
        cases hos
        intro o ho
        exact hdone o (by simp [ho])
    · cases before with
      | nil =>
        cases hos
        exact (ho rfl).elim
      | cons o before =>
        injection hos with _ hos
        exact ih (hfault ▸ hc) hos

namespace Stream

variable {s s' : Stream} {buffer : Option Token}

/-- A call on the stream gives what it gives on the cursor, and the stream takes the same tokens. -/
theorem Stands.call_takes (h : Stands taken s buffer c) (k : Call) :
    ∃ used s' buffer', s.call k = ((c.call k).1, s') ∧
      Takes c k (c.call k).1 used (c.call k).2 ∧ Stands (taken ++ used) s' buffer' (c.call k).2 ∧
      (k ≠ .peek → buffer' = none) := by
  obtain ⟨used, s', buffer', hcall, htokens, h', hbuffer⟩ := h.call k
  obtain ⟨used', htakes⟩ := c.call_takes k
  obtain rfl : used' = used := List.append_cancel_right (htakes.tokens.symm.trans htokens)
  exact ⟨used', s', buffer', hcall, htakes, h', hbuffer⟩

theorem Stands.run_takes (h : Stands taken s buffer c) (ks : List Call) :
    ∃ used s' buffer' c', Call.run Stream.call s ks = ((Call.run Cursor.call c ks).1, s') ∧
      (Call.run Cursor.call c ks).2 = c' ∧ TakesAll c ks (Call.run Cursor.call c ks).1 used c' ∧
      Stands (taken ++ used) s' buffer' c' := by
  induction ks generalizing taken s buffer c with
  | nil => exact ⟨[], s, buffer, c, rfl, rfl, .nil c, by rwa [List.append_nil]⟩
  | cons k ks ih =>
    obtain ⟨used, s₁, buffer₁, hcall, htakes, h₁, -⟩ := h.call_takes k
    obtain ⟨used', s', buffer', c', hrun, hc', htakes', h'⟩ := ih h₁
    refine ⟨used ++ used', s', buffer', c', ?_, hc', .cons htakes htakes', ?_⟩
    · rw [Call.run, Call.run, hcall]
      simp only [hrun]
    · rwa [List.append_assoc] at h'

theorem Stands.records (h : Stands taken s buffer c) :
    s.taken = taken ∧ s.asked = taken ++ buffer.toList ∧ s.buffer = buffer ∧
      buffer.toList <+: c.tokens := by
  cases h with
  | empty _ => exact ⟨rfl, (List.append_nil taken).symm, rfl, List.nil_prefix⟩
  | looked _ => exact ⟨rfl, rfl, rfl, _, rfl⟩

theorem stands_ofText (text : String) :
    Stands [] (.ofText text) none (Cursor.ofText text) := .empty rfl

/-- Reading on demand, with any calls in any order on a new stream. What they give is what they give on
the cursor over all tokens. The tokens that have been taken are those that each call takes, in their
order; together with those still to come they are all tokens of the text. At most one token has been
asked for that has not been taken, and only where it has been looked at and left. Once the error of a
string without an end has been raised, the end of the text is all that calls meet. -/
theorem stream_takes (text : String) (ks : List Call) :
    let all := Cursor.ofText text
    let os := (Call.run call (.ofText text) ks).1
    let s := (Call.run call (.ofText text) ks).2
    os = (Call.run Cursor.call all ks).1 ∧
    (∃ c, TakesAll all ks os s.taken c ∧ all.tokens = s.taken ++ c.tokens ∧
      s.asked = s.taken ++ s.buffer.toList ∧ s.asked <+: all.tokens) ∧
    (∀ before k, ks = before ++ [k] → k ≠ .peek → s.asked = s.taken) ∧
    ∀ before after, os = before ++ .error .unterminatedString :: after →
      ∀ o ∈ after, o = .ok none := by
  intro all os s
  obtain ⟨taken, s', buffer, c, hrun, -, htakes, hstands⟩ := (stands_ofText text).run_takes ks
  obtain ⟨htaken, hasked, hbuffer, hprefix⟩ := hstands.records
  have hos : os = (Call.run Cursor.call all ks).1 := congrArg Prod.fst hrun
  have hs : s = s' := congrArg Prod.snd hrun
  have htokens := htakes.tokens
  rw [List.nil_append] at htaken hasked
  rw [← hos] at htakes
  rw [hs, htaken, hasked, hbuffer]
  refine ⟨hos, ⟨c, htakes, htokens, rfl, ?_⟩, ?_, ?_⟩
  · rw [htokens]
    exact (List.prefix_append_right_inj taken).2 hprefix
  · rintro before k rfl hk
    obtain ⟨_, s₁, _, c₁, hrun₁, -, -, hstands₁⟩ := (stands_ofText text).run_takes before
    obtain ⟨_, s₂, buffer₂, hcall, -, hstands₂, hnone⟩ := hstands₁.call_takes k
    have hlast : s' = s₂ := by
      rw [← hs]
      exact (Call.run_concat call _ before k).trans (by rw [hrun₁, hcall])
    have hempty : buffer = none := by
      rw [← hbuffer, hlast, hstands₂.records.2.2.1, hnone hk]
    rw [hempty]
    exact List.append_nil taken
  · intro before after hbefore
    refine htakes.end_of_fault (fun e he => ?_) hbefore
    rcases (lexes_ofChars text.toList).fault_eq with h | h
    · cases he.symm.trans h
    · exact Option.some.inj (he.symm.trans h)

/-- An expression, a bracket that nothing opens, and a string without an end. -/
theorem stream_takes_unterminated :
    let text := "('a) ) \"b"
    let ks : List Call := [.peek, .read, .read, .advance, .peek, .read]
    let os := (Call.run call (.ofText text) ks).1
    let s := (Call.run call (.ofText text) ks).2
    os = [.ok (some (.token (.opening .round))), .ok (some (.datum (.list [.quote (.name "a")]))),
      .error (.unexpectedCloser .round), .error .unterminatedString, .ok none, .ok none] ∧
    s.taken = [.opening .round, .quote, .atom ['a'], .closing .round, .closing .round] ∧
    s.asked = s.taken := by
  intro text ks os s
  have htokens : Cursor.ofText text = ⟨[.opening .round, .quote, .atom ['a'], .closing .round,
    .closing .round], some .unterminatedString⟩ := by decide +kernel
  obtain ⟨hos, -, hlast, -⟩ := stream_takes text ks
  refine ⟨?_, by decide +kernel, hlast [.peek, .read, .read, .advance, .peek] .read rfl nofun⟩
  rw [htokens] at hos
  exact hos

end Stream

end DynamicLisp
