import DynamicLisp.Reader.Script

/-! The grammar of the language over tokens. The reader, which keeps what is open on a stack of
frames, derives what the grammar derives (`consume_sequence`, `sequence_of_consume`). -/
namespace DynamicLisp

/-- The letters that have a meaning behind a backslash, and their meanings. -/
def knownEscapes : List (Char × Char) :=
  [('n', '\n'), ('t', '\t'), ('r', '\r'), ('"', '"'), ('\\', '\\')]

/-- The inside of a string token, and the characters it stands for. -/
inductive Spells : List Char → List Char → Prop
  | nil : Spells [] []
  | plain {c : Char} {cs ds : List Char} : c ≠ '\\' → Spells cs ds → Spells (c :: cs) (c :: ds)
  | escaped {c d : Char} {cs ds : List Char} :
    (c, d) ∈ knownEscapes → Spells cs ds → Spells ('\\' :: c :: cs) (d :: ds)

mutual

/-- The tokens of an expression, and the datum that they denote. -/
inductive Expression : List Token → Datum → Prop
  | atom {text : List Char} {d : Datum} : Datum.ofAtom? text = .ok d → Expression [.atom text] d
  | string {body cs : List Char} :
    Spells body cs → Expression [.string body] (.string (String.ofList cs))
  | quote {ts : List Token} {d : Datum} :
    Expression ts d → Expression (.quote :: ts) (.quote d)
  | list {ts : List Token} {ds : List Datum} (b : Bracket) :
    Sequence ts ds → Expression (.opening b :: ts ++ [.closing b]) (.list ds)

/-- The tokens of expressions one after the other. -/
inductive Sequence : List Token → List Datum → Prop
  | nil : Sequence [] []
  | cons {ts us : List Token} {d : Datum} {ds : List Datum} :
    Expression ts d → Sequence us ds → Sequence (ts ++ us) (d :: ds)

end

theorem unescapeChar?_eq_some {c d : Char} :
    unescapeChar? c = some d ↔ (c, d) ∈ knownEscapes := by
  unfold unescapeChar? knownEscapes
  split <;> simp_all [eq_comm]

theorem Spells.unescape {cs ds : List Char} (h : Spells cs ds) : unescape cs = .ok ds := by
  induction h with
  | nil => rfl
  | @plain c cs ds hc _ ih =>
    rw [DynamicLisp.unescape, ih]
    · rfl
    all_goals simp_all
  | escaped hc _ ih =>
    rw [DynamicLisp.unescape, unescapeChar?_eq_some.2 hc, ih]
    rfl

theorem spells_of_unescape {cs ds : List Char} (h : unescape cs = .ok ds) : Spells cs ds := by
  fun_induction unescape cs generalizing ds with
  | case1 => cases h; exact .nil
  | case2 => cases h
  | case3 c cs d hd ih =>
    cases hr : unescape cs with
    | error e => rw [hr] at h; cases h
    | ok es => rw [hr] at h; cases h; exact .escaped (unescapeChar?_eq_some.1 hd) (ih hr)
  | case4 => cases h
  | case5 c cs hone hmore ih =>
    cases hr : unescape cs with
    | error e => rw [hr] at h; cases h
    | ok es =>
      rw [hr] at h
      cases h
      refine .plain ?_ (ih hr)
      rintro rfl
      cases cs with
      | nil => exact hone rfl rfl
      | cons c cs => exact hmore c cs rfl rfl

theorem Sequence.append {ts us : List Token} {ds es : List Datum} :
    Sequence ts ds → Sequence us es → Sequence (ts ++ us) (ds ++ es)
  | .nil, hu => hu
  | .cons he ht, hu => by
    rw [List.append_assoc]
    exact .cons he (ht.append hu)

theorem Expression.sequence {ts : List Token} {d : Datum} (h : Expression ts d) :
    Sequence ts [d] := by
  have := Sequence.cons h .nil
  rwa [List.append_nil] at this

/-! ### Reading token by token -/

/-- The tokens that can be taken, with the frames before and the progress after them. -/
inductive Fed : List Frame → Token → Progress → Prop
  | atom {text : List Char} {d : Datum} (fs : List Frame) :
    Datum.ofAtom? text = .ok d → Fed fs (.atom text) (complete d fs)
  | string {body cs : List Char} (fs : List Frame) :
    Spells body cs → Fed fs (.string body) (complete (.string (String.ofList cs)) fs)
  | quote (fs : List Frame) : Fed fs .quote (.pending (.quote :: fs))
  | opening (b : Bracket) (fs : List Frame) : Fed fs (.opening b) (.pending (.list b [] :: fs))
  | closing (b : Bracket) (items : List Datum) (fs : List Frame) :
    Fed (.list b items :: fs) (.closing b) (complete (.list items.reverse) fs)

theorem Fed.feed {fs : List Frame} {t : Token} {p : Progress} (h : Fed fs t p) :
    feed fs t = .ok p := by
  cases h with
  | atom _ h => rw [DynamicLisp.feed, h]; rfl
  | string _ h => rw [DynamicLisp.feed, h.unescape]; rfl
  | quote _ => rfl
  | opening _ _ => rfl
  | closing b items fs =>
    rw [DynamicLisp.feed, if_pos rfl]
    rfl

theorem fed_of_feed {fs : List Frame} {t : Token} {p : Progress} (h : feed fs t = .ok p) :
    Fed fs t p := by
  cases t with
  | quote => cases h; exact .quote fs
  | opening b => cases h; exact .opening b fs
  | atom text =>
    cases hd : Datum.ofAtom? text with
    | error e => rw [feed, hd] at h; cases h
    | ok d => rw [feed, hd] at h; cases h; exact .atom fs hd
  | string body =>
    cases hd : unescape body with
    | error e => rw [feed, hd] at h; cases h
    | ok cs => rw [feed, hd] at h; cases h; exact .string fs (spells_of_unescape hd)
  | closing b =>
    rcases fs with _ | ⟨_ | ⟨b', items⟩, fs⟩
    · cases h
    · cases h
    · by_cases hb : b = b'
      · subst b'
        rw [feed, if_pos rfl] at h
        cases h
        exact .closing b items fs
      · rw [feed, if_neg hb] at h
        cases h

/-- The expressions completed by a token, and the frames left open. -/
def Progress.result : Progress → List Datum × List Frame
  | whole d => ([d], [])
  | pending fs => ([], fs)

/-- Reads tokens from inside frames: the expressions completed meanwhile, and the frames left
open. -/
def consume (fs : List Frame) : List Token → Except ReadError (List Datum × List Frame)
  | [] => .ok ([], fs)
  | t :: ts => do
    let p ← feed fs t
    let (ds, fs) ← consume p.result.2 ts
    return (p.result.1 ++ ds, fs)

theorem consume_cons {fs fs' : List Frame} {t : Token} {ts : List Token} {ds : List Datum} :
    consume fs (t :: ts) = .ok (ds, fs') ↔
      ∃ p es, feed fs t = .ok p ∧ consume p.result.2 ts = .ok (es, fs') ∧ ds = p.result.1 ++ es := by
  rw [consume]
  constructor
  · intro h
    cases hp : feed fs t with
    | error e => rw [hp] at h; cases h
    | ok p =>
      cases hr : consume p.result.2 ts with
      | error e => simp only [hp, bind, Except.bind, hr] at h; cases h
      | ok r => simp only [hp, bind, Except.bind, hr] at h; cases h; exact ⟨p, r.1, rfl, hr, rfl⟩
  · rintro ⟨p, es, hp, hr, rfl⟩
    simp only [hp, bind, Except.bind, hr]
    rfl

theorem consume_append {fs fs'' : List Frame} {ts us : List Token} {ds : List Datum} :
    consume fs (ts ++ us) = .ok (ds, fs'') ↔
      ∃ es fs' gs, consume fs ts = .ok (es, fs') ∧ consume fs' us = .ok (gs, fs'') ∧
        ds = es ++ gs := by
  induction ts generalizing fs ds with
  | nil =>
    constructor
    · intro h
      exact ⟨[], fs, ds, rfl, h, rfl⟩
    · rintro ⟨_, _, _, h, hu, rfl⟩
      cases h
      exact hu
  | cons t ts ih =>
    rw [List.cons_append, consume_cons]
    constructor
    · rintro ⟨p, _, hp, h, rfl⟩
      obtain ⟨es, fs', gs, ht, hu, rfl⟩ := ih.1 h
      exact ⟨p.result.1 ++ es, fs', gs, consume_cons.2 ⟨p, es, hp, ht, rfl⟩, hu,
        (List.append_assoc ..).symm⟩
    · rintro ⟨_, fs', gs, h, hu, rfl⟩
      obtain ⟨p, es, hp, ht, rfl⟩ := consume_cons.1 h
      exact ⟨p, es ++ gs, hp, ih.2 ⟨es, fs', gs, ht, hu, rfl⟩, List.append_assoc ..⟩

/-- Each token has been taken from inside some frames. -/
theorem exists_fed {fs fs' : List Frame} {ts : List Token} {ds : List Datum}
    (h : consume fs ts = .ok (ds, fs')) : ∀ t ∈ ts, ∃ gs p, Fed gs t p := by
  induction ts generalizing fs ds with
  | nil => simp
  | cons t ts ih =>
    obtain ⟨p, es, hp, hrest, -⟩ := consume_cons.1 h
    exact List.forall_mem_cons.2 ⟨⟨fs, p, fed_of_feed hp⟩, ih hrest⟩

theorem consume_trans {fs fs' fs'' : List Frame} {ts us : List Token} {ds es : List Datum}
    (ht : consume fs ts = .ok (ds, fs')) (hu : consume fs' us = .ok (es, fs'')) :
    consume fs (ts ++ us) = .ok (ds ++ es, fs'') :=
  consume_append.2 ⟨ds, fs', es, ht, hu, rfl⟩

theorem consume_one {fs : List Frame} {t : Token} {p : Progress} (h : Fed fs t p) :
    consume fs [t] = .ok p.result :=
  consume_cons.2 ⟨p, [], h.feed, rfl, (List.append_nil _).symm⟩

mutual

/-- The tokens of an expression hand its datum to the innermost frame. -/
theorem consume_expression {ts : List Token} {d : Datum} (fs : List Frame) :
    Expression ts d → consume fs ts = .ok (complete d fs).result
  | .atom h => consume_one (.atom fs h)
  | .string h => consume_one (.string fs h)
  | .quote h => consume_trans (consume_one (.quote fs)) (consume_expression (.quote :: fs) h)
  | .list b h => by
    have hitems := consume_items b [] fs h
    rw [List.append_nil] at hitems
    have hopened := consume_trans (consume_one (.opening b fs)) hitems
    have hlist := consume_trans hopened (consume_one (.closing b _ fs))
    rw [List.reverse_reverse] at hlist
    exact hlist

/-- The tokens of expressions inside a list add their data to it. -/
theorem consume_items {ts : List Token} {ds : List Datum} (b : Bracket) (items : List Datum)
    (fs : List Frame) :
    Sequence ts ds → consume (.list b items :: fs) ts = .ok ([], .list b (ds.reverse ++ items) :: fs)
  | .nil => rfl
  | .cons he ht => by
    have := consume_trans (consume_expression (.list b items :: fs) he)
      (consume_items b (_ :: items) fs ht)
    simpa using this

end

/-- Where nothing is open, the reader completes what the grammar derives. -/
theorem consume_sequence {ts : List Token} {ds : List Datum} :
    Sequence ts ds → consume [] ts = .ok (ds, [])
  | .nil => rfl
  | .cons he ht => consume_trans (consume_expression [] he) (consume_sequence ht)

theorem Sequence.unique {ts : List Token} {ds es : List Datum} (h : Sequence ts ds)
    (h' : Sequence ts es) : ds = es := by
  have := (consume_sequence h).symm.trans (consume_sequence h')
  simpa using this

/-! ### What has been read -/

/-- The tokens since the last complete expression, and the frames that they leave open. -/
inductive Opened : List Token → List Frame → Prop
  | nil : Opened [] []
  | quote {ts : List Token} {fs : List Frame} :
    Opened ts fs → Opened (ts ++ [.quote]) (.quote :: fs)
  | list {ts us : List Token} {fs : List Frame} {items : List Datum} (b : Bracket) :
    Opened ts fs → Sequence us items.reverse →
    Opened (ts ++ .opening b :: us) (.list b items :: fs)

/-- The tokens since the last complete expression lead to the progress. -/
def Progress.Covers (ts : List Token) : Progress → Prop
  | whole d => Expression ts d
  | pending fs => Opened ts fs

theorem Opened.complete {ts us : List Token} {fs : List Frame} {d : Datum} (h : Opened ts fs)
    (he : Expression us d) : (complete d fs).Covers (ts ++ us) := by
  induction h generalizing us d with
  | nil => exact he
  | quote _ ih =>
    rw [List.append_assoc]
    exact ih (.quote he)
  | @list ts vs fs items b h hs _ =>
    have hitems : Sequence (vs ++ us) (d :: items).reverse := by
      rw [List.reverse_cons]
      exact hs.append he.sequence
    rw [List.append_assoc, List.cons_append]
    exact .list b h hitems

theorem Opened.fed {ts : List Token} {fs : List Frame} {t : Token} {p : Progress}
    (h : Opened ts fs) (hp : Fed fs t p) : p.Covers (ts ++ [t]) := by
  cases hp with
  | atom _ hd => exact h.complete (.atom hd)
  | string _ hs => exact h.complete (.string hs)
  | quote _ => exact .quote h
  | opening b _ => exact .list b h .nil
  | closing b items fs =>
    cases h with
    | list _ h hs => simpa using h.complete (.list b hs)

/-- What the reader has completed, the grammar derives from the tokens so far. -/
theorem sequence_of_consume {ts us : List Token} {fs fs' : List Frame} {ds : List Datum}
    (h : Opened ts fs) (hc : consume fs us = .ok (ds, fs')) :
    ∃ vs ws, ts ++ us = vs ++ ws ∧ Sequence vs ds ∧ Opened ws fs' := by
  induction us generalizing ts fs ds with
  | nil =>
    cases hc
    exact ⟨[], ts, by simp, .nil, h⟩
  | cons t us ih =>
    obtain ⟨p, es, hp, hr, rfl⟩ := consume_cons.1 hc
    have hcover := h.fed (fed_of_feed hp)
    cases p with
    | whole d =>
      obtain ⟨vs, ws, he, hs, ho⟩ := ih .nil hr
      refine ⟨ts ++ [t] ++ vs, ws, ?_, .cons hcover hs, ho⟩
      simp only [List.nil_append] at he
      simp [he]
    | pending fs =>
      obtain ⟨vs, ws, he, hs, ho⟩ := ih hcover hr
      exact ⟨vs, ws, by simpa using he, hs, ho⟩

end DynamicLisp
