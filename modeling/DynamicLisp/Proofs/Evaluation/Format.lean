import DynamicLisp.Proofs.Evaluation.Application
import DynamicLisp.Proofs.Evaluation.Template

/-! The filling in of templates by `format`. Nothing is read or evaluated unless the whole template can be
cut into sections; these are then taken from left to right, up to the first that fails
(`format_sections`). -/
namespace DynamicLisp

open Template (Separate split write)

variable {ev : Evaluator} {limit : Nat} {text : List Char} {texts : List String} {w w' w₁ : World}
  {ss before : List Section}

/-- The sections are taken one after the other, and give these texts. All of an expression is read, and
the first that is read is evaluated in a scope of its own; the others are not evaluated. -/
inductive Renders (ev : Evaluator) : List Section → World → List String → World → Prop
  | nil (w : World) : Renders ev [] w [] w
  | literal {text : List Char} {ss : List Section} {w w' : World} {texts : List String} :
    Renders ev ss w texts w' → Renders ev (.literal text :: ss) w (String.ofList text :: texts) w'
  | expression {text : List Char} {d v : Datum} {ds : List Datum} {ss : List Section}
    {w w₁ w' : World} {texts : List String} : readChars text = .ok (d :: ds) →
    ev d w.enter = (.ok v, w₁) → Renders ev ss (w₁.withScopesOf w) texts w' →
      Renders ev (.expression text :: ss) w (v.display :: texts) w'

/-- An expression gives no text: it cannot be read, there is nothing in it, or its evaluation stops. -/
inductive Breaks (ev : Evaluator) (text : List Char) (w : World) : Stop → World → Prop
  | unreadable {e : ReadError} : readChars text = .error e →
    Breaks ev text w (.error (.malformed e)) w
  | empty : readChars text = .ok [] → Breaks ev text w (.error (.malformed .emptyInterpolation)) w
  | stops {d : Datum} {ds : List Datum} {s : Stop} {w₁ : World} : readChars text = .ok (d :: ds) →
    ev d w.enter = (.error s, w₁) → Breaks ev text w s (w₁.withScopesOf w)

theorem Renders.scopes_eq (h : Renders ev ss w texts w') :
    w'.environment.scopes = w.environment.scopes := by
  induction h with
  | nil => rfl
  | literal _ ih => exact ih
  | expression _ _ _ ih => exact ih

theorem Breaks.scopes_eq {s : Stop} (h : Breaks ev text w s w') :
    w'.environment.scopes = w.environment.scopes := by
  cases h with
  | unreadable => rfl
  | empty => rfl
  | stops => rfl

/-! ### One section -/

theorem interpolate_eq (limit : Nat) (text : List Char) (w : World) :
    interpolate (evaluate limit) text w = match readChars text with
      | .error e => (.error (.error (.malformed e)), w)
      | .ok [] => (.error (.error (.malformed .emptyInterpolation)), w)
      | .ok (d :: _) => ((evaluate limit d w.enter).1.map Datum.display,
          (evaluate limit d w.enter).2.withScopesOf w) := by
  have hsource : readSource text = (readChars text).mapError .malformed := rfl
  rw [interpolate, hsource]
  match readChars text with
  | .error e => rfl
  | .ok [] => rfl
  | .ok (d :: ds) =>
    have hframed := (Action.frames_compositional.evaluate limit d w.enter).1
    change (Action.inScope (evaluate limit d) >>= fun v => pure v.display) w = _
    rw [Action.bind_apply, Action.inScope_apply hframed]
    dsimp only
    cases (evaluate limit d w.enter).1 <;> rfl

theorem interpolate_value {d v : Datum} {ds : List Datum} (hread : readChars text = .ok (d :: ds))
    (hvalue : evaluate limit d w.enter = (.ok v, w₁)) :
    interpolate (evaluate limit) text w = (.ok v.display, w₁.withScopesOf w) := by
  rw [interpolate_eq, hread]
  dsimp only
  rw [hvalue]
  rfl

theorem Breaks.interpolate {s : Stop} (h : Breaks (evaluate limit) text w s w') :
    interpolate (evaluate limit) text w = (.error s, w') := by
  rw [interpolate_eq]
  cases h with
  | unreadable hread => rw [hread]
  | empty hread => rw [hread]
  | stops hread hstop =>
    rw [hread]
    dsimp only
    rw [hstop]
    rfl

/-- An expression gives a text or does not. -/
theorem value_or_breaks (limit : Nat) (text : List Char) (w : World) :
    (∃ d ds v w₁, readChars text = .ok (d :: ds) ∧ evaluate limit d w.enter = (.ok v, w₁)) ∨
      ∃ s w', Breaks (evaluate limit) text w s w' := by
  match hread : readChars text with
  | .error e => exact .inr ⟨_, _, .unreadable hread⟩
  | .ok [] => exact .inr ⟨_, _, .empty hread⟩
  | .ok (d :: ds) =>
    rcases hvalue : evaluate limit d w.enter with ⟨s | v, w₁⟩
    · exact .inr ⟨_, _, .stops hread hvalue⟩
    · exact .inl ⟨d, ds, v, w₁, rfl, hvalue⟩

/-! ### All sections -/

theorem fillIn_literal (ev : Evaluator) (text : List Char) (ss : List Section) (w : World) :
    fillIn ev (.literal text :: ss) w =
      ((fillIn ev ss w).1.map (String.ofList text ++ ·), (fillIn ev ss w).2) := by
  rw [fillIn, Action.bind_apply]
  rcases fillIn ev ss w with ⟨_ | _, _⟩ <;> rfl

theorem fillIn_expression {s : String} (h : interpolate ev text w = (.ok s, w₁))
    (ss : List Section) : fillIn ev (.expression text :: ss) w =
      ((fillIn ev ss w₁).1.map (s ++ ·), (fillIn ev ss w₁).2) := by
  rw [fillIn, Action.bind_apply, h]
  dsimp only
  rw [Action.bind_apply]
  rcases fillIn ev ss w₁ with ⟨_ | _, _⟩ <;> rfl

theorem fillIn_breaks {s : Stop} (h : Breaks (evaluate limit) text w s w') (ss : List Section) :
    fillIn (evaluate limit) (.expression text :: ss) w = (.error s, w') := by
  rw [fillIn, Action.bind_apply, h.interpolate]

theorem map_join_cons (s : String) (texts : List String) (r : Except Stop String) :
    (r.map (String.join texts ++ ·)).map (s ++ ·) = r.map (String.join (s :: texts) ++ ·) := by
  cases r with
  | error e => rfl
  | ok rest => simp [Except.map, String.append_assoc]

/-- The texts of sections come before the text of those behind them. -/
theorem fillIn_renders (h : Renders (evaluate limit) before w texts w') (ss : List Section) :
    fillIn (evaluate limit) (before ++ ss) w =
      ((fillIn (evaluate limit) ss w').1.map (String.join texts ++ ·),
        (fillIn (evaluate limit) ss w').2) := by
  induction h with
  | nil w =>
    rw [List.nil_append]
    rcases fillIn (evaluate limit) ss w with ⟨_ | _, _⟩ <;> simp [Except.map]
  | literal _ ih => rw [List.cons_append, fillIn_literal, ih, map_join_cons]
  | expression hread hvalue _ ih =>
    rw [List.cons_append, fillIn_expression (interpolate_value hread hvalue), ih, map_join_cons]

theorem renders_or_first (limit : Nat) (ss : List Section) (w : World) :
    (∃ texts w', Renders (evaluate limit) ss w texts w') ∨
      ∃ before text after texts w₁ s w', ss = before ++ .expression text :: after ∧
        Renders (evaluate limit) before w texts w₁ ∧ Breaks (evaluate limit) text w₁ s w' := by
  induction ss generalizing w with
  | nil => exact .inl ⟨[], w, .nil w⟩
  | cons first ss ih =>
    cases first with
    | literal text =>
      rcases ih w with ⟨texts, w', hall⟩ | ⟨before, text', after, texts, w₁, s, w', rfl, hbefore, hs⟩
      · exact .inl ⟨_, w', .literal hall⟩
      · exact .inr ⟨_, text', after, _, w₁, s, w', rfl, .literal hbefore, hs⟩
    | expression text =>
      rcases value_or_breaks limit text w with ⟨d, ds, v, w₁, hread, hvalue⟩ | ⟨s, w', hs⟩
      · rcases ih (w₁.withScopesOf w) with
          ⟨texts, w', hall⟩ | ⟨before, text', after, texts, w₂, s, w', rfl, hbefore, hs⟩
        · exact .inl ⟨_, w', .expression hread hvalue hall⟩
        · exact .inr ⟨_, text', after, _, w₂, s, w', rfl, .expression hread hvalue hbefore, hs⟩
      · exact .inr ⟨[], text, ss, [], w, s, w', rfl, .nil w, hs⟩

/-! ### The intrinsic -/

theorem run_format (ev : Evaluator) (t : String) (w : World) :
    Intrinsic.format.run ev [.string t] w = match split t.toList with
      | .error e => (.error (.error (.malformed e)), w)
      | .ok ss => ((fillIn ev ss w).1.map .string, (fillIn ev ss w).2) := by
  rw [Intrinsic.run]
  change ((Action.ofExcept (((split t.toList).mapError LispError.malformed).mapError .error)) >>=
    fun ss => fillIn ev ss >>= fun s => pure (Datum.string s)) w = _
  cases split t.toList with
  | error e => rfl
  | ok ss =>
    change (fillIn ev ss >>= fun s => pure (Datum.string s)) w = _
    rw [Action.bind_apply]
    dsimp only
    rcases fillIn ev ss w with ⟨_ | _, _⟩ <;> rfl

theorem evaluate_format {head d : Datum} {t : String} {w₀ : World}
    (hhead : evaluate limit head w₀ = (.ok (.intrinsic .format), w₁))
    (hd : evaluate limit d w₁ = (.ok (.string t), w)) :
    evaluate (limit + 1) (.list [head, d]) w₀ =
      Intrinsic.format.run (evaluate limit) [.string t] w := by
  rw [evaluate_function rfl hhead, applied, Action.bind_apply, evaluateAll, Action.bind_apply, hd]
  rfl

/-- A text is cut into the sections that it is written from, and into no other ones. If it is not written
from any, an expression in it is never closed; the template then fails before anything is read or
evaluated. Otherwise the sections are taken from left to right. Either all of them give a text, and the
result is these texts put together, or the template fails with the first one that does not, whatever
stands behind it. The scopes are what they were. -/
theorem format_sections (limit : Nat) (t : String) (w : World) :
    (∀ ss, split t.toList = .ok ss ↔ Separate ss ∧ write ss = t.toList) ∧
    (∀ e, split t.toList = .error e ↔ e = .unclosedInterpolation ∧ ∃ ss rest, Separate ss ∧
      t.toList = write ss ++ '$' :: '\x7b' :: rest ∧ '\x7d' ∉ rest) ∧
    (∀ e ev, split t.toList = .error e →
      Intrinsic.format.run ev [.string t] w = (.error (.error (.malformed e)), w)) ∧
    (∀ ss, split t.toList = .ok ss →
      (∃ texts w', Renders (evaluate limit) ss w texts w' ∧
        w'.environment.scopes = w.environment.scopes ∧
        Intrinsic.format.run (evaluate limit) [.string t] w =
          (.ok (.string (String.join texts)), w')) ∨
      ∃ before text after texts w₁ s w', ss = before ++ .expression text :: after ∧
        Renders (evaluate limit) before w texts w₁ ∧ Breaks (evaluate limit) text w₁ s w' ∧
        w'.environment.scopes = w.environment.scopes ∧
        ∀ t' rest, split t'.toList = .ok (before ++ .expression text :: rest) →
          Intrinsic.format.run (evaluate limit) [.string t'] w = (.error s, w')) ∧
    ∀ head d w₀ w₁, evaluate limit head w₀ = (.ok (.intrinsic .format), w₁) →
      evaluate limit d w₁ = (.ok (.string t), w) → evaluate (limit + 1) (.list [head, d]) w₀ =
        Intrinsic.format.run (evaluate limit) [.string t] w := by
  refine ⟨fun ss => Template.split_eq_ok_iff, fun e => Template.split_eq_error_iff,
    fun e ev hsplit => ?_, fun ss hsplit => ?_, fun head d w₀ w₁ => evaluate_format⟩
  · rw [run_format, hsplit]
  · rcases renders_or_first limit ss w with
      ⟨texts, w', hall⟩ | ⟨before, text, after, texts, w₁, s, w', rfl, hbefore, hs⟩
    · refine .inl ⟨texts, w', hall, hall.scopes_eq, ?_⟩
      have hfill := fillIn_renders hall []
      rw [List.append_nil] at hfill
      rw [run_format, hsplit]
      dsimp only
      rw [hfill]
      simp [fillIn, Except.map, Action.pure_apply]
    · refine .inr ⟨before, text, after, texts, w₁, s, w', rfl, hbefore, hs,
        hs.scopes_eq.trans hbefore.scopes_eq, fun t' rest hsplit' => ?_⟩
      rw [run_format, hsplit']
      dsimp only
      rw [fillIn_renders hbefore, fillIn_breaks hs]
      rfl

end DynamicLisp
