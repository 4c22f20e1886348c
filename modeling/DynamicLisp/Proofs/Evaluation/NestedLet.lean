import DynamicLisp.Proofs.Evaluation.Visibility

/-! A `let` within a `let` and one `let` with the bindings of both. Once the outer bindings have been
made the two differ by a scope, which nothing sees that names no outer scope
(`evaluate_nested_let`). -/
namespace DynamicLisp

open SpecialForm (bindAll)

theorem SpecialForm.bindAll_append (ev : Evaluator) (ps qs : List Datum) :
    bindAll ev (ps ++ qs) = bindAll ev ps >>= fun _ => bindAll ev qs := by
  fun_induction bindAll ev ps with
  | case1 => simp
  | case2 s value rest ih => simp [bindAll, ih, bind_assoc]
  | case3 name value rest hname =>
    rw [List.cons_append, bindAll.eq_3 _ _ _ _ hname]
    rfl
  | case4 binding rest hname hpair =>
    rw [List.cons_append, bindAll.eq_4 _ _ _ hname hpair]
    rfl
  | case5 d rest hname hpair hlist =>
    rw [List.cons_append, bindAll.eq_5 _ _ _ hname hpair hlist]
    rfl

/-- The form `(let (binding ...) body)`. -/
def letForm (bindings : List Datum) (body : Datum) : Datum :=
  .list [.name "let", .list bindings, body]

/-- Nothing else has been bound to the name of the special form. -/
def HasLet (w : World) : Prop := w.environment.resolve "let" = .ok (.special .bindings)

variable {ps qs : List Datum} {body : Datum} {w : World}

theorem evaluateWith_let {ev : Evaluator}
    (h : ev (.name "let") w = (.ok (.special .bindings), w)) :
    evaluateWith ev (letForm qs body) w =
      Action.inScope (bindAll ev qs >>= fun _ => ev body) w := by
  rw [letForm, evaluateWith, Action.bind_apply, h]
  rfl

theorem evaluate_let (h : HasLet w) (n : Nat) :
    evaluate (n + 2) (letForm qs body) w =
      Action.inScope (bindAll (evaluate (n + 1)) qs >>= fun _ => evaluate (n + 1) body) w := by
  rw [evaluate]
  apply evaluateWith_let
  rw [evaluate, Datum.name, evaluateWith_symbol, h]
  rfl

theorem evaluateUntil_let (h : HasLet w) (n : Nat) :
    evaluateUntil skipsScope (n + 2) (letForm qs body) w =
      Action.inScope (bindAll (evaluateUntil skipsScope (n + 1)) qs >>= fun _ =>
        evaluateUntil skipsScope (n + 1) body) w := by
  rw [evaluateUntil_of_unwatched rfl]
  apply evaluateWith_let
  rw [evaluateUntil_of_unwatched (d := .name "let") rfl, Datum.name, evaluateWith_symbol, h]
  rfl

/-- Why an evaluation is broken off: it comes to a moment that is watched for, or goes too deep. -/
def BrokenOff (s : Stop) : Prop := s = .noScope ∨ s = .runaway

/-- The results of two actions that were started in one world. The first action is broken off, or
both end alike, in the scopes that they were started in, and leave the same struct types and the same
host. -/
def EndAlike (w : World) (p q : Except Stop Datum × World) : Prop :=
  w.environment.Framed p.2.environment ∧ ((∃ s, BrokenOff s ∧ p.1 = .error s) ∨
    p.1 = q.1 ∧ w.environment.Framed q.2.environment ∧
      (∀ t, p.2.environment.fields? t = q.2.environment.fields? t) ∧ p.2.host = q.2.host)

theorem EndAlike.trans {w w' : World} {p q : Except Stop Datum × World}
    (hw : w.environment.Framed w'.environment) (h : EndAlike w' p q) : EndAlike w p q := by
  obtain ⟨hframed, hrun⟩ := h
  refine ⟨hw.trans hframed, hrun.imp id ?_⟩
  rintro ⟨hr, hframed', hrest⟩
  exact ⟨hr, hw.trans hframed', hrest⟩

/-- A scope of their own makes no difference to the bindings that are made last. -/
theorem let_endAlike (h : HasLet w) (n : Nat) :
    EndAlike w (evaluateUntil skipsScope n (letForm qs body) w)
      ((bindAll (evaluate n) qs >>= fun _ => evaluate n body) w) := by
  match n with
  | 0 | 1 => exact ⟨.refl _, .inl ⟨.runaway, .inr rfl, rfl⟩⟩
  | n + 2 =>
    -- inside its form the body has one level less to go, so the first run may be the shorter one
    have hR : Action.Relational (· = ·) (Action.Mirrors Environment.Agree (· = ·) BrokenOff) :=
      Action.mirrors_relational Environment.Agree.tie .eq
    have hev (d : Datum) : Action.Mirrors Environment.Agree (· = ·) BrokenOff _
        (evaluateUntil skipsScope (n + 1) d) (evaluate (n + 2) d) :=
      Action.evaluateUntil_mirrors BrokenOff Environment.Agree.tie .eq (.inl rfl)
        (.inr ⟨Nat.le_succ _, .inr rfl⟩) (fun _ _ _ htied => resolve_eq htied.environment) d
    have hmirrors := hR.bind (hR.bindAll hev qs) fun _ => hev body
    obtain ⟨hframed, hrun⟩ := hmirrors w.enter w ⟨.enter _, .of_eq rfl⟩
    obtain ⟨e, he, -, hstructs, hframed'⟩ := Action.inScope_eq hframed
    rw [evaluateUntil_let h, he]
    refine ⟨hframed', hrun.imp id ?_⟩
    rintro ⟨hr, hw, htied⟩
    have htypes (t : String) := htied.environment.types t
    simp only [Environment.fields?, ← hstructs] at htypes
    exact ⟨hr, hw, htypes, htied.host.eq⟩

theorem nested_endAlike (n : Nat)
    (hinner : ∀ u, bindAll (evaluate n) ps w = (.ok (), u) → HasLet u) :
    EndAlike w
      ((bindAll (evaluateUntil skipsScope n) ps >>= fun _ =>
        evaluateUntil skipsScope n (letForm qs body)) w)
      ((bindAll (evaluate n) ps >>= fun _ =>
        bindAll (evaluate n) qs >>= fun _ => evaluate n body) w) := by
  have hR : Action.Relational (· = ·) (Action.Mirrors (· = ·) (· = ·) (· = .noScope)) :=
    Action.mirrors_relational Environment.tie_eq .eq
  have hbindings := hR.bindAll (Action.evaluateUntil_mirrors_evaluate skipsScope n) ps
  obtain ⟨hframed, hrun⟩ := hbindings w w (.refl w)
  rw [Action.bind_apply, Action.bind_apply]
  generalize bindAll (evaluateUntil skipsScope n) ps w = p at hframed hrun
  generalize hq : bindAll (evaluate n) ps w = q at hrun
  obtain ⟨r, u⟩ := p
  obtain ⟨r', u'⟩ := q
  dsimp only at hframed hrun
  rcases hrun with ⟨_, rfl, rfl⟩ | ⟨rfl, -, htied⟩
  · exact ⟨hframed, .inl ⟨.noScope, .inl rfl, rfl⟩⟩
  · obtain rfl := htied.eq
    cases r with
    | error s => exact ⟨hframed, .inr ⟨rfl, hframed, fun _ => rfl, rfl⟩⟩
    | ok _ => exact .trans hframed (let_endAlike (hinner u hq) n)

/-- The bindings of a `let` that is the body of another one might as well be made by the outer one, if
the inner one is still the special form when it is come to: both end in the same way and print the
same, and leave environments behind that cannot be told apart. -/
theorem evaluate_nested_let {limit : Nat} (hlet : HasLet w)
    (hinner : ∀ n u, bindAll (evaluate n) ps w.enter = (.ok (), u) → HasLet u)
    (hskips : ¬ Encounters skipsScope limit (letForm ps (letForm qs body)) w)
    (hends : (evaluate limit (letForm ps (letForm qs body)) w).1 ≠ .error .runaway) :
    ∃ r w₁ w₂, evaluate limit (letForm ps (letForm qs body)) w = (r, w₁) ∧
      evaluate limit (letForm (ps ++ qs) body) w = (r, w₂) ∧
      w₁.environment.Agree w₂.environment ∧ w₁.host = w₂.host := by
  match limit with
  | 0 | 1 => exact (hends rfl).elim
  | n + 2 =>
    have hsame := evaluateUntil_eq hskips
    rw [Encounters, hsame] at hskips
    rw [← hsame, evaluateUntil_let hlet] at hskips hends ⊢
    rw [evaluate_let hlet, SpecialForm.bindAll_append, bind_assoc]
    obtain ⟨hframed, hrun⟩ := nested_endAlike (n + 1) (hinner (n + 1))
    obtain ⟨e, he, hscopes, hstructs, -⟩ := Action.inScope_eq hframed
    rw [he] at hskips hends ⊢
    rcases hrun with ⟨_, rfl | rfl, hbroken⟩ | ⟨hr, hframed', htypes, hhost⟩
    · exact (hskips hbroken).elim
    · exact (hends hbroken).elim
    · obtain ⟨e', he', hscopes', hstructs', -⟩ := Action.inScope_eq hframed'
      refine ⟨_, _, ⟨e', _⟩, rfl, he'.trans (by rw [hr]), ⟨fun z => ?_, fun t => ?_⟩, hhost⟩
      · exact Environment.get?_congr (hscopes.trans hscopes'.symm) z
      · have ht := htypes t
        simp only [Environment.fields?, ← hstructs, ← hstructs'] at ht
        exact ht

end DynamicLisp
