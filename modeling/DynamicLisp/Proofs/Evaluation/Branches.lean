import DynamicLisp.Proofs.Library.Scopes

/-! The choice of a clause by `cond`. The clauses are examined one after the other, up to the first one
that is not passed over, in a scope that is gone when the value is evaluated (`branches_first`). -/
namespace DynamicLisp.SpecialForm

open Library (elseScope)

variable {ev : Evaluator} {clause : Datum} {before : List Datum} {w w₀ w₁ : World}
  {p : Except Stop (Option Datum) × World}

/-- What the examination of a clause comes to. The clause is passed over, its value is chosen, or it is
the end of the `cond`. -/
inductive Examined (ev : Evaluator) : Datum → World → Except Stop (Option Datum) × World → Prop
  | passed {test value : Datum} {w w' : World} : ev test w = (.ok (.bool false), w') →
    Examined ev (.list [test, value]) w (.ok none, w')
  | chosen {test value : Datum} {w w' : World} : ev test w = (.ok (.bool true), w') →
    Examined ev (.list [test, value]) w (.ok (some value), w')
  | notBool {test value d : Datum} {w w' : World} : ev test w = (.ok d, w') →
    (∀ b, d ≠ .bool b) →
      Examined ev (.list [test, value]) w (.error (.error (.notA .bool d.display)), w')
  | failed {test value : Datum} {s : Stop} {w w' : World} : ev test w = (.error s, w') →
    Examined ev (.list [test, value]) w (.error s, w')
  | count {items : List Datum} {w : World} : items.length ≠ 2 →
    Examined ev (.list items) w (.error (.error (.arity .exact 2 items.length)), w)
  | notList {d : Datum} {w : World} : (∀ items, d ≠ .list items) →
    Examined ev d w (.error (.error (.notA .list d.source)), w)

/-- The clauses are passed over one after the other. What the test of one defines is there for the next
one. -/
inductive Passed (ev : Evaluator) : List Datum → World → World → Prop
  | nil (w : World) : Passed ev [] w w
  | cons {clause : Datum} {clauses : List Datum} {w w₁ w₂ : World} :
    Examined ev clause w (.ok none, w₁) → Passed ev clauses w₁ w₂ →
      Passed ev (clause :: clauses) w w₂

/-! ### Clauses -/

theorem exists_examined (ev : Evaluator) (clause : Datum) (w : World) :
    ∃ p, Examined ev clause w p := by
  by_cases hlist : ∃ items, clause = .list items
  · obtain ⟨items, rfl⟩ := hlist
    match items with
    | [test, value] =>
      rcases htest : ev test w with ⟨s | d, w'⟩
      · exact ⟨_, .failed htest⟩
      · by_cases hbool : ∃ b, d = .bool b
        · obtain ⟨⟨⟩ | ⟨⟩, rfl⟩ := hbool
          · exact ⟨_, .passed htest⟩
          · exact ⟨_, .chosen htest⟩
        · exact ⟨_, .notBool htest (not_exists.1 hbool)⟩
    | [] | [_] | _ :: _ :: _ :: _ => exact ⟨_, .count (by simp)⟩
  · exact ⟨_, .notList (not_exists.1 hlist)⟩

/-- The clauses behind one are looked at only if it is passed over. -/
theorem chooseClause_examined (h : Examined ev clause w p) (clauses : List Datum) :
    chooseClause ev (clause :: clauses) w = match p with
      | (.ok none, w') => chooseClause ev clauses w'
      | p => p := by
  cases h with
  | passed htest => rw [chooseClause, Action.bind_apply, htest]
  | failed htest => rw [chooseClause, Action.bind_apply, htest]
  | chosen htest =>
    rw [chooseClause, Action.bind_apply, htest]
    rfl
  | notBool htest hbool =>
    rw [chooseClause, Action.bind_apply, htest]
    dsimp only
    split
    · exact absurd rfl (hbool true)
    · exact absurd rfl (hbool false)
    · rfl
  | count hpair =>
    rw [chooseClause.eq_3 _ _ _ fun test value h => hpair (by rw [h]; rfl)]
    rfl
  | notList hlist =>
    rw [chooseClause.eq_4 _ _ _ (fun test value => hlist [test, value]) hlist]
    rfl

theorem chooseClause_passed (h : Passed ev before w₀ w₁) (clauses : List Datum) :
    chooseClause ev (before ++ clauses) w₀ = chooseClause ev clauses w₁ := by
  induction h with
  | nil => rfl
  | cons hclause _ ih =>
    rw [List.cons_append, chooseClause_examined hclause]
    exact ih

/-- All clauses are passed over, or there is a first one that is not. -/
theorem passed_or_first (ev : Evaluator) (clauses : List Datum) (w₀ : World) :
    (∃ w₁, Passed ev clauses w₀ w₁) ∨ ∃ before clause after w₁ r w₂,
      clauses = before ++ clause :: after ∧ Passed ev before w₀ w₁ ∧
        Examined ev clause w₁ (r, w₂) ∧ r ≠ .ok none := by
  induction clauses generalizing w₀ with
  | nil => exact .inl ⟨w₀, .nil w₀⟩
  | cons clause clauses ih =>
    obtain ⟨⟨r, w₁⟩, hclause⟩ := exists_examined ev clause w₀
    by_cases hpassed : r = .ok none
    · subst hpassed
      rcases ih w₁ with ⟨w₂, hall⟩ | ⟨before, first, after, w₂, r, w₃, rfl, hbefore, hfirst, hr⟩
      · exact .inl ⟨w₂, .cons hclause hall⟩
      · exact .inr ⟨clause :: before, first, after, w₂, r, w₃, rfl, .cons hclause hbefore, hfirst, hr⟩
    · exact .inr ⟨[], clause, clauses, w₀, r, w₁, rfl, .nil w₀, hclause, hpassed⟩

/-! ### The form -/

/-- The clauses are examined in one more scope, in which only `else` is bound. The value is evaluated
in the scopes of the form. -/
theorem runBranches_eq (limit : Nat) (clauses : List Datum) (w : World) :
    runBranches (evaluate limit) clauses w =
      match chooseClause (evaluate limit) clauses (w.under [elseScope]) with
      | (.ok (some value), w') => evaluate limit value (w'.withScopesOf w)
      | (.ok none, w') => (.ok .empty, w'.withScopesOf w)
      | (.error s, w') => (.error s, w'.withScopesOf w) := by
  have hR := Action.frames_compositional.relational
  have hev (d : Datum) : evaluate limit d = evaluate limit d ∧ Action.Frames _ (evaluate limit d) :=
    ⟨rfl, Action.frames_compositional.evaluate limit d⟩
  obtain ⟨-, hframes⟩ := hR.bind (hR.define "else" (.bool true)) fun _ => hR.chooseClause hev clauses
  have hinner : (Action.define "else" (.bool true) >>= fun _ => chooseClause (evaluate limit) clauses)
      w.enter = chooseClause (evaluate limit) clauses (w.under [elseScope]) := rfl
  rw [runBranches, Action.bind_apply, Action.inScope_apply (hframes w.enter).1, hinner]
  generalize chooseClause (evaluate limit) clauses (w.under [elseScope]) = chosen
  obtain ⟨s | _ | value, w'⟩ := chosen <;> rfl

/-- The value of a `cond` is decided by the first clause that is not passed over, and by no clause
behind it. If its test is true, its value is evaluated in the scopes the `cond` is evaluated in, without
`else` and without what the tests have defined; if there is no such clause, the value is the empty list
and these scopes are back. -/
theorem branches_first (limit : Nat) (clauses : List Datum) (w : World) :
    (∃ w₁, Passed (evaluate limit) clauses (w.under [elseScope]) w₁ ∧
      runBranches (evaluate limit) clauses w = (.ok .empty, w₁.withScopesOf w)) ∨
    ∃ before clause after w₁ w₂, clauses = before ++ clause :: after ∧
      Passed (evaluate limit) before (w.under [elseScope]) w₁ ∧
      ((∃ s, Examined (evaluate limit) clause w₁ (.error s, w₂) ∧ ∀ rest,
        runBranches (evaluate limit) (before ++ clause :: rest) w = (.error s, w₂.withScopesOf w)) ∨
      ∃ value, Examined (evaluate limit) clause w₁ (.ok (some value), w₂) ∧ ∀ rest,
        runBranches (evaluate limit) (before ++ clause :: rest) w =
          evaluate limit value (w₂.withScopesOf w)) := by
  rcases passed_or_first (evaluate limit) clauses (w.under [elseScope]) with
    ⟨w₁, hall⟩ | ⟨before, clause, after, w₁, r, w₂, rfl, hbefore, hclause, hr⟩
  · have hnone := chooseClause_passed hall []
    rw [List.append_nil] at hnone
    refine .inl ⟨w₁, hall, ?_⟩
    rw [runBranches_eq, hnone]
    rfl
  · have hfirst (rest : List Datum) : chooseClause (evaluate limit) (before ++ clause :: rest)
        (w.under [elseScope]) = (r, w₂) := by
      rw [chooseClause_passed hbefore, chooseClause_examined hclause]
      split
      · cases ‹(r, w₂) = _›
        exact absurd rfl hr
      · rfl
    refine .inr ⟨before, clause, after, w₁, w₂, rfl, hbefore, ?_⟩
    rcases r with s | _ | value
    · exact .inl ⟨s, hclause, fun rest => by rw [runBranches_eq, hfirst]⟩
    · exact absurd rfl hr
    · exact .inr ⟨value, hclause, fun rest => by rw [runBranches_eq, hfirst]⟩

end DynamicLisp.SpecialForm
