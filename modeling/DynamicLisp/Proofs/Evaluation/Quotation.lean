import DynamicLisp.Proofs.Datum.Conversion
import DynamicLisp.Proofs.Evaluation.Application

/-! Quoting and `eval`, which undo each other but for quotations and nil marks, and what cannot be made
into an expression (`quotation_laws`). -/
namespace DynamicLisp

open Datum (Tree Strips Unmarked Occurs Spelled)

variable {a d e v : Datum} {w w' : World} {n : Nat}

theorem run_eval (hexpr : v.toExpr = .ok d) (ev : Evaluator) :
    Intrinsic.eval.run ev [v] = ev d := by
  have hstart : Intrinsic.runEval ev [v] = (liftM v.toExpr : Action Datum) >>= ev := rfl
  rw [Intrinsic.run, hstart, hexpr]
  rfl

/-- The value of the argument is made into an expression, which is evaluated in the place of the call. -/
theorem evaluate_eval (heval : w.environment.resolve "eval" = .ok (.intrinsic .eval))
    (ha : evaluate (n + 1) a w = (.ok v, w')) (hexpr : v.toExpr = .ok d) :
    evaluate (n + 2) (.list [.name "eval", a]) w = evaluate (n + 1) d w' := by
  rw [evaluate, evaluateWith, Action.bind_apply, SpecialForm.evaluate_name heval]
  simp only [call, evaluateAll, bind_assoc, pure_bind]
  rw [Action.bind_apply, ha]
  dsimp only
  rw [run_eval hexpr]

theorem evaluate_eval_quote (heval : w.environment.resolve "eval" = .ok (.intrinsic .eval))
    (hexpr : e.toValue.toExpr = .ok d) (limit : Nat) :
    evaluate (limit + 1) (.list [.name "eval", .quote e]) w = evaluate limit d w := by
  cases limit with
  | zero => rfl
  | succ n => exact evaluate_eval heval rfl hexpr

theorem outcome_of_succ (h : ∀ limit, evaluate (limit + 1) a w = evaluate limit d w)
    (p : Except Stop Datum × World) : Outcome a w p ↔ Outcome d w p := by
  constructor
  · rintro ⟨hends, limit, rfl⟩
    cases limit with
    | zero => exact absurd rfl hends
    | succ n => exact ⟨hends, n, (h n).symm⟩
  · rintro ⟨hends, limit, rfl⟩
    exact ⟨hends, limit + 1, h limit⟩

/-- Quoting an expression takes its quotations off at every depth and makes its nil marks empty lists.
What is left stays as it is when it is quoted again and when it is made into an expression, so that
`eval` of a quoted expression does what evaluating it without quotations and nil marks does, on one level
more. A value cannot be made into an expression exactly if a native operator occurs in it, and the first
one is named. Otherwise no instance and no closure is left outside the bodies of closures. -/
theorem quotation_laws :
    (∀ text, ∀ e ∈ (Script.ofChars text).exprs, e.Tree) ∧
    (∀ e : Datum, e.Tree →
      (∀ d, Strips e d ↔ d = e.toValue) ∧
      e.toValue.toValue = e.toValue ∧
      e.toValue.toExpr = .ok e.toValue ∧
      ∀ w d, w.environment.resolve "eval" = .ok (.intrinsic .eval) → Strips e d →
        (∀ limit, evaluate (limit + 1) (.list [.name "eval", .quote e]) w = evaluate limit d w) ∧
        (∀ p, Outcome (.list [.name "eval", .quote e]) w p ↔ Outcome d w p) ∧
        (Unmarked e → ∀ p, Outcome (.list [.name "eval", .quote e]) w p ↔ Outcome e w p)) ∧
    ∀ v : Datum,
      ((∃ err, v.toExpr = .error err) ↔ ∃ d name, Occurs d v ∧ d.nativeName? = some name) ∧
      (∀ err, v.toExpr = .error err ↔ ∃ name, v.firstNative? = some name ∧ err = .noSource name) ∧
      (Unmarked v → ∀ d, v.toExpr = .ok d → Spelled (fun c => Occurs c v) d) := by
  refine ⟨fun text e he => (isCode_of_read he).tree, fun e he => ?_, fun v => ?_⟩
  · refine ⟨fun d => he.strips_iff, he.unmarked_toValue.toValue_eq, he.toExpr_toValue, ?_⟩
    intro w d heval hstrips
    obtain rfl := he.strips_iff.1 hstrips
    have hlimit := evaluate_eval_quote heval he.toExpr_toValue
    refine ⟨hlimit, outcome_of_succ hlimit, fun hmarks => ?_⟩
    rw [hmarks.toValue_eq] at hlimit
    exact outcome_of_succ hlimit
  · refine ⟨Datum.toExpr_fails_iff, fun err => Datum.toExpr_error_iff, fun hmarks d hd => ?_⟩
    have hspelled := Datum.spelled_toExpr hmarks fun c hc => hc
    rw [hd] at hspelled
    exact hspelled

/-- Quotations in a list, in one another and around a nil mark, and an operator behind a closure with an
operator for its body. -/
theorem quotation_laws_nested :
    let w : World := ⟨Environment.empty.update [("eval", .intrinsic .eval),
      ("list", .intrinsic (.operator .list))], default⟩
    let e : Datum := .quote (.list [.name "list", .quote (.quote .nil), .string "a"])
    let held : Datum := .struct "cell" [.closure ["x"] false (.intrinsic .exit)]
    Strips e (.list [.name "list", .empty, .string "a"]) ∧
    Outcome (.list [.name "eval", .quote e]) w (.ok (.list [.empty, .string "a"]), w) ∧
    Datum.toExpr (.list [held, .intrinsic .load, .special .define]) = .error (.noSource "import") ∧
    ∃ d, held.toExpr = .ok d ∧ Spelled (fun c => Occurs c held) d := by
  intro w e held
  have he : e.Tree := .quote (.list (by
    simp only [List.forall_mem_cons]
    exact ⟨.symbol _, .quote (.quote .nil), .string _, List.forall_mem_nil _⟩))
  obtain ⟨hstrips, -, -, heval⟩ := quotation_laws.2.1 e he
  have hstripped : Strips e (.list [.name "list", .empty, .string "a"]) := (hstrips _).2 rfl
  obtain ⟨-, houtcome, -⟩ := heval w _ rfl hstripped
  have hlist : Outcome (.list [.name "list", .empty, .string "a"]) w
      (.ok (.list [.empty, .string "a"]), w) := ⟨nofun, 2, evaluate_list rfl Nat.one_pos⟩
  refine ⟨hstripped, (houtcome _).2 hlist, ?_, _, rfl, ?_⟩
  · exact ((quotation_laws.2.2 _).2.1 _).2 ⟨"import", rfl, rfl⟩
  · refine (quotation_laws.2.2 held).2.2 ?_ _ rfl
    refine Datum.unmarked_struct.2 (List.forall_mem_singleton.2 ?_)
    exact .leaf nofun nofun nofun nofun

end DynamicLisp
