import DynamicLisp.Proofs.Datum.SelfRepresenting
import DynamicLisp.Proofs.Evaluation.Bindings
import DynamicLisp.Proofs.Evaluation.ReservedWords
import Mathlib.Data.List.Induction

/-! Definitions in the shape of a function, with a target of any nesting. The form is evaluated again and
again, each time with one list of parameters less, and in the end the name in the innermost target is
bound to a closure (`define_nested`). -/
namespace DynamicLisp

namespace SpecialForm

/-- The target `(... ((target param ...) param ...) ...)` with these lists of parameters, the first one
next to the innermost target. -/
def nestedTarget (target : Datum) (lists : List (List Datum)) : Datum :=
  lists.foldl (fun target params => .list (target :: params)) target

/-- The form `(lambda (param ...) (lambda (param ...) ... body))` with these lists of parameters. -/
def nestedLambda (lists : List (List Datum)) (body : Datum) : Datum :=
  lists.foldr (fun params body => .list [.name "lambda", .list params, body]) body

/-- The last parameter takes all arguments that are left. -/
def endsVariadic (params : List Symbol) : Bool := params.getLast?.any Symbol.variadic

variable {w : World} {limit : Nat} {target body : Datum} {bodies params : List Datum}

theorem nestedTarget_concat (target : Datum) (lists : List (List Datum)) (params : List Datum) :
    nestedTarget target (lists ++ [params]) = .list (nestedTarget target lists :: params) :=
  List.foldl_concat ..

theorem nestedLambda_concat (lists : List (List Datum)) (params : List Datum) (body : Datum) :
    nestedLambda (lists ++ [params]) body =
      nestedLambda lists (.list [.name "lambda", .list params, body]) :=
  List.foldr_concat ..

/-- Parameters of which only the last one has the variadic mark are accepted. -/
theorem parameters_symbols {ss : List Symbol} (hmarks : ∀ s ∈ ss.dropLast, s.variadic = false) :
    parameters (ss.map .symbol) = .ok (ss.map Symbol.name, endsVariadic ss) := by
  induction ss with
  | nil => rfl
  | cons s ss ih =>
    cases ss with
    | nil => rfl
    | cons t ss =>
      obtain ⟨hs, hss⟩ := List.forall_mem_cons.1 hmarks
      have hmore : (t :: ss).map Datum.symbol ≠ [] := List.cons_ne_nil _ _
      rw [List.map_cons, parameters_cons hmore, ih hss, hs]
      rfl

/-! ### One level -/

/-- A definition with a list as its target is evaluated as another one, with a lambda form. -/
theorem evaluate_define_list (hdefine : w.environment.resolve "define" = .ok (.special .define))
    (hbodies : bodies ≠ []) :
    evaluate (limit + 2) (.list (.name "define" :: .list (target :: params) :: bodies)) w =
      evaluate (limit + 1) (.list [.name "define", target,
        .list [.name "lambda", .list params, bodyOf bodies]]) w := by
  obtain ⟨body, rest, rfl⟩ := List.exists_cons_of_ne_nil hbodies
  exact evaluate_call (f := .define) hdefine

theorem evaluate_define_reserved (hdefine : w.environment.resolve "define" = .ok (.special .define))
    {s : Symbol} (hs : s.name ∈ reservedWords) :
    evaluate (limit + 2) (.list [.name "define", .symbol s, body]) w =
      (.error (.error (.reservedWord s.name)), w) :=
  (evaluate_call (f := .define) hdefine).trans (runDefine_reserved body hs)

theorem evaluate_define_empty (hdefine : w.environment.resolve "define" = .ok (.special .define)) :
    evaluate (limit + 2) (.list [.name "define", .list [], body]) w =
      (.error (.error .emptyTarget), w) :=
  evaluate_call (f := .define) hdefine

theorem evaluate_define_other (hdefine : w.environment.resolve "define" = .ok (.special .define))
    (hsymbol : ∀ s, target ≠ .symbol s) (hlist : ∀ ds, target ≠ .list ds) :
    evaluate (limit + 2) (.list [.name "define", target, body]) w =
      (.error (.error (.notAnIdentifier target.source)), w) := by
  refine (evaluate_call (f := .define) hdefine).trans ?_
  cases target with
  | symbol s => exact absurd rfl (hsymbol s)
  | list ds => exact absurd rfl (hlist ds)
  | _ => rfl

theorem evaluate_lambda (hlambda : w.environment.resolve "lambda" = .ok (.special .lambda))
    {ss : List Symbol} (hmarks : ∀ s ∈ ss.dropLast, s.variadic = false) :
    evaluate (limit + 2) (.list [.name "lambda", .list (ss.map .symbol), body]) w =
      (.ok (.closure (ss.map Symbol.name) (endsVariadic ss) body), w) := by
  refine (evaluate_call (f := .lambda) hlambda).trans ?_
  have hclosure : closureOf [.list (ss.map .symbol), body] =
      .ok (.closure (ss.map Symbol.name) (endsVariadic ss) body) := by
    rw [closureOf, parameters_symbols hmarks]
    rfl
  rw [run, hclosure]
  rfl

theorem evaluate_define_lambda (hdefine : w.environment.resolve "define" = .ok (.special .define))
    (hlambda : w.environment.resolve "lambda" = .ok (.special .lambda)) {s : Symbol}
    (hs : s.name ∉ reservedWords) {ss : List Symbol}
    (hmarks : ∀ s ∈ ss.dropLast, s.variadic = false) :
    evaluate (limit + 3) (.list [.name "define", .symbol s,
      .list [.name "lambda", .list (ss.map .symbol), body]]) w =
        (.ok .empty, { w with environment :=
          w.environment.define s.name (.closure (ss.map Symbol.name) (endsVariadic ss) body) }) := by
  refine (evaluate_call (f := .define) hdefine).trans ?_
  rw [run, runDefine_symbol _ hs, Action.bind_apply, evaluate_lambda hlambda hmarks]
  rfl

/-! ### All levels -/

/-- Each level of evaluation takes one list off the target, and puts a lambda form around the body. -/
theorem evaluate_nested (hdefine : w.environment.resolve "define" = .ok (.special .define))
    (limit : Nat) (target : Datum) (lists : List (List Datum)) (body : Datum) :
    evaluate (limit + lists.length + 2) (.list [.name "define", nestedTarget target lists, body]) w =
      evaluate (limit + 2) (.list [.name "define", target, nestedLambda lists body]) w := by
  -- the outermost list is the last one
  induction lists using List.reverseRecOn generalizing body with
  | nil => rfl
  | append_singleton lists params ih =>
    have hlevels : limit + (lists ++ [params]).length + 2 = limit + lists.length + 1 + 2 := by
      simp only [List.length_append, List.length_singleton]
      omega
    rw [hlevels, nestedTarget_concat, nestedLambda_concat]
    exact (evaluate_define_list hdefine (List.cons_ne_nil body [])).trans (ih _)

/-- Several expressions are put together in the first level. -/
theorem evaluate_nested_bodies (hdefine : w.environment.resolve "define" = .ok (.special .define))
    (limit : Nat) (target : Datum) {lists : List (List Datum)} (hlists : lists ≠ [])
    (hbodies : bodies ≠ []) :
    evaluate (limit + lists.length + 2)
        (.list (.name "define" :: nestedTarget target lists :: bodies)) w =
      evaluate (limit + 2) (.list [.name "define", target, nestedLambda lists (bodyOf bodies)]) w := by
  obtain ⟨before, last, rfl⟩ : ∃ before last, lists = before ++ [last] :=
    ⟨_, _, (List.dropLast_concat_getLast hlists).symm⟩
  rw [← evaluate_nested hdefine, nestedTarget_concat, evaluate_define_list hdefine hbodies,
    evaluate_define_list hdefine (List.cons_ne_nil _ [])]
  rfl

/-- A definition in the shape of a function, of whatever nesting, comes to its end. It binds the name in
the innermost target, and nothing else, to the closure that takes the innermost parameters; its body is
made of lambda forms for the other ones around the expression, or around the expressions in a `begin`.
If there is a reserved word, the empty list or no identifier in the place of the name, it fails and
nothing has changed. -/
theorem define_nested (hdefine : w.environment.resolve "define" = .ok (.special .define))
    (hlambda : w.environment.resolve "lambda" = .ok (.special .lambda)) (params : List Datum)
    (lists : List (List Datum)) (body : Datum) (rest : List Datum) (limit : Nat)
    (hlimit : lists.length + 4 ≤ limit) :
    let form (target : Datum) : Datum :=
      .list (.name "define" :: nestedTarget target (params :: lists) :: body :: rest)
    let whole : Datum := if rest = [] then body else .list (.name "begin" :: body :: rest)
    (∀ s ss, s.name ∉ reservedWords → params = ss.map .symbol →
      (∀ p ∈ ss.dropLast, p.variadic = false) →
        let closure : Datum :=
          .closure (ss.map Symbol.name) (endsVariadic ss) (nestedLambda lists whole)
        ∃ e, evaluate limit (form (.symbol s)) w = (.ok .empty, { w with environment := e }) ∧
          e.innermost.find? s.name = some closure ∧ w.environment.BindsOnly (· = s.name) e ∧
          e.structs = w.environment.structs) ∧
    (∀ s, s.name ∈ reservedWords →
      evaluate limit (form (.symbol s)) w = (.error (.error (.reservedWord s.name)), w)) ∧
    evaluate limit (form (.list [])) w = (.error (.error .emptyTarget), w) ∧
    ∀ target, (∀ s, target ≠ .symbol s) → (∀ ds, target ≠ .list ds) →
      evaluate limit (form target) w = (.error (.error (.notAnIdentifier target.source)), w) := by
  intro form whole
  have hwhole : bodyOf (body :: rest) = whole := by cases rest <;> rfl
  obtain ⟨k, rfl⟩ : ∃ k, limit = k + 1 + (params :: lists).length + 2 :=
    ⟨limit - (lists.length + 4), by rw [List.length_cons]; omega⟩
  have hform (target : Datum) : evaluate (k + 1 + (params :: lists).length + 2) (form target) w =
      evaluate (k + 3) (.list [.name "define", target, nestedLambda (params :: lists) whole]) w :=
    hwhole ▸ evaluate_nested_bodies hdefine (k + 1) target (List.cons_ne_nil _ _)
      (List.cons_ne_nil _ _)
  refine ⟨fun s ss hs hparams hmarks => ?_, fun s hs => ?_, ?_, fun target hsymbol hlist => ?_⟩
  · subst hparams
    intro closure
    refine ⟨w.environment.define s.name closure, ?_, ?_, ?_, ?_⟩
    · rw [hform]
      exact evaluate_define_lambda hdefine hlambda hs hmarks
    · rw [Environment.find?_innermost_define, if_pos rfl]
    · exact Environment.bindsOnly_define _ _ _
    · exact Environment.structs_modifyInnermost _
  · rw [hform, evaluate_define_reserved hdefine hs]
  · rw [hform, evaluate_define_empty hdefine]
  · rw [hform, evaluate_define_other hdefine hsymbol hlist]

/-- A function that gives a variadic function, defined in a scope above the base. -/
theorem define_nested_variadic :
    let w : World := ⟨(Environment.empty.update
      [("define", .special .define), ("lambda", .special .lambda)]).enter, default⟩
    let ys : Datum := .symbol ⟨"ys", true⟩
    let target (head : Datum) : Datum := .list [.list [head, .name "x"], ys]
    (∃ e, evaluate 5 (.list [.name "define", target (.name "f"), .name "x", .name "ys"]) w =
        (.ok .empty, { w with environment := e }) ∧
      e.innermost.find? "f" = some (.closure ["x"] false (.list [.name "lambda", .list [ys],
        .list [.name "begin", .name "x", .name "ys"]])) ∧
      w.environment.BindsOnly (· = "f") e) ∧
    evaluate 5 (.list [.name "define", target (.name "if"), .name "x", .name "ys"]) w =
      (.error (.error (.reservedWord "if")), w) ∧
    evaluate 5 (.list [.name "define", target (.list []), .name "x", .name "ys"]) w =
      (.error (.error .emptyTarget), w) ∧
    evaluate 5 (.list [.name "define", target (.quote (.name "f")), .name "x", .name "ys"]) w =
      (.error (.error (.notAnIdentifier "'f")), w) := by
  intro w ys target
  obtain ⟨hbinds, hreserved, hempty, hother⟩ := define_nested (w := w) rfl rfl [.name "x"] [[ys]]
    (.name "x") [.name "ys"] 5 (Nat.le_refl 5)
  refine ⟨?_, hreserved ⟨"if", false⟩ (by decide), hempty, hother _ nofun nofun⟩
  obtain ⟨e, hrun, hf, honly, -⟩ := hbinds ⟨"f", false⟩ [⟨"x", false⟩] (by decide) rfl (by simp)
  exact ⟨e, hrun, hf, honly⟩

end SpecialForm

end DynamicLisp
