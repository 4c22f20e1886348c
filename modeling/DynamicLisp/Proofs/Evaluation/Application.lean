import DynamicLisp.Proofs.Library.Scopes

/-! The application of closures: what the parameters stand for while the body is evaluated, and the two
ways to apply a function, by a call and by `apply` (`application_laws`). -/
namespace DynamicLisp

/-- Of several values that are bound to one name after the other, the last one takes effect. -/
theorem Table.find?_update_zip {κ α : Type} [DecidableEq κ] (t : Table κ α) {xs : List κ}
    {as : List α} (hlength : as.length = xs.length) (i : Nat) (hi : i < xs.length)
    (hlast : xs[i] ∉ xs.drop (i + 1)) : (t.update (xs.zip as)).find? xs[i] = as[i]? := by
  induction xs generalizing t as i with
  | nil => exact absurd hi (Nat.not_lt_zero i)
  | cons x xs ih =>
    cases as with
    | nil => cases hlength
    | cons a as =>
      cases i with
      | zero =>
        have hkeys : x ∉ (xs.zip as).map Prod.fst := fun hmem => by
          obtain ⟨p, hp, rfl⟩ := List.mem_map.1 hmem
          exact hlast (List.of_mem_zip hp).1
        refine (find?_update_of_not_mem (t := t.set x a) hkeys).trans ?_
        rw [find?_set]
        exact if_pos rfl
      | succ i => exact ih (t.set x a) (Nat.succ.inj hlength) i (Nat.lt_of_succ_lt_succ hi) hlast

/-- A closure may be applied to so many arguments. The last parameter of a variadic one takes any
number of them. -/
def Suits (params : List String) : Bool → Nat → Prop
  | false, count => count = params.length
  | true, count => params.length - 1 ≤ count

instance (params : List String) (variadic : Bool) (count : Nat) :
    Decidable (Suits params variadic count) :=
  match variadic with
  | false => inferInstanceAs (Decidable (_ = _))
  | true => inferInstanceAs (Decidable (_ ≤ _))

def arityError (params : List String) : Bool → Nat → LispError
  | false, count => .arity .exact params.length count
  | true, count => .arity .atLeast (params.length - 1) count

/-- The value of the parameter in a place. -/
def parameterValue? (params : List String) (variadic : Bool) (args : List Datum) (i : Nat) :
    Option Datum :=
  if variadic = true ∧ i + 1 = params.length then some (.list (args.drop i)) else args[i]?

/-- A parameter is bound to the value for its last place, and no other name is bound. -/
structure BindsByPosition (params : List String) (variadic : Bool) (args : List Datum)
    (scope : Scope) : Prop where
  last (i : Nat) (hi : i < params.length) : params[i] ∉ params.drop (i + 1) →
    ∃ v, parameterValue? params variadic args i = some v ∧ scope.find? params[i] = some v
  other (x : String) : x ∉ params → scope.find? x = none

variable {params : List String} {variadic : Bool} {args : List Datum} {body : Datum} {w : World}

theorem bindArguments_error (hvariadic : variadic = true → params ≠ [])
    (h : ¬ Suits params variadic args.length) :
    bindArguments params variadic args = .error (arityError params variadic args.length) := by
  cases variadic with
  | false => exact if_neg h
  | true =>
    unfold bindArguments
    rw [List.getLast?_eq_some_getLast (hvariadic rfl)]
    exact if_pos (Nat.lt_of_not_le h)

/-- The parameters are bound in their order, each to its value. -/
theorem bindArguments_ok (hvariadic : variadic = true → params ≠ [])
    (h : Suits params variadic args.length) :
    ∃ values, bindArguments params variadic args = .ok (params.zip values) ∧
      values.length = params.length ∧ ∀ i, i < params.length →
        values[i]? = parameterValue? params variadic args i := by
  cases variadic with
  | false => exact ⟨args, if_pos h, h, fun i _ => (if_neg nofun).symm⟩
  | true =>
    obtain ⟨ps, p, rfl⟩ : ∃ ps p, params = ps ++ [p] :=
      ⟨_, _, (List.dropLast_concat_getLast (hvariadic rfl)).symm⟩
    have hleading : (ps ++ [p]).length - 1 = ps.length := by simp
    have hcount : ps.length ≤ args.length := hleading ▸ h
    have htake : (args.take ps.length).length = ps.length := by simp [hcount]
    refine ⟨args.take ps.length ++ [.list (args.drop ps.length)], ?_, by simp [hcount], ?_⟩
    · have hzip : ps.zip args = ps.zip (args.take ps.length) := by
        rw [List.zip_eq_zip_take_min, Nat.min_eq_left hcount, List.take_length]
      unfold bindArguments
      rw [List.getLast?_concat]
      dsimp only
      rw [hleading, if_neg (Nat.not_lt.2 hcount), List.dropLast_concat, List.zip_append htake.symm,
        ← hzip]
      rfl
    · intro i hi
      rw [parameterValue?]
      by_cases hlast : i = ps.length
      · simp [hlast, hcount]
      · have hi : i < ps.length := by
          rw [List.length_append, List.length_singleton] at hi
          omega
        rw [if_neg (by simpa using hlast), List.getElem?_append_left (htake.symm ▸ hi),
          List.getElem?_take_of_lt hi]

/-! ### The application of closures -/

theorem applyClosure_error (hvariadic : variadic = true → params ≠ [])
    (h : ¬ Suits params variadic args.length) (ev : Evaluator) :
    applyClosure ev params variadic body args w =
      (.error (.error (arityError params variadic args.length)), w) := by
  rw [applyClosure, bindArguments_error hvariadic h]
  rfl

/-- The body is evaluated in one more scope, that of the parameters. -/
theorem applyClosure_ok (hvariadic : variadic = true → params ≠ [])
    (h : Suits params variadic args.length) (body : Datum) (w : World) :
    ∃ scope, BindsByPosition params variadic args scope ∧
      ∀ limit, applyClosure (evaluate limit) params variadic body args w =
        ((evaluate limit body (w.under [scope])).1,
          (evaluate limit body (w.under [scope])).2.withScopesOf w) := by
  obtain ⟨values, hbindings, hlength, hvalues⟩ := bindArguments_ok hvariadic h
  refine ⟨Table.empty.update (params.zip values), ⟨fun i hi hlast => ?_, fun x hx => ?_⟩, ?_⟩
  · have hi' : i < values.length := hlength ▸ hi
    refine ⟨values[i], ?_, ?_⟩
    · rw [← hvalues i hi, List.getElem?_eq_getElem]
    · rw [Table.find?_update_zip _ hlength i hi hlast, List.getElem?_eq_getElem]
  · refine Table.find?_update_of_not_mem fun hmem => ?_
    obtain ⟨p, hp, rfl⟩ := List.mem_map.1 hmem
    exact hx (List.of_mem_zip hp).1
  · intro limit
    obtain ⟨hbody, -⟩ := Action.frames_compositional.evaluate limit body
      (w.under [Table.empty.update (params.zip values)])
    have hframed := Environment.Framed.trans (.update (e := w.enter.environment) _) hbody
    rw [applyClosure, hbindings]
    exact Action.inScope_apply (x := do
      Action.modifyEnvironment (·.update (params.zip values))
      evaluate limit body) hframed

/-- A name that is not bound in an additional scope has the value that it has without it. -/
theorem get?_under {scope : Scope} {x : String} (h : scope.find? x = none) (e : Environment) :
    (e.under [scope]).get? x = e.get? x := by
  simp only [Environment.get?, Environment.lookupIn, Environment.under, List.singleton_append,
    List.findSome?_cons, h]

/-! ### Calls -/

/-- How the evaluation of an expression ends, if it is given enough levels. -/
def Outcome (d : Datum) (w : World) (p : Except Stop Datum × World) : Prop :=
  p.1 ≠ .error .runaway ∧ ∃ limit, evaluate limit d w = p

variable {d f : Datum} {es : List Datum} {p : Except Stop Datum × World} {w' : World} {n m : Nat}

theorem Outcome.exists_bound (h : Outcome d w p) :
    ∃ bound, ∀ limit, bound ≤ limit → evaluate limit d w = p := by
  obtain ⟨hends, bound, rfl⟩ := h
  exact ⟨bound, fun limit hlimit => evaluate_mono hlimit hends⟩

/-- Evaluates arguments, and applies a function to their values. -/
def applied (n m : Nat) (f : Datum) (es : List Datum) : Action Datum :=
  evaluateAll (evaluate n) es >>= f.apply (evaluate m)

theorem applied_mono {n' m' : Nat} (hn : n ≤ n') (hm : m ≤ m')
    (hends : (applied n m f es w).1 ≠ .error .runaway) :
    applied n' m' f es w = applied n m f es w := by
  rw [applied, applied, Action.bind_apply]
  rcases Action.bind_cases (evaluateAll (evaluate n) es) (f.apply (evaluate m)) w with
    ⟨s, w', hargs, hstop⟩ | ⟨vs, w', hargs, hrun⟩
  · rw [applied, hstop] at hends
    have hends' : (evaluateAll (evaluate n) es w).1 ≠ .error .runaway := by
      rw [hargs]
      exact fun hs => hends (congrArg Except.error (Except.error.inj hs))
    rw [evaluateAll_mono hn hends', hargs, hstop]
  · rw [applied, hrun] at hends
    have hends' : (evaluateAll (evaluate n) es w).1 ≠ .error .runaway := by
      rw [hargs]
      exact nofun
    rw [evaluateAll_mono hn hends', hargs, hrun]
    exact apply_mono hm hends

theorem evaluate_function (hf : f.isOf .function = true) (h : evaluate n d w = (.ok f, w')) :
    evaluate (n + 1) (.list (d :: es)) w = applied n n f es w' := by
  rw [evaluate, evaluateWith, Action.bind_apply, h]
  cases f with
  | closure params variadic body => rfl
  | intrinsic f => rfl
  | _ => cases hf

theorem run_apply (hf : f.isOf .function = true) (ev : Evaluator) (vs : List Datum) :
    Intrinsic.apply.run ev [f, .list vs] = f.apply ev vs := by
  cases f with
  | closure params variadic body => rw [Intrinsic.run, Datum.apply]
  | intrinsic f => rw [Intrinsic.run, Datum.apply]
  | _ => cases hf

theorem evaluate_list (hlist : w.environment.resolve "list" = .ok (.intrinsic (.operator .list)))
    (hn : 0 < n) : evaluate (n + 1) (.list (.name "list" :: es)) w =
      (Datum.list <$> evaluateAll (evaluate n) es) w := by
  obtain ⟨n, rfl⟩ := Nat.exists_eq_add_one.2 hn
  have hrun (vs : List Datum) : Intrinsic.run (evaluate (n + 1)) (.operator .list) vs =
      pure (Datum.list vs) := by
    rw [Intrinsic.run]
    rfl
  rw [evaluate, evaluateWith, Action.bind_apply, SpecialForm.evaluate_name hlist, map_eq_pure_bind]
  simp only [call, hrun]

theorem evaluate_apply (hf : f.isOf .function = true) (h : evaluate (n + 1) d w = (.ok f, w'))
    (happly : w.environment.resolve "apply" = .ok (.intrinsic .apply))
    (hlist : w'.environment.resolve "list" = .ok (.intrinsic (.operator .list))) (hn : 0 < n) :
    evaluate (n + 2) (.list [.name "apply", d, .list (.name "list" :: es)]) w =
      applied n (n + 1) f es w' := by
  rw [evaluate, evaluateWith, Action.bind_apply, SpecialForm.evaluate_name happly]
  simp only [call, evaluateAll, bind_assoc, pure_bind]
  rw [Action.bind_apply, h]
  dsimp only
  rw [Action.bind_apply, evaluate_list hlist hn, ← Action.bind_apply, map_eq_pure_bind, bind_assoc]
  simp only [pure_bind, run_apply hf]
  rfl

/-- Applying a function to the list of its arguments ends as the call does. -/
theorem outcome_apply (hd : Outcome d w (.ok f, w')) (hf : f.isOf .function = true)
    (happly : w.environment.resolve "apply" = .ok (.intrinsic .apply))
    (hlist : w'.environment.resolve "list" = .ok (.intrinsic (.operator .list)))
    (p : Except Stop Datum × World) :
    Outcome (.list [.name "apply", d, .list (.name "list" :: es)]) w p ↔
      Outcome (.list (d :: es)) w p := by
  obtain ⟨bound, hbound⟩ := hd.exists_bound
  -- With the same number of levels in all the arguments of `apply` are given one level less.
  constructor
  · intro h
    obtain ⟨bound', hbound'⟩ := h.exists_bound
    let n := max bound bound'
    have happlied : applied (n + 1) (n + 2) f es w' = p := by
      rw [← evaluate_apply hf (hbound (n + 2) (by omega)) happly hlist (Nat.succ_pos n)]
      exact hbound' (n + 3) (by omega)
    refine ⟨h.1, n + 3, ?_⟩
    rw [evaluate_function hf (hbound (n + 2) (by omega))]
    exact (applied_mono (Nat.le_succ _) (Nat.le_refl _) (happlied ▸ h.1)).trans happlied
  · intro h
    obtain ⟨bound', hbound'⟩ := h.exists_bound
    let n := max bound bound'
    have happlied : applied (n + 1) (n + 1) f es w' = p := by
      rw [← evaluate_function hf (hbound (n + 1) (by omega))]
      exact hbound' (n + 2) (by omega)
    refine ⟨h.1, n + 3, ?_⟩
    rw [evaluate_apply hf (hbound (n + 2) (by omega)) happly hlist (Nat.succ_pos n)]
    exact (applied_mono (Nat.le_refl _) (Nat.le_succ _) (happlied ▸ h.1)).trans happlied

/-- A closure is applied to as many arguments as suit it; with others it fails before its body is
evaluated. The body is evaluated once, in one more scope, in which each parameter has the value for its
last place and any other name the one that it has for the caller. The scopes of the caller are what is
left of the scopes. A function does the same to its arguments in a call and when `apply` hands it the
list of them. -/
theorem application_laws (params : List String) (variadic : Bool) (body : Datum) (args : List Datum)
    (w : World) (hvariadic : variadic = true → params ≠ []) :
    (¬ Suits params variadic args.length → ∀ ev, applyClosure ev params variadic body args w =
      (.error (.error (arityError params variadic args.length)), w)) ∧
    (Suits params variadic args.length → ∃ scope, BindsByPosition params variadic args scope ∧
      (∀ x ∉ params, (w.under [scope]).environment.get? x = w.environment.get? x) ∧
      ∀ limit, applyClosure (evaluate limit) params variadic body args w =
        ((evaluate limit body (w.under [scope])).1,
          (evaluate limit body (w.under [scope])).2.withScopesOf w)) ∧
    ∀ (d f : Datum) (es : List Datum) (w w' : World), Outcome d w (.ok f, w') →
      f.isOf .function = true → w.environment.resolve "apply" = .ok (.intrinsic .apply) →
      w'.environment.resolve "list" = .ok (.intrinsic (.operator .list)) → ∀ p,
        (Outcome (.list [.name "apply", d, .list (.name "list" :: es)]) w p ↔
          Outcome (.list (d :: es)) w p) := by
  refine ⟨applyClosure_error hvariadic, fun h => ?_, ?_⟩
  · obtain ⟨scope, hscope, hrun⟩ := applyClosure_ok hvariadic h body w
    exact ⟨scope, hscope, fun x hx => get?_under (hscope.other x hx) w.environment, hrun⟩
  · intro d f es w w' hd hf happly hlist p
    exact outcome_apply hd hf happly hlist p

/-- A parameter that occurs again as the one for the arguments that are left. -/
theorem application_laws_repeated :
    let params := ["x", "y", "x"]
    let f : Datum := .closure params true (.name "x")
    let w : World := ⟨Environment.empty.update [("apply", .intrinsic .apply),
      ("list", .intrinsic (.operator .list)), ("f", f), ("y", .string "d")], default⟩
    let args : List Datum := [.string "a", .string "b", .string "c"]
    (∀ ev, applyClosure ev params true (.name "x") [.string "a"] w =
      (.error (.error (.arity .atLeast 2 1)), w)) ∧
    (∃ scope : Scope, scope.find? "x" = some (.list [.string "c"]) ∧
      scope.find? "y" = some (.string "b") ∧
      (w.under [scope]).environment.get? "f" = some f ∧
      ∀ limit, (applyClosure (evaluate limit) params true (.name "x") args w).1 =
        (evaluate limit (.name "x") (w.under [scope])).1) ∧
    Outcome (.list [.name "apply", .name "f", .list (.name "list" :: args)]) w
      (.ok (.list [.string "c"]), w) := by
  intro params f w args
  have hvariadic : true = true → params ≠ [] := nofun
  obtain ⟨hcount, -, -⟩ := application_laws params true (.name "x") [.string "a"] w hvariadic
  obtain ⟨-, hbody, hcall⟩ := application_laws params true (.name "x") args w hvariadic
  refine ⟨hcount (by decide), ?_, ?_⟩
  · obtain ⟨scope, hscope, hothers, hrun⟩ := hbody (by decide)
    obtain ⟨x, hx, hscopex⟩ := hscope.last 2 (by decide) (by decide)
    obtain ⟨y, hy, hscopey⟩ := hscope.last 1 (by decide) (by decide)
    cases hx
    cases hy
    exact ⟨scope, hscopex, hscopey, hothers "f" (by decide), fun limit => by rw [hrun]⟩
  · have hf : Outcome (.name "f") w (.ok f, w) := ⟨nofun, 1, rfl⟩
    have hdirect : Outcome (.list (.name "f" :: args)) w (.ok (.list [.string "c"]), w) :=
      ⟨nofun, 2, rfl⟩
    exact (hcall (.name "f") f args w w hf rfl rfl rfl _).2 hdirect

end DynamicLisp
