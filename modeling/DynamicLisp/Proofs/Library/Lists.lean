import DynamicLisp.Proofs.Library.Function
import DynamicLisp.Proofs.Library.Scopes

/-! The library's functions on lists are the functions on lists that they are named for, with effects
and failures in the order of the items (`list_functions`). -/
namespace DynamicLisp

theorem filterM_cons {m : Type → Type} [Monad m] [LawfulMonad m] {α : Type} (p : α → m Bool) (x : α)
    (xs : List α) : (x :: xs).filterM p = do
      let keep ← p x
      let rest ← xs.filterM p
      return if keep then x :: rest else rest := by
  have haux (xs acc : List α) : xs.filterAuxM p acc = (· ++ acc) <$> xs.filterAuxM p [] := by
    induction xs generalizing acc with
    | nil => simp [List.filterAuxM]
    | cons x xs ih =>
      simp only [List.filterAuxM, map_bind]
      refine bind_congr fun b => ?_
      cases b with
      | false => exact ih acc
      | true => simp [ih (x :: acc), ih [x]]
  simp only [List.filterM, List.filterAuxM, bind_assoc]
  refine bind_congr fun b => ?_
  cases b with
  | false => simp
  | true => simp [haux xs [x]]

namespace Library

/-! ### One item after the other -/

/-- Puts an item in front of a list. -/
def cons (d ds : Datum) : Action Datum := Action.ofExcept (Operator.cons.run [d, ds])

theorem list_mapM_cons (g : Datum → Action Datum) (x : Datum) (xs : List Datum) :
    Datum.list <$> (x :: xs).mapM g = (do
      let y ← g x
      let ys ← Datum.list <$> xs.mapM g
      cons y ys) := by
  simp only [List.mapM_cons, map_eq_pure_bind, bind_assoc, pure_bind]
  rfl

theorem list_filterM_cons (p : Datum → Action Bool) (x : Datum) (xs : List Datum) :
    Datum.list <$> (x :: xs).filterM p = (do
      let keep ← p x
      if keep then do
        let ys ← Datum.list <$> xs.filterM p
        cons x ys
      else Datum.list <$> xs.filterM p) := by
  rw [filterM_cons, map_bind]
  refine bind_congr fun keep => ?_
  cases keep with
  | false => simp
  | true =>
    simp only [map_eq_pure_bind, bind_assoc, pure_bind]
    rfl

theorem foldlM_cons (xs ys : List Datum) :
    xs.foldlM (fun acc x => cons x acc) (.list ys) = pure (.list (xs.reverse ++ ys)) := by
  induction xs generalizing ys with
  | nil => rfl
  | cons x xs ih =>
    rw [List.reverse_cons, List.append_assoc, List.singleton_append, ← ih]
    rfl

/-! ### Forms in additional scopes -/

variable {I : Environment → Prop} {extra : List Scope} {k n : Nat}

section

variable {α : Type} {ev : Evaluator} {head x : String} {e f d : Datum} {es : List Datum}
  {g : List Datum → Action α}

theorem lifts_name (h : Finds I extra x d) (hk : 0 < k) :
    Lifts I extra (evaluate k (.name x)) (pure d) := by
  obtain ⟨k, rfl⟩ := Nat.exists_eq_add_one.2 hk
  exact .of_pure fun u hu => SpecialForm.evaluate_name (h _ hu)

/-- An argument that is only looked up. -/
theorem lifts_argument {y : Action α} (he : Lifts I extra (ev e) (pure d))
    (h : Lifts I extra (evaluateAll ev es >>= fun ds => g (d :: ds)) y) :
    Lifts I extra (evaluateAll ev (e :: es) >>= g) y := by
  rw [evaluateAll, bind_assoc]
  refine he.after ?_
  simpa only [bind_assoc, pure_bind] using h

/-- An argument that is computed. -/
theorem lifts_argument_bind {y : Action Datum} {z : Datum → Action α} (he : Lifts I extra (ev e) y)
    (h : ∀ d, Lifts I extra (evaluateAll ev es >>= fun ds => g (d :: ds)) (z d)) :
    Lifts I extra (evaluateAll ev (e :: es) >>= g) (y >>= z) := by
  rw [evaluateAll, bind_assoc]
  refine he.bind fun d => ?_
  simpa only [bind_assoc, pure_bind] using h d

theorem lifts_arguments {y : Action α} (h : Lifts I extra (g []) y) :
    Lifts I extra (evaluateAll ev [] >>= g) y := by
  rwa [evaluateAll, pure_bind]

variable {y : Action Datum}

/-- A call of a function evaluates the arguments and applies the function to them. -/
theorem lifts_call (hhead : Finds I extra head f) (hf : f.isOf .function = true) (hk : 0 < k)
    (h : Lifts I extra (evaluateAll (evaluate k) es >>= f.apply (evaluate k)) y) :
    Lifts I extra (evaluate (k + 1) (form head es)) y := by
  rw [evaluate, form, evaluateWith]
  refine (lifts_name hhead hk).after ?_
  cases f with
  | closure params variadic body => exact h
  | intrinsic f => exact h
  | _ => cases hf

theorem lifts_operator (o : Operator) (args : List Datum) :
    Lifts I extra ((Datum.intrinsic (.operator o)).apply ev args) (Action.ofExcept (o.run args)) := by
  rw [Datum.apply, Intrinsic.run]
  exact .ofExcept _

/-- An operator on two arguments that are found without an effect. -/
theorem lifts_binary {o : Operator} {e' d' result : Datum}
    (hhead : Finds I extra o.name (.intrinsic (.operator o))) (hk : 0 < k)
    (he : Lifts I extra (evaluate k e) (pure d)) (he' : Lifts I extra (evaluate k e') (pure d'))
    (hresult : o.run [d, d'] = .ok result) :
    Lifts I extra (evaluate (k + 1) (form o.name [e, e'])) (pure result) := by
  have hrun : Lifts I extra ((Datum.intrinsic (.operator o)).apply (evaluate k) [d, d'])
    (Action.ofExcept (o.run [d, d'])) := lifts_operator o _
  rw [hresult] at hrun
  exact lifts_call hhead rfl hk (lifts_argument he (lifts_argument he' (lifts_arguments hrun)))

theorem lifts_special {f : SpecialForm} (hhead : Finds I extra f.name (.special f)) (hk : 0 < k)
    (h : Lifts I extra (f.run (evaluate k) es) y) :
    Lifts I extra (evaluate (k + 1) (form f.name es)) y := by
  rw [evaluate, form, evaluateWith]
  exact (lifts_name hhead hk).after h

theorem lifts_conditional {test yes no : Datum} {b : Bool}
    (hhead : Finds I extra "if" (.special .conditional)) (hk : 0 < k)
    (htest : Lifts I extra (evaluate k test) (pure (.bool b)))
    (h : Lifts I extra (evaluate k (if b then yes else no)) y) :
    Lifts I extra (evaluate (k + 1) (form "if" [test, yes, no])) y :=
  lifts_special (f := .conditional) hhead hk (htest.after h)

theorem lifts_clause {test value : Datum} {clauses : List Datum} {y : Action (Option Datum)} {b : Bool}
    (htest : Lifts I extra (ev test) (pure (.bool b)))
    (h : Lifts I extra (if b then pure (some value) else SpecialForm.chooseClause ev clauses) y) :
    Lifts I extra (SpecialForm.chooseClause ev (.list [test, value] :: clauses)) y := by
  cases b with
  | false => exact htest.after h
  | true => exact htest.after h

/-- A clause whose test is computed, before a clause that is chosen otherwise. -/
theorem lifts_clause_bind {test value other : Datum} {clauses : List Datum}
    (htest : Lifts I extra (ev test) y)
    (h : Lifts I extra (SpecialForm.chooseClause ev clauses) (pure (some other))) :
    Lifts I extra (SpecialForm.chooseClause ev (.list [test, value] :: clauses))
      ((fun b => some (if b then value else other)) <$> (do Arguments.bool (← y))) := by
  rw [map_bind]
  refine htest.bind fun d => ?_
  cases d with
  | bool b =>
    cases b with
    | false => exact h
    | true => exact .ofExcept (.ok (some value))
  | _ => exact .ofExcept (.error _)

theorem lifts_branches {β : Type} {φ : β → Datum} {y : Action β} {z : β → Action Datum}
    (hhead : Finds I extra "cond" (.special .branches)) (hk : 0 < k)
    (hchoice : Lifts I (elseScope :: extra) (SpecialForm.chooseClause (evaluate k) es)
      ((fun b => some (φ b)) <$> y)) (hvalue : ∀ b, Lifts I extra (evaluate k (φ b)) (z b)) :
    Lifts I extra (evaluate (k + 1) (form "cond" es)) (y >>= z) :=
  lifts_special (f := .branches) hhead hk
    (.bind_map (.inScope (·.set "else" (.bool true)) hchoice) hvalue)

end

/-! ### The functions -/

/-- In auxiliary scopes, and with enough levels, a function applied to arguments does `y`. -/
def Does (I : Environment → Prop) (n : Nat) (f : Datum) (args : List Datum) (y : Action Datum) : Prop :=
  ∀ k, n ≤ k → ∀ extra, Auxiliary extra → Lifts I extra (f.apply (evaluate k) args) y

theorem Does.of_detached {f : Datum} {args : List Datum} (h : Detached I (f.apply (evaluate n) args)) :
    Does I n f args (f.apply (evaluate n) args) := by
  intro k hk extra hextra u hu hends
  obtain ⟨hv, hrun⟩ := h extra hextra u hu hends
  refine ⟨hv, ?_⟩
  rw [← hrun]
  apply apply_mono hk
  rwa [hrun]

theorem Function.ownName_params (F : Function) : ∀ x ∈ F.params, OwnName x := by
  cases F <;> decide

/-- Words that are not among the library's own names keep their meaning in auxiliary scopes. -/
theorem finds_shared {words : List Word}
    (hshared : ∀ v ∈ words, superName? v.name = none ∧ ¬ OwnName v.name)
    (hI : ∀ e, I e → ∀ v ∈ words, e.resolve v.name = .ok v.value) (hextra : Auxiliary extra)
    (v : Word) (hv : v ∈ words) : Finds I extra v.name v.value := by
  intro e he
  obtain ⟨hsuper, hown⟩ := hshared v hv
  rw [hextra.resolve hsuper hown]
  exact hI e he v hv

theorem vocabulary_shared : ∀ v ∈ vocabulary, superName? v.name = none ∧ ¬ OwnName v.name := by
  decide +kernel

section

variable (hI : ∀ e, I e → InForce e)
include hI

/-- The words that the library uses keep their meaning in auxiliary scopes. -/
theorem finds_word (hextra : Auxiliary extra) (v : Word) (hv : v ∈ vocabulary) :
    Finds I extra v.name v.value := finds_shared vocabulary_shared hI hextra v hv

theorem does_isNull (xs : List Datum) :
    Does I 2 Function.isNull.value [.list xs] (pure (.bool xs.isEmpty)) := by
  intro k hk extra hextra
  obtain ⟨k, rfl⟩ : ∃ j, k = j + 2 := ⟨k - 2, by omega⟩
  have hin := hextra.frame [.list xs] Function.isNull.ownName_params
  have hequal : Operator.equal.run [.list xs, .list []] = .ok (.bool xs.isEmpty) := by
    cases xs <;> rfl
  have hempty := finds_word hI hin .empty (by decide)
  refine .applyClosure rfl ?_
  exact lifts_binary (o := .equal) (finds_word hI hin (.operator .equal) (by decide)) (by omega)
    (lifts_name (.here rfl rfl) (by omega)) (lifts_name hempty (by omega)) hequal

section

variable {xs : List Datum} {x yes no : Datum} {y : Action Datum}

theorem lifts_isDone (hextra : Auxiliary extra) (hxs : Finds I extra "lib/xs" (.list xs))
    (hk : 4 ≤ k) : Lifts I extra (evaluate k Function.isDone) (pure (.bool xs.isEmpty)) := by
  obtain ⟨k, rfl⟩ : ∃ j, k = j + 1 := ⟨k - 1, by omega⟩
  refine lifts_call (finds_word hI hextra (.function .isNull) (by decide)) rfl (by omega) ?_
  refine lifts_argument (lifts_name hxs (by omega)) (lifts_arguments ?_)
  exact does_isNull hI xs k (by omega) extra hextra

theorem lifts_first (hextra : Auxiliary extra) (hxs : Finds I extra "lib/xs" (.list (x :: xs)))
    (hk : 2 ≤ k) : Lifts I extra (evaluate k Function.first) (pure x) := by
  obtain ⟨k, rfl⟩ : ∃ j, k = j + 1 := ⟨k - 1, by omega⟩
  refine lifts_call (finds_word hI hextra (.operator .car) (by decide)) rfl (by omega) ?_
  exact lifts_argument (lifts_name hxs (by omega)) (lifts_arguments (lifts_operator .car _))

theorem lifts_others (hextra : Auxiliary extra) (hxs : Finds I extra "lib/xs" (.list (x :: xs)))
    (hk : 2 ≤ k) : Lifts I extra (evaluate k Function.others) (pure (.list xs)) := by
  obtain ⟨k, rfl⟩ : ∃ j, k = j + 1 := ⟨k - 1, by omega⟩
  refine lifts_call (finds_word hI hextra (.operator .cdr) (by decide)) rfl (by omega) ?_
  exact lifts_argument (lifts_name hxs (by omega)) (lifts_arguments (lifts_operator .cdr _))

/-- A body that ends with the list. -/
theorem lifts_ifDone (hextra : Auxiliary extra) (hxs : Finds I extra "lib/xs" (.list xs))
    (hk : 4 ≤ k) (h : Lifts I extra (evaluate k (if xs.isEmpty then yes else no)) y) :
    Lifts I extra (evaluate (k + 1) (form "if" [Function.isDone, yes, no])) y :=
  lifts_conditional (finds_word hI hextra (.form .conditional) (by decide)) (by omega)
    (lifts_isDone hI hextra hxs hk) h

variable {f : Datum} {p : String}

/-- The function is applied to the first item. -/
theorem lifts_onFirst (hextra : Auxiliary extra) (hxs : Finds I extra "lib/xs" (.list (x :: xs)))
    (hp : Finds I extra p f) (hf : f.isOf .function = true) (hy : Does I n f [x] y)
    (hk : max n 2 < k) : Lifts I extra (evaluate k (form p [Function.first])) y := by
  obtain ⟨k, rfl⟩ : ∃ j, k = j + 1 := ⟨k - 1, by omega⟩
  refine lifts_call hp hf (by omega) ?_
  refine lifts_argument (lifts_first hI hextra hxs (by omega)) (lifts_arguments ?_)
  exact hy k (by omega) extra hextra

/-- A function of the library goes on with the other items. -/
theorem lifts_onOthers (hextra : Auxiliary extra) (hxs : Finds I extra "lib/xs" (.list (x :: xs)))
    (hp : Finds I extra p f) {F : Function} (hF : .function F ∈ vocabulary)
    (hy : Does I n F.value [f, .list xs] y) (hk : max n 2 < k) :
    Lifts I extra (evaluate k (form F.name [.name p, Function.others])) y := by
  obtain ⟨k, rfl⟩ : ∃ j, k = j + 1 := ⟨k - 1, by omega⟩
  refine lifts_call (finds_word hI hextra (.function F) hF) rfl (by omega) ?_
  refine lifts_argument (lifts_name hp (by omega)) ?_
  refine lifts_argument (lifts_others hI hextra hxs (by omega)) (lifts_arguments ?_)
  exact hy k (by omega) extra hextra

end

variable {f : Datum}

theorem does_map (hf : f.isOf .function = true) {g : Datum → Action Datum}
    (hg : ∀ x, Does I n f [x] (g x)) (xs : List Datum) :
    Does I (n + 3 * xs.length + 5) Function.map.value [f, .list xs] (.list <$> xs.mapM g) := by
  -- Every item takes three levels: those of the `if`, of the `cons` and of the next call.
  induction xs with
  | nil =>
    intro k hk extra hextra
    obtain ⟨k, rfl⟩ : ∃ j, k = j + 1 := ⟨k - 1, by omega⟩
    have hin := hextra.frame [f, .list []] Function.map.ownName_params
    refine .applyClosure rfl (lifts_ifDone hI hin (.here rfl rfl) (by omega) ?_)
    exact lifts_name (finds_word hI hin .empty (by decide)) (by omega)
  | cons x xs ih =>
    intro k hk extra hextra
    obtain ⟨k, rfl⟩ : ∃ j, k = j + 2 := ⟨k - 2, by omega⟩
    rw [List.length_cons] at hk
    have hin := hextra.frame [f, .list (x :: xs)] Function.map.ownName_params
    have hxs : Finds I (frame Function.map.params [f, .list (x :: xs)] :: extra) "lib/xs"
      (.list (x :: xs)) := .here rfl rfl
    have hname : Finds I (frame Function.map.params [f, .list (x :: xs)] :: extra) "lib/f" f :=
      .here rfl rfl
    have hfirst := lifts_onFirst hI (k := k) hin hxs hname hf (hg x) (by omega)
    have hothers := lifts_onOthers hI (k := k) hin hxs hname (by decide) ih (by omega)
    rw [list_mapM_cons]
    refine .applyClosure rfl (lifts_ifDone hI hin hxs (by omega) ?_)
    refine lifts_call (finds_word hI hin (.operator .cons) (by decide)) rfl (by omega) ?_
    refine lifts_argument_bind hfirst fun y => lifts_argument_bind hothers fun ys => ?_
    exact lifts_arguments (lifts_operator .cons [y, ys])

theorem does_filter (hf : f.isOf .function = true) {g : Datum → Action Datum}
    (hg : ∀ x, Does I n f [x] (g x)) (xs : List Datum) :
    Does I (n + 3 * xs.length + 5) Function.filter.value [f, .list xs]
      (.list <$> xs.filterM fun x => do Arguments.bool (← g x)) := by
  induction xs with
  | nil =>
    intro k hk extra hextra
    obtain ⟨k, rfl⟩ : ∃ j, k = j + 1 := ⟨k - 1, by omega⟩
    have hin := hextra.frame [f, .list []] Function.filter.ownName_params
    have hdone := lifts_isDone hI (k := k) hin.elseScope (.skip (.here rfl rfl) rfl rfl) (by omega)
    refine .applyClosure rfl ?_
    refine lifts_branches (y := pure ()) (φ := fun _ => .name "empty") (z := fun _ => pure .empty)
      (finds_word hI hin (.form .branches) (by decide)) (by omega) ?_ fun _ => ?_
    · exact lifts_clause hdone (.ofExcept (.ok _))
    · exact lifts_name (finds_word hI hin .empty (by decide)) (by omega)
  | cons x xs ih =>
    intro k hk extra hextra
    obtain ⟨k, rfl⟩ : ∃ j, k = j + 2 := ⟨k - 2, by omega⟩
    rw [List.length_cons] at hk
    have hin := hextra.frame [f, .list (x :: xs)] Function.filter.ownName_params
    have hxs : Finds I (frame Function.filter.params [f, .list (x :: xs)] :: extra) "lib/xs"
      (.list (x :: xs)) := .here rfl rfl
    have hname : Finds I (frame Function.filter.params [f, .list (x :: xs)] :: extra) "lib/keep?" f :=
      .here rfl rfl
    have hothers (j : Nat) (hj : n + 3 * xs.length + 5 < j) :=
      lifts_onOthers hI (k := j) hin hxs hname (by decide) ih (by omega)
    -- The tests are evaluated in one more scope, in which `else` is true.
    have hxs' := hxs.skip (s := elseScope) rfl rfl
    have hname' := hname.skip (s := elseScope) rfl rfl
    have hdone := lifts_isDone hI (k := k + 1) hin.elseScope hxs' (by omega)
    have hfirst := lifts_onFirst hI (k := k + 1) hin.elseScope hxs' hname' hf (hg x) (by omega)
    rw [list_filterM_cons]
    refine .applyClosure rfl (lifts_branches (finds_word hI hin (.form .branches) (by decide))
      (by omega) (lifts_clause hdone (lifts_clause_bind hfirst
        (lifts_clause (lifts_name (.here rfl rfl) (by omega)) (.ofExcept (.ok _))))) fun keep => ?_)
    cases keep with
    | false => exact hothers (k + 1) (by omega)
    | true =>
      refine lifts_call (finds_word hI hin (.operator .cons) (by decide)) rfl (by omega) ?_
      refine lifts_argument (lifts_first hI hin hxs (by omega)) ?_
      refine lifts_argument_bind (hothers k (by omega)) fun ys => ?_
      exact lifts_arguments (lifts_operator .cons [x, ys])

theorem does_foldl (hf : f.isOf .function = true) {g : Datum → Datum → Action Datum}
    (hg : ∀ acc x, Does I n f [acc, x] (g acc x)) (xs : List Datum) (acc : Datum) :
    Does I (n + 3 * xs.length + 5) Function.foldl.value [f, acc, .list xs] (xs.foldlM g acc) := by
  induction xs generalizing acc with
  | nil =>
    intro k hk extra hextra
    obtain ⟨k, rfl⟩ : ∃ j, k = j + 1 := ⟨k - 1, by omega⟩
    have hin := hextra.frame [f, acc, .list []] Function.foldl.ownName_params
    refine .applyClosure rfl (lifts_ifDone hI hin (.here rfl rfl) (by omega) ?_)
    exact lifts_name (.here rfl rfl) (by omega)
  | cons x xs ih =>
    intro k hk extra hextra
    obtain ⟨k, rfl⟩ : ∃ j, k = j + 3 := ⟨k - 3, by omega⟩
    rw [List.length_cons] at hk
    have hin := hextra.frame [f, acc, .list (x :: xs)] Function.foldl.ownName_params
    have hxs : Finds I (frame Function.foldl.params [f, acc, .list (x :: xs)] :: extra) "lib/xs"
      (.list (x :: xs)) := .here rfl rfl
    rw [List.foldlM_cons]
    refine .applyClosure rfl (lifts_ifDone hI hin hxs (by omega) ?_)
    refine lifts_call (finds_word hI hin (.function .foldl) (by decide)) rfl (by omega) ?_
    refine lifts_argument (lifts_name (.here rfl rfl) (by omega)) ?_
    refine lifts_argument_bind ?_ fun acc => ?_
    · refine lifts_call (.here rfl rfl) hf (by omega) ?_
      refine lifts_argument (lifts_name (.here rfl rfl) (by omega)) ?_
      refine lifts_argument (lifts_first hI hin hxs (by omega)) (lifts_arguments ?_)
      exact hg acc x k (by omega) _ hin
    · refine lifts_argument (lifts_others hI hin hxs (by omega)) (lifts_arguments ?_)
      exact ih acc (k + 1) (by omega) _ hin

/-- What `reverse` folds with puts an item in front of what has been folded. -/
theorem does_consing (acc x : Datum) : Does I 2 Function.consing [acc, x] (cons x acc) := by
  intro k hk extra hextra
  obtain ⟨k, rfl⟩ : ∃ j, k = j + 1 := ⟨k - 1, by omega⟩
  have hin := hextra.frame [acc, x]
    (show ∀ x ∈ ["lib/acc", "lib/x"], OwnName x by decide)
  refine .applyClosure rfl ?_
  refine lifts_call (finds_word hI hin (.operator .cons) (by decide)) rfl (by omega) ?_
  refine lifts_argument (lifts_name (.here rfl rfl) (by omega)) ?_
  refine lifts_argument (lifts_name (.here rfl rfl) (by omega)) (lifts_arguments ?_)
  exact lifts_operator .cons [x, acc]

theorem does_reverse (xs : List Datum) :
    Does I (3 * xs.length + 8) Function.reverse.value [.list xs] (pure (.list xs.reverse)) := by
  intro k hk extra hextra
  obtain ⟨k, rfl⟩ : ∃ j, k = j + 2 := ⟨k - 2, by omega⟩
  have hin := hextra.frame [.list xs] Function.reverse.ownName_params
  have hlambda : Lifts I (frame Function.reverse.params [.list xs] :: extra)
      (evaluate (k + 1) Function.consOnto) (pure Function.consing) :=
    lifts_special (f := .lambda) (finds_word hI hin (.form .lambda) (by decide)) (by omega)
      (.ofExcept (.ok Function.consing))
  have hfold := does_foldl hI rfl (does_consing hI) xs (.list []) (k + 1) (by omega) _ hin
  rw [foldlM_cons, List.append_nil] at hfold
  refine .applyClosure rfl ?_
  refine lifts_call (finds_word hI hin (.function .foldl) (by decide)) rfl (by omega) ?_
  refine lifts_argument hlambda ?_
  refine lifts_argument (lifts_name (finds_word hI hin .empty (by decide)) (by omega)) ?_
  exact lifts_argument (lifts_name (.here rfl rfl) (by omega)) (lifts_arguments hfold)

end

/-! ### Calls -/

variable {w : World}

/-- The call of a function of the library does `y`, with enough levels and unless `y` runs away, on
expressions that are evaluated to the arguments and leave the world `w`. The property remains. -/
def Performs (I : Environment → Prop) (w : World) (F : Function) (args : List Datum)
    (y : Action Datum) : Prop :=
  (y w).1 ≠ .error .runaway → I (y w).2.environment ∧
    ∀ m es w₀, w₀.environment.resolve F.name = .ok F.value →
      evaluateAll (evaluate m) es w₀ = (.ok args, w) →
        ∃ bound, ∀ limit, bound ≤ limit → evaluate limit (form F.name es) w₀ = y w

/-- A function that does `y` does so when it is called. -/
theorem Does.call {F : Function} {args : List Datum} {y : Action Datum} (h : Does I n F.value args y)
    (hw : I w.environment) (hends : (y w).1 ≠ .error .runaway) {m limit : Nat} {es : List Datum}
    {w₀ : World} (hF : w₀.environment.resolve F.name = .ok F.value)
    (hargs : evaluateAll (evaluate m) es w₀ = (.ok args, w)) (hlimit : n + m + 2 ≤ limit) :
    evaluate limit (form F.name es) w₀ = y w := by
  obtain ⟨k, rfl⟩ : ∃ k, limit = k + 2 := ⟨limit - 2, by omega⟩
  have hmore : evaluateAll (evaluate (k + 1)) es w₀ = (.ok args, w) := by
    rw [← hargs]
    apply evaluateAll_mono (by omega)
    rw [hargs]
    exact nofun
  have hcall : evaluate (k + 2) (form F.name es) w₀ =
      (evaluateAll (evaluate (k + 1)) es >>= F.value.apply (evaluate (k + 1))) w₀ := by
    rw [evaluate, form, evaluateWith, Action.bind_apply, SpecialForm.evaluate_name hF]
    rfl
  rw [hcall, Action.bind_apply, hmore]
  exact (h (k + 1) (by omega) [] auxiliary_nil w hw hends).2

theorem Does.performs {F : Function} {args : List Datum} {y : Action Datum}
    (h : Does I n F.value args y) (hw : I w.environment) : Performs I w F args y := by
  intro hends
  refine ⟨(h n (Nat.le_refl n) [] auxiliary_nil w hw hends).1, fun m es w₀ hF hargs => ?_⟩
  exact ⟨n + m + 2, fun limit hlimit => h.call hw hends hF hargs hlimit⟩

theorem InForce.congr {e e' : Environment} (h : InForce e) (hscopes : e'.scopes = e.scopes) :
    InForce e' := by
  intro v hv
  obtain ⟨hinner, hbase⟩ := Environment.scopes_inj hscopes
  rw [← h v hv]
  cases e
  cases e'
  subst hinner hbase
  rfl

/-- Let the names that the library uses be in force, and let `I` be a property of environments with
the same scopes. If the applications of a function keep `I` and do not depend on scopes that bind only
names of the library's own, then `map`, `filter` and `foldl` apply the function to the items of a list
from left to right, and do what the functions of these names do, up to the first failure. `reverse`
gives the items in the other order. All of them keep `I`. -/
theorem list_functions (hscopes : ∀ e, I e → e.scopes = w.environment.scopes) (hw : I w.environment)
    (hforce : InForce w.environment) :
    (∀ n f, f.isOf .function = true → (∀ args, Detached I (f.apply (evaluate n) args)) → ∀ xs,
      Performs I w .map [f, .list xs] (.list <$> xs.mapM fun x => f.apply (evaluate n) [x]) ∧
      Performs I w .filter [f, .list xs]
        (.list <$> xs.filterM fun x => do Arguments.bool (← f.apply (evaluate n) [x])) ∧
      ∀ acc, Performs I w .foldl [f, acc, .list xs]
        (xs.foldlM (fun acc x => f.apply (evaluate n) [acc, x]) acc)) ∧
    ∀ xs, Performs I w .reverse [.list xs] (pure (.list xs.reverse)) := by
  have hI : ∀ e, I e → InForce e := fun e he => hforce.congr (hscopes e he)
  refine ⟨fun n f hf hdetached xs => ?_, fun xs => (does_reverse hI xs).performs hw⟩
  have happ (args : List Datum) : Does I n f args (f.apply (evaluate n) args) :=
    .of_detached (hdetached args)
  refine ⟨?_, ?_, fun acc => ?_⟩
  · exact (does_map hI hf (fun x => happ [x]) xs).performs hw
  · exact (does_filter hI hf (fun x => happ [x]) xs).performs hw
  · exact (does_foldl hI hf (fun acc x => happ [acc, x]) xs acc).performs hw

/-- After the library has been evaluated, mapping `println` prints the items in their order. -/
theorem list_functions_println :
    let w : World := ⟨loaded, default⟩
    let items : List Datum := [.string "a", .string "b"]
    (Session.evalText 4 source ⟨standardEnvironment, default⟩).2 = w ∧ InForce w.environment ∧
      ∃ bound, ∀ limit, bound ≤ limit →
        evaluate limit (form "map" [.name "println", .quote (.list items)]) w =
          (.ok (.list [.empty, .empty]), { w with host := (w.host.print "a\n").print "b\n" }) := by
  intro w items
  have hprint (args : List Datum) : (Datum.intrinsic .println).apply (evaluate 0) args =
      Intrinsic.runPrint "\n" args := by
    rw [Datum.apply, Intrinsic.run]
  have hdetached (args : List Datum) : Detached (·.scopes = loaded.scopes)
      ((Datum.intrinsic .println).apply (evaluate 0) args) := by
    rw [hprint]
    exact fun _ _ _ hu _ => ⟨hu, rfl⟩
  have hall := list_functions (w := w) (I := (·.scopes = loaded.scopes)) (fun _ he => he) rfl
    inForce_loaded
  obtain ⟨hmap, -⟩ := hall.1 0 (.intrinsic .println) rfl hdetached items
  simp only [hprint] at hmap
  have hcalls := (hmap (by rintro ⟨⟩)).2 3 [.name "println", .quote (.list items)] w rfl rfl
  exact ⟨evalText_source 0 default, inForce_loaded, hcalls⟩

end Library

end DynamicLisp
