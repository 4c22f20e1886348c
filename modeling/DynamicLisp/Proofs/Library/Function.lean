import DynamicLisp.Proofs.Datum.SelfRepresenting
import DynamicLisp.Proofs.Evaluation.ReservedWords

/-! The functions of the library as closures, and the environments in which their names stand for
them. Reading and evaluating the library leads to such an environment (`inForce_loaded`). -/
namespace DynamicLisp.Library

/-- A form with an identifier as its head. -/
def form (head : String) (exprs : List Datum) : Datum := .list (.name head :: exprs)

inductive Function
  | isNull | map | filter | foldl | reverse | range
deriving DecidableEq

namespace Function

def name : Function → String
  | isNull => "null?"
  | map => "map"
  | filter => "filter"
  | foldl => "foldl"
  | reverse => "reverse"
  | range => "range"

def params : Function → List String
  | isNull | reverse => ["lib/xs"]
  | map => ["lib/f", "lib/xs"]
  | filter => ["lib/keep?", "lib/xs"]
  | foldl => ["lib/f", "lib/acc", "lib/xs"]
  | range => ["lib/from", "lib/to"]

/-- The test whether there are items left. -/
def isDone : Datum := form "null?" [.name "lib/xs"]

def first : Datum := form "car" [.name "lib/xs"]

def others : Datum := form "cdr" [.name "lib/xs"]

/-- What `reverse` folds with. -/
def consOnto : Datum :=
  form "lambda" [.list [.name "lib/acc", .name "lib/x"],
    form "cons" [.name "lib/x", .name "lib/acc"]]

/-- The value of `consOnto`. -/
def consing : Datum :=
  .closure ["lib/acc", "lib/x"] false (form "cons" [.name "lib/x", .name "lib/acc"])

def body : Function → Datum
  | isNull => form "eq?" [.name "lib/xs", .name "empty"]
  | map => form "if" [isDone, .name "empty",
      form "cons" [form "lib/f" [first], form "map" [.name "lib/f", others]]]
  | filter => form "cond" [
      .list [isDone, .name "empty"],
      .list [form "lib/keep?" [first],
        form "cons" [first, form "filter" [.name "lib/keep?", others]]],
      .list [.name "else", form "filter" [.name "lib/keep?", others]]]
  | foldl => form "if" [isDone, .name "lib/acc",
      form "foldl" [.name "lib/f", form "lib/f" [.name "lib/acc", first], others]]
  | reverse => form "foldl" [consOnto, .name "empty", .name "lib/xs"]
  | range => form "if" [form ">=" [.name "lib/from", .name "lib/to"], .name "empty",
      form "cons" [.name "lib/from",
        form "range" [form "+" [.name "lib/from", .number 1.0], .name "lib/to"]]]

def value (f : Function) : Datum := .closure f.params false f.body

def definition (f : Function) : Datum :=
  form "define" [.list (.name f.name :: f.params.map .name), f.body]

/-- In the order of their definitions. -/
def all : List Function := [isNull, map, filter, foldl, reverse, range]

end Function

theorem read_congr {text text' : String} (h : Cursor.ofText text = Cursor.ofText text') :
    read text = read text' := by
  have hscript : Script.ofText text = Script.ofText text' :=
    congrArg (fun c => (Script.ofCursor c).1) h
  exact congrArg Script.whole hscript

set_option maxRecDepth 2000 in
/-- The library has the tokens of the definitions of its functions. -/
theorem ofText_source : Cursor.ofText source =
    Cursor.ofText (" ".intercalate ((Function.all.map Function.definition).map Datum.source)) := by
  rw [Cursor.ofText, Cursor.ofText, source, String.toList_intercalate, String.toList_intercalate]
  simp only [List.map_cons, List.map_nil]
  -- The characters of a literal are found one by one from its start: the texts are too long for that.
  rw [show isNull = String.ofList _ from rfl, String.toList_ofList,
    show map = String.ofList _ from rfl, String.toList_ofList,
    show filter = String.ofList _ from rfl, String.toList_ofList,
    show foldl = String.ofList _ from rfl, String.toList_ofList,
    show reverse = String.ofList _ from rfl, String.toList_ofList,
    show range = String.ofList _ from rfl, String.toList_ofList]
  simp only [Function.all, Function.definition, Function.name, Function.params, Function.body,
    Function.isDone, Function.first, Function.others, Function.consOnto, form, Datum.name,
    List.map_cons, List.map_nil, Datum.source, Datum.sources, inParens, Symbol.text, if_false,
    Bool.false_eq_true, String.toList_append, String.toList_intercalate]
  decide +kernel

/-- The library consists of the definitions of its functions. -/
theorem read_source : read source = .ok (Function.all.map Function.definition) := by
  have hsteady : ∀ d ∈ Function.all.map Function.definition, d.Steady :=
    Datum.steady_of_areSteady _ (by decide +kernel)
  rw [read_congr ofText_source, read_of_steady hsteady]

/-- A name that definitions use. -/
inductive Word
  | form (f : SpecialForm)
  | operator (o : Operator)
  | empty
  | function (f : Function)
deriving DecidableEq

namespace Word

def name : Word → String
  | form f => f.name
  | operator o => o.name
  | empty => "empty"
  | function f => f.name

/-- What the library means by a name. -/
def value : Word → Datum
  | form f => .special f
  | operator o => .intrinsic (.operator o)
  | empty => .empty
  | function f => f.value

end Word

/-- The names that the definitions of the functions on lists use. -/
def vocabulary : List Word :=
  [.form .conditional, .form .branches, .form .lambda, .operator .equal, .empty, .operator .cons,
    .operator .car, .operator .cdr] ++
  [Function.isNull, .map, .filter, .foldl].map .function

/-- The names that the library uses stand for what the library means by them. -/
def InForce (e : Environment) : Prop := ∀ v ∈ vocabulary, e.resolve v.name = .ok v.value

variable {w : World} {limit : Nat}

/-- The environment with the functions defined one after the other. -/
def install (fs : List Function) (e : Environment) : Environment :=
  fs.foldl (fun e f => e.define f.name f.value) e

theorem resolve_define {e : Environment} {x y : String} (d : Datum) (hy : superName? y = none)
    (hne : x ≠ y) : (e.define x d).resolve y = e.resolve y := by
  rw [Environment.resolve, Environment.resolve, hy]
  dsimp only
  rw [Environment.get?_define, if_neg hne]

theorem runDefine_function (ev : Evaluator) (target : Datum) (params : List Datum) (body : Datum) :
    SpecialForm.runDefine ev [.list (target :: params), body] =
      ev (form "define" [target, form "lambda" [.list params, body]]) := rfl

/-- A definition of the library binds the name of the function to it. -/
theorem evaluate_definition (f : Function)
    (hdefine : w.environment.resolve "define" = .ok (.special .define))
    (hlambda : w.environment.resolve "lambda" = .ok (.special .lambda)) :
    evaluate (limit + 4) f.definition w =
      (.ok .empty, { w with environment := w.environment.define f.name f.value }) := by
  have hcall (k : Nat) (es : List Datum) : evaluate (k + 2) (form "define" es) w =
      SpecialForm.runDefine (evaluate (k + 1)) es w :=
    SpecialForm.evaluate_call (f := .define) hdefine
  have hname : f.name ∉ SpecialForm.reservedWords := by cases f <;> decide
  have hparams : SpecialForm.parameters (f.params.map .name) = .ok (f.params, false) := by
    cases f <;> rfl
  have hvalue : evaluate (limit + 2) (form "lambda" [.list (f.params.map .name), f.body]) w =
      (.ok f.value, w) := by
    refine (SpecialForm.evaluate_call (f := .lambda) hlambda).trans ?_
    rw [SpecialForm.run, SpecialForm.closureOf, hparams]
    rfl
  rw [Function.definition, hcall (limit + 2), runDefine_function, hcall (limit + 1), Datum.name,
    SpecialForm.runDefine_symbol _ hname, Action.bind_apply, hvalue]
  rfl

theorem evalExprs_definitions (fs : List Function) (result : Datum)
    (hdefine : w.environment.resolve "define" = .ok (.special .define))
    (hlambda : w.environment.resolve "lambda" = .ok (.special .lambda)) :
    (Session.evalExprs (limit + 4) result (fs.map Function.definition) w).2 =
      { w with environment := install fs w.environment } := by
  induction fs generalizing w result with
  | nil => rfl
  | cons f fs ih =>
    have hname : f.name ≠ "define" ∧ f.name ≠ "lambda" := by cases f <;> decide
    rw [List.map_cons, Session.evalExprs, Action.bind_apply, evaluate_definition f hdefine hlambda]
    dsimp only
    rw [ih]
    · rfl
    · exact (resolve_define _ (by decide) hname.1).trans hdefine
    · exact (resolve_define _ (by decide) hname.2).trans hlambda

/-- The environment of a session that has loaded the library. -/
def loaded : Environment := install Function.all standardEnvironment

theorem inForce_loaded : InForce loaded := by
  simp only [InForce, vocabulary, List.map_cons, List.map_nil, List.cons_append, List.nil_append,
    List.forall_mem_cons]
  exact ⟨rfl, rfl, rfl, rfl, rfl, rfl, rfl, rfl, rfl, rfl, rfl, rfl, List.forall_mem_nil _⟩

/-- Evaluating the library puts its functions in force. -/
theorem evalText_source (limit : Nat) (host : Host) :
    (Session.evalText (limit + 4) source ⟨standardEnvironment, host⟩).2 = ⟨loaded, host⟩ := by
  rw [Session.evalText_snd, ← Session.evalExprs_snd .empty, ofText_of_read read_source]
  exact evalExprs_definitions Function.all .empty rfl rfl

end DynamicLisp.Library
