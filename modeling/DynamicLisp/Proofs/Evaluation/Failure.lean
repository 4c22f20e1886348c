import DynamicLisp.Evaluation.Struct
import DynamicLisp.Evaluation.Intrinsic

/-! What checks and conversions give where they go through, and how they fail. None of them fails
because a struct type is not registered. -/
namespace DynamicLisp

/-- Any failure but the one that a struct type is not registered. -/
def LispError.Ordinary (e : LispError) : Prop := ∀ type, e ≠ .undefinedStruct type

/-- A result with the one property, or an error with the other. -/
def Gives {ε α : Type} (F : ε → Prop) (Q : α → Prop) : Except ε α → Prop
  | .ok a => Q a
  | .error e => F e

namespace Gives

variable {ε ε' α β : Type} {F : ε → Prop} {F' : ε' → Prop} {Q : α → Prop} {Q' : β → Prop}

theorem mono {r : Except ε α} (hr : Gives F Q r) {P : α → Prop} (h : ∀ a, Q a → P a) :
    Gives F P r := by
  cases r with
  | ok a => exact h a hr
  | error e => exact hr

theorem monoError {F' : ε → Prop} {r : Except ε α} (hr : Gives F Q r) (h : ∀ e, F e → F' e) :
    Gives F' Q r := by
  cases r with
  | ok a => exact hr
  | error e => exact h e hr

theorem bind {r : Except ε α} {f : α → Except ε β} (hr : Gives F Q r)
    (hf : ∀ a, Q a → Gives F Q' (f a)) : Gives F Q' (r >>= f) := by
  cases r with
  | ok a => exact hf a hr
  | error e => exact hr

theorem mapError {r : Except ε α} {f : ε → ε'} (hr : Gives F Q r) (hf : ∀ e, F e → F' (f e)) :
    Gives F' Q (r.mapError f) := by
  cases r with
  | ok a => exact hr
  | error e => exact hf e hr

theorem mapM {f : α → Except ε β} {xs : List α} (h : ∀ a ∈ xs, Gives F Q' (f a)) :
    Gives F (fun bs => ∀ b ∈ bs, Q' b) (xs.mapM f) := by
  induction xs with
  | nil => exact List.forall_mem_nil _
  | cons a as ih =>
    rw [List.mapM_cons]
    refine bind (h a List.mem_cons_self) fun b hb => ?_
    refine bind (ih fun a ha => h a (List.mem_cons_of_mem _ ha)) fun bs hbs => ?_
    exact List.forall_mem_cons.2 ⟨hb, hbs⟩

end Gives

/-- A check that fails in an ordinary way. -/
abbrev Checks {α : Type} (Q : α → Prop) (r : Except LispError α) : Prop :=
  Gives LispError.Ordinary Q r

namespace Checks

variable {V : Datum → Prop} {d : Datum} {args : List Datum}

theorem fail {α : Type} {Q : α → Prop} {e : LispError} (h : e.Ordinary) :
    Checks Q (.error e : Except LispError α) := h

theorem expect (n : Nat) (args : List Datum) : Checks (fun _ => True) (Arguments.expect n args) := by
  unfold Arguments.expect
  split
  · trivial
  · exact fail nofun

theorem one (h : ∀ a ∈ args, V a) : Checks V (Arguments.one args) := by
  unfold Arguments.one
  split
  · exact h _ List.mem_cons_self
  · exact fail nofun

theorem two (h : ∀ a ∈ args, V a) : Checks (fun p => V p.1 ∧ V p.2) (Arguments.two args) := by
  unfold Arguments.two
  split
  · exact ⟨h _ (by simp), h _ (by simp)⟩
  · exact fail nofun

theorem number (d : Datum) : Checks (fun _ => True) (Arguments.number d) := by
  unfold Arguments.number
  split
  · trivial
  · exact fail nofun

theorem string (d : Datum) : Checks (fun _ => True) (Arguments.string d) := by
  unfold Arguments.string
  split
  · trivial
  · exact fail nofun

theorem bool (d : Datum) : Checks (fun _ => True) (Arguments.bool d) := by
  unfold Arguments.bool
  split
  · trivial
  · exact fail nofun

theorem list (d : Datum) : Checks (fun items => d = .list items) (Arguments.list d) := by
  unfold Arguments.list
  split
  · rfl
  · exact fail nofun

theorem expectExact (n : Nat) (exprs : List Datum) :
    Checks (fun _ => True) (SpecialForm.expectExact n exprs) := by
  unfold SpecialForm.expectExact
  split
  · trivial
  · exact fail nofun

theorem readSource {text : List Char} (h : ∀ d ∈ (Script.ofChars text).exprs, V d) :
    Checks (fun ds => ∀ d ∈ ds, V d) (readSource text) := by
  unfold DynamicLisp.readSource readChars Script.whole
  split
  · exact h
  · exact fail nofun

theorem parameters (params : List Datum) :
    Checks (fun p => p.2 = true → p.1 ≠ []) (SpecialForm.parameters params) := by
  fun_induction SpecialForm.parameters params with
  | case1 => exact nofun
  | case2 s => exact fun _ => List.cons_ne_nil _ _
  | case3 s rest hrest jump hs ih => exact fail (e := .variadicBeforeLast) nofun
  | case4 s rest hrest jump hs ih => exact .bind ih fun p _ _ => List.cons_ne_nil _ _
  | case5 => exact fail nofun

theorem structDeclaration (exprs : List Datum) :
    Checks (fun _ => True) (SpecialForm.structDeclaration exprs) := by
  have hfield (d : Datum) : Checks (fun _ => True) (SpecialForm.fieldName d) := by
    unfold SpecialForm.fieldName
    split
    · trivial
    · exact fail nofun
  unfold SpecialForm.structDeclaration
  split
  · exact fail nofun
  · exact .bind (.mapM fun d _ => hfield d) fun _ _ => trivial
  · exact fail nofun
  · exact fail nofun
  · exact fail nofun

/-- The bindings of parameters are to arguments, or to the list of those that are left. -/
theorem bindArguments (hlist : ∀ ds, (∀ d ∈ ds, V d) → V (.list ds)) (h : ∀ a ∈ args, V a)
    (params : List String) (variadic : Bool) :
    Checks (fun bindings => ∀ b ∈ bindings, V b.2) (bindArguments params variadic args) := by
  have hzip (names : List String) : ∀ b ∈ names.zip args, V b.2 := fun b hb =>
    h _ (List.of_mem_zip hb).2
  unfold DynamicLisp.bindArguments
  split
  · dsimp only
    split
    · exact fail nofun
    · intro b hb
      rcases List.mem_append.1 hb with hb | hb
      · exact hzip _ b hb
      · rw [List.mem_singleton.1 hb]
        exact hlist _ fun d hd => h d (List.mem_of_mem_drop hd)
  · split
    · exact hzip params
    · exact fail nofun

theorem fieldOf {values : List Datum} (h : ∀ v ∈ values, V v) (type field : String)
    (fields : List String) : Checks V (SpecialForm.fieldOf type field fields values) := by
  unfold SpecialForm.fieldOf
  split
  · split
    · exact h _ (List.get_mem _ _)
    · exact fail nofun
  · exact fail nofun

theorem numberPair (args : List Datum) : Checks (fun _ => True) (numberPair args) :=
  .bind (two (V := fun _ => True) fun _ _ => trivial) fun (a, b) _ =>
    .bind (number a) fun _ _ => .bind (number b) fun _ _ => trivial

theorem onNumber (f : Float → Float) (args : List Datum) :
    Checks (fun _ => True) (onNumber f args) :=
  .bind (one (V := fun _ => True) fun _ _ => trivial) fun d _ => .bind (number d) fun _ _ => trivial

theorem foldNumbers (f : Float → Float → Float) (start : Float) (args : List Datum) :
    Checks (fun _ => True) (foldNumbers f start args) := by
  unfold DynamicLisp.foldNumbers
  induction args generalizing start with
  | nil => trivial
  | cons d ds ih =>
    rw [List.foldlM_cons]
    have hstep : Checks (fun _ => True) (do return f start (← Arguments.number d)) :=
      .bind (number d) fun _ _ => trivial
    exact .bind hstep fun total _ => ih total

theorem foldFirst (single : Float → Float) (f : Float → Float → Float) (args : List Datum) :
    Checks (fun _ => True) (foldFirst single f args) := by
  unfold DynamicLisp.foldFirst
  split
  · exact fail nofun
  · rename_i d
    rw [map_eq_pure_bind]
    exact .bind (number d) fun _ _ => trivial
  · rename_i d ds _
    exact .bind (number d) fun x _ => foldNumbers f x ds

theorem compareNumbers (c : Comparison) (args : List Datum) :
    Checks (fun _ => True) (compareNumbers c args) := by
  refine .bind (two (V := fun _ => True) fun _ _ => trivial) fun p _ => ?_
  split
  · trivial
  · exact fail (e := .incomparable _ _) nofun

theorem boolPair (args : List Datum) : Checks (fun _ => True) (boolPair args) :=
  .bind (two (V := fun _ => True) fun _ _ => trivial) fun (a, b) _ =>
    .bind (bool a) fun _ _ => .bind (bool b) fun _ _ => trivial

theorem logarithm (args : List Datum) : Checks (fun _ => True) (logarithm args) := by
  unfold DynamicLisp.logarithm
  split
  · exact fail nofun
  · exact .bind (number _) fun _ _ => trivial
  · exact .bind (number _) fun _ _ => .bind (number _) fun _ _ => trivial
  · exact fail nofun

end Checks

/-! ### Operators -/

/-- Any way to stop but that of leaving the base scope and that of a struct type that is not
registered. -/
def Stop.Ordinary (s : Stop) : Prop := s ≠ .noScope ∧ ∀ type, s ≠ .error (.undefinedStruct type)

theorem LispError.Ordinary.stop {e : LispError} (h : e.Ordinary) : (Stop.error e).Ordinary :=
  ⟨nofun, fun type he => h type (by cases he; rfl)⟩

theorem Checks.lift {α : Type} {Q : α → Prop} {r : Except LispError α} (h : Checks Q r) :
    Gives Stop.Ordinary Q (liftM r : Except Stop α) := h.mapError fun _ => LispError.Ordinary.stop

/-- A property of values that lists have if their items do, and that holds of literals and of what
has been read and is not to be evaluated. -/
structure ClosedValues (V : Datum → Prop) : Prop where
  bool (b : Bool) : V (.bool b)
  number (x : Float) : V (.number x)
  string (s : String) : V (.string s)
  list {ds : List Datum} : V (.list ds) ↔ ∀ d ∈ ds, V d
  read {text : List Char} {d : Datum} : d ∈ (Script.ofChars text).exprs → V d.toValue

namespace ClosedValues

variable {V : Datum → Prop} (hV : ClosedValues V) {args : List Datum}
include hV

theorem empty : V .empty := hV.list.2 (List.forall_mem_nil _)

theorem listArgument {d : Datum} (h : V d) :
    Checks (fun items => ∀ v ∈ items, V v) (Arguments.list d) :=
  (Checks.list d).mono fun _ hd => hV.list.1 (hd ▸ h)

theorem listCell {e : LispError} (he : e.Ordinary) (h : ∀ a ∈ args, V a) :
    Checks (fun p => V p.1 ∧ ∀ v ∈ p.2, V v) (listCell e args) := by
  refine .bind (Checks.one h) fun d hd => .bind (hV.listArgument hd) fun items hitems => ?_
  cases items with
  | nil => exact he
  | cons d ds => exact List.forall_mem_cons.1 hitems

theorem element (h : ∀ a ∈ args, V a) : Checks V (element args) := by
  refine .bind (Checks.two h) fun (xs, index) hargs => ?_
  refine .bind (hV.listArgument hargs.1) fun items hitems => ?_
  refine .bind (Checks.number index) fun i _ => ?_
  dsimp only
  split
  · exact hV.empty
  · split
    · exact Checks.fail (e := .indexNotInteger) nofun
    · split
      · exact Checks.fail (e := .indexOutOfRange _ _) nofun
      · split
        · exact hitems _ (List.mem_of_getElem? ‹_›)
        · exact Checks.fail (e := .indexOutOfRange _ _) nofun

theorem appendLists (h : ∀ a ∈ args, V a) :
    Checks (fun items => ∀ v ∈ items, V v) (appendLists args) := by
  refine .bind (.mapM fun a ha => hV.listArgument (h a ha)) fun lists hlists v hv => ?_
  obtain ⟨items, hitems, hmem⟩ := List.mem_flatten.1 hv
  exact hlists items hitems v hmem

theorem parseValue (h : ∀ a ∈ args, V a) : Checks V (parseValue args) := by
  refine .bind (Checks.one h) fun d _ => .bind (Checks.string d) fun text _ => ?_
  have hread : Checks (fun ds => ∀ d ∈ ds, V d.toValue) (DynamicLisp.readSource text.toList) :=
    Checks.readSource fun _ hd => hV.read hd
  refine .bind hread fun ds hds => ?_
  cases ds with
  | nil => exact Checks.fail (e := .malformed .noExpression) nofun
  | cons d ds => exact hds d List.mem_cons_self

omit hV in
theorem fibonacciNumber (args : List Datum) :
    Gives Stop.Ordinary (fun _ => True) (fibonacciNumber args) := by
  have hone : Checks (fun _ => True) (Arguments.one args) := Checks.one fun _ _ => trivial
  refine .bind hone.lift fun d _ => .bind (Checks.number d).lift fun x _ => ?_
  dsimp only
  split
  · split
    · trivial
    · exact ⟨nofun, nofun⟩
  · exact ⟨nofun, nofun⟩

theorem equal (h : ∀ a ∈ args, V a) : Gives Stop.Ordinary V (Operator.equal.run args) := by
  refine .bind (Checks.two h).lift fun (a, b) _ => ?_
  dsimp only
  split
  · exact hV.bool _
  · exact ⟨nofun, nofun⟩

/-- The result of an operator has the property if its arguments have. -/
theorem operator (o : Operator) (h : ∀ a ∈ args, V a) : Gives Stop.Ordinary V (o.run args) := by
  cases o with
  | add | multiply => exact .bind (Checks.foldNumbers _ _ _).lift fun x _ => hV.number x
  | subtract | divide => exact .bind (Checks.foldFirst _ _ _).lift fun x _ => hV.number x
  | modulo | pow => exact .bind (Checks.numberPair _).lift fun _ _ => hV.number _
  | sqrt | trig => exact .bind (Checks.onNumber _ _).lift fun x _ => hV.number x
  | log => exact .bind (Checks.logarithm _).lift fun x _ => hV.number x
  | fibonacci => exact .bind (fibonacciNumber args) fun x _ => hV.number x
  | list => exact hV.list.2 h
  | cons =>
    refine .bind (Checks.two h).lift fun (d, xs) hargs => ?_
    refine .bind (hV.listArgument hargs.2).lift fun items hitems => ?_
    exact hV.list.2 (List.forall_mem_cons.2 ⟨hargs.1, hitems⟩)
  | car =>
    have hcell := hV.listCell (e := .carOfEmpty) nofun h
    exact .bind hcell.lift fun _ hparts => hparts.1
  | cdr =>
    have hcell := hV.listCell (e := .cdrOfEmpty) nofun h
    exact .bind hcell.lift fun _ hparts => hV.list.2 hparts.2
  | len =>
    exact .bind (Checks.one h).lift fun d _ => .bind (Checks.list d).lift fun _ _ => hV.number _
  | nth => exact (hV.element h).lift
  | append => exact .bind (hV.appendLists h).lift fun _ hitems => hV.list.2 hitems
  | compare => exact .bind (Checks.compareNumbers _ _).lift fun b _ => hV.bool b
  | equal => exact hV.equal h
  | and | or => exact .bind (Checks.boolPair _).lift fun _ _ => hV.bool _
  | not =>
    exact .bind (Checks.one h).lift fun d _ => .bind (Checks.bool d).lift fun _ _ => hV.bool _
  | begin =>
    cases hlast : args.getLast? with
    | none =>
      rw [Operator.run, hlast]
      exact hV.empty
    | some d =>
      rw [Operator.run, hlast]
      exact h d (List.mem_of_getLast? hlast)
  | test => exact .bind (Checks.one h).lift fun _ _ => hV.bool _
  | concat => exact hV.string _
  | parse => exact (hV.parseValue h).lift

end ClosedValues

end DynamicLisp
