import DynamicLisp.Proofs.Datum.WellFormed
import DynamicLisp.Proofs.Evaluation.StructOperators

/-! Values that are rebuilt by evaluating the expressions they are converted to, and by reading and
evaluating the texts of these expressions (`rebuilds`). -/
namespace DynamicLisp

open Number (isFinite)
open Datum (paramSymbols mapLeaves rereadLeaf)

/-! ### Texts that read back unchanged -/

/-- Some identifier stands for the symbol. -/
def Symbol.Written (s : Symbol) : Prop := ∃ cs, Datum.ofAtom? cs = .ok (.symbol s)

/-- A number that its text gives back, sign and all. -/
def Number.Exact (x : Float) : Prop := isFinite x ∧ x ≠ -0.0

instance (x : Float) : Decidable (Number.Exact x) := inferInstanceAs (Decidable (_ ∧ _))

/-- Expressions that their texts give back. -/
inductive Datum.Steady : Datum → Prop
  | bool (b : Bool) : Steady (.bool b)
  | number {x : Float} : Number.Exact x → Steady (.number x)
  | string (s : String) : Steady (.string s)
  | symbol {s : Symbol} : s.Written → Steady (.symbol s)
  | quote {d : Datum} : Steady d → Steady (.quote d)
  | list {ds : List Datum} : (∀ d ∈ ds, Steady d) → Steady (.list ds)

theorem Datum.Steady.writable {d : Datum} (h : d.Steady) :
    Writable d ∧ mapLeaves rereadLeaf d = d := by
  induction h with
  | bool b => exact ⟨.bool b, rfl⟩
  | number hx => exact ⟨.number hx.1, congrArg Datum.number (if_neg hx.2)⟩
  | string s => exact ⟨.string s, rfl⟩
  | symbol hs =>
    obtain ⟨cs, hcs⟩ := hs
    exact ⟨.symbol hcs, rfl⟩
  | quote _ ih => exact ⟨.quote ih.1, congrArg Datum.quote ih.2⟩
  | list _ ih =>
    refine ⟨.list fun d hd => (ih d hd).1, ?_⟩
    rw [mapLeaves, Datum.mapLeavesOf_eq_map, List.map_congr_left fun d hd => (ih d hd).2, List.map_id']

theorem read_of_steady {ds : List Datum} (h : ∀ d ∈ ds, d.Steady) :
    read (" ".intercalate (ds.map Datum.source)) = .ok ds := by
  rw [read_of_writable fun d hd => (h d hd).writable.1,
    List.map_congr_left fun d hd => (h d hd).writable.2, List.map_id']

theorem Datum.Steady.read {d : Datum} (h : d.Steady) : read d.source = .ok [d] := by
  have hread := read_of_steady (List.forall_mem_singleton.2 h)
  rwa [List.map_singleton, String.intercalate_singleton] at hread

/-- Tells whether an identifier stands for the symbol. -/
def Symbol.isWritten (s : Symbol) : Bool :=
  match Datum.ofAtom? s.text.toList with
  | .ok (.symbol s') => s' == s
  | _ => false

theorem Symbol.written_of_isWritten {s : Symbol} (h : s.isWritten = true) : s.Written := by
  unfold isWritten at h
  split at h
  · rename_i hs
    rw [beq_iff_eq.1 h] at hs
    exact ⟨_, hs⟩
  · cases h

namespace Datum

mutual

/-- Tells whether the text of an expression gives it back. -/
def isSteady : Datum → Bool
  | bool _ | string _ => true
  | number x => decide (Number.Exact x)
  | symbol s => s.isWritten
  | quote d => isSteady d
  | list ds => areSteady ds
  | _ => false

def areSteady : List Datum → Bool
  | [] => true
  | d :: ds => isSteady d && areSteady ds

end

mutual

theorem steady_of_isSteady : (d : Datum) → isSteady d = true → d.Steady
  | bool b, _ => .bool b
  | string s, _ => .string s
  | number _, h => .number (of_decide_eq_true h)
  | symbol _, h => .symbol (Symbol.written_of_isWritten h)
  | quote d, h => .quote (steady_of_isSteady d h)
  | list ds, h => .list (steady_of_areSteady ds h)

theorem steady_of_areSteady : (ds : List Datum) → areSteady ds = true → ∀ d ∈ ds, d.Steady
  | [], _ => List.forall_mem_nil _
  | d :: ds, h => by
    obtain ⟨hd, hds⟩ := Bool.and_eq_true_iff.1 h
    exact List.forall_mem_cons.2 ⟨steady_of_isSteady d hd, steady_of_areSteady ds hds⟩

end

end Datum

namespace Datum

mutual

/-- The numbers in a datum, also those in the bodies of closures. -/
def numbers : Datum → List Float
  | number x => [x]
  | list ds => numbersOf ds
  | quote d => numbers d
  | closure _ _ body => numbers body
  | struct _ fields => numbersOf fields
  | _ => []

def numbersOf : List Datum → List Float
  | [] => []
  | d :: ds => numbers d ++ numbersOf ds

end

theorem numbersOf_eq_flatMap (ds : List Datum) : numbersOf ds = ds.flatMap numbers := by
  induction ds with
  | nil => rfl
  | cons d ds ih => rw [numbersOf, ih, List.flatMap_cons]

end Datum

mutual

theorem Expression.steady {ts : List Token} {d : Datum} :
    Expression ts d → (∀ x ∈ d.numbers, Number.Exact x) → d.Steady
  | .atom h, hnumbers => by
    obtain ⟨b, -, rfl⟩ | ⟨n, _, rfl⟩ | ⟨s, _, rfl⟩ := ofAtom?_cases h
    · exact .bool b
    · exact .number (hnumbers _ List.mem_cons_self)
    · exact .symbol ⟨_, h⟩
  | .string _, _ => .string _
  | .quote h, hnumbers => .quote (h.steady hnumbers)
  | .list _ h, hnumbers => .list (h.steady hnumbers)

theorem Sequence.steady {ts : List Token} {ds : List Datum} :
    Sequence ts ds → (∀ x ∈ Datum.numbersOf ds, Number.Exact x) → ∀ d ∈ ds, d.Steady
  | .nil, _ => List.forall_mem_nil _
  | .cons h hs, hnumbers => by
    obtain ⟨hfirst, hrest⟩ := List.forall_mem_append.1 hnumbers
    exact List.forall_mem_cons.2 ⟨h.steady hfirst, hs.steady hrest⟩

end

/-! ### Values and their expressions -/

/-- Values that are rebuilt in an environment: their types are registered with as many fields as they
have, and the constructors of the types stand for themselves. -/
inductive SelfRepresenting (e : Environment) : Datum → Prop
  | bool (b : Bool) : SelfRepresenting e (.bool b)
  | number (x : Float) : SelfRepresenting e (.number x)
  | string (s : String) : SelfRepresenting e (.string s)
  | empty : SelfRepresenting e .empty
  | closure {params : List String} {variadic : Bool} (body : Datum) :
    (variadic = true → params ≠ []) → SelfRepresenting e (.closure params variadic body)
  | struct {type : String} {fields : List String} {values : List Datum} :
    e.fields? type = some fields → values.length = fields.length →
    e.resolve (SpecialForm.make type).name = .ok (.special (.make type)) →
    (∀ v ∈ values, SelfRepresenting e v) → SelfRepresenting e (.struct type values)

/-- Values whose names of types, parameters and bodies have been read from some text, and whose names
of types do not end like variadic names. -/
inductive Sourced : Datum → Prop
  | bool (b : Bool) : Sourced (.bool b)
  | number (x : Float) : Sourced (.number x)
  | string (s : String) : Sourced (.string s)
  | empty : Sourced .empty
  | closure {ss : List Symbol} {params : List String} {variadic : Bool} {body : Datum}
    {ts : List Token} : (∀ s ∈ ss, s.Written) →
    SpecialForm.parameters (ss.map .symbol) = .ok (params, variadic) → Expression ts body →
      Sourced (.closure params variadic body)
  | struct {s : Symbol} {values : List Datum} : s.Written → ¬ "...".toList <:+ s.name.toList →
    (∀ v ∈ values, Sourced v) → Sourced (.struct s.name values)

section

variable {params : List String} {variadic : Bool} {body : Datum}

theorem paramSymbols_cons {p : String} (h : params ≠ []) :
    paramSymbols (p :: params) variadic = .name p :: paramSymbols params variadic := by
  cases params with
  | nil => exact absurd rfl h
  | cons q params => rfl

theorem paramSymbols_ne_nil (h : params ≠ []) : paramSymbols params variadic ≠ [] := by
  obtain ⟨p, ps, rfl⟩ := List.exists_cons_of_ne_nil h
  cases ps with
  | nil => exact List.cons_ne_nil _ _
  | cons q ps => exact List.cons_ne_nil _ _

theorem parameters_cons {s : Symbol} {ds : List Datum} (hds : ds ≠ []) :
    SpecialForm.parameters (.symbol s :: ds) = (do
      if s.variadic then throw .variadicBeforeLast
      let (names, variadic) ← SpecialForm.parameters ds
      return (s.name :: names, variadic)) := by
  obtain ⟨d, ds, rfl⟩ := List.exists_cons_of_ne_nil hds
  rfl

/-- Parameters are read as what they were written for. -/
theorem parameters_paramSymbols (h : variadic = true → params ≠ []) :
    SpecialForm.parameters (paramSymbols params variadic) = .ok (params, variadic) := by
  induction params with
  | nil =>
    cases variadic with
    | true => exact absurd rfl (h rfl)
    | false => rfl
  | cons p ps ih =>
    cases ps with
    | nil => rfl
    | cons q ps =>
      have hne : q :: ps ≠ [] := List.cons_ne_nil q ps
      rw [paramSymbols_cons hne, Datum.name, parameters_cons (paramSymbols_ne_nil hne),
        ih fun _ => hne]
      rfl

theorem paramSymbols_parameters {ss : List Symbol}
    (h : SpecialForm.parameters (ss.map .symbol) = .ok (params, variadic)) :
    paramSymbols params variadic = ss.map .symbol := by
  induction ss generalizing params with
  | nil =>
    cases h
    rfl
  | cons s ss ih =>
    cases ss with
    | nil =>
      cases h
      rfl
    | cons t ss =>
      have hmore : (t :: ss).map Datum.symbol ≠ [] := List.cons_ne_nil _ _
      rw [List.map_cons, parameters_cons hmore] at h
      obtain ⟨name, mark⟩ := s
      cases mark with
      | true => cases h
      | false =>
        cases hrest : SpecialForm.parameters ((t :: ss).map .symbol) with
        | error e =>
          rw [hrest] at h
          cases h
        | ok p =>
          obtain ⟨names, last⟩ := p
          rw [hrest] at h
          cases h
          have hnames := ih hrest
          have hne : names ≠ [] := by
            rintro rfl
            cases hnames
          rw [paramSymbols_cons hne, hnames]
          rfl

theorem toExpr_closure : (Datum.closure params variadic body).toExpr =
    .ok (.list [.name "lambda", .list (paramSymbols params variadic), body]) := rfl

/-- The parameter list of a closure, as it is written. -/
theorem showParams_eq : showParams params variadic =
    " ".intercalate ((paramSymbols params variadic).map Datum.source) := by
  induction params with
  | nil => cases variadic <;> rfl
  | cons p ps ih =>
    cases ps with
    | nil =>
      rw [showParams, paramSymbols, List.map_singleton, String.intercalate_singleton,
        String.intercalate_singleton]
      cases variadic <;> simp [Datum.source, Symbol.text]
    | cons q ps =>
      have hne : q :: ps ≠ [] := List.cons_ne_nil q ps
      have hwritten : paramSymbols (q :: ps) variadic ≠ [] := paramSymbols_ne_nil hne
      obtain ⟨d, ds, hds⟩ := List.exists_cons_of_ne_nil hwritten
      rw [paramSymbols_cons hne]
      rw [hds] at ih ⊢
      rw [List.map_cons, List.map_cons, String.intercalate_cons_cons, ← List.map_cons, ← ih,
        showParams, showParams, String.intercalate_cons_cons]
      simp [Datum.source, Datum.name, Symbol.text, String.append_assoc]

/-- A closure is printed as the expression that makes it. -/
theorem display_closure : (Datum.closure params variadic body).display =
    (Datum.list [.name "lambda", .list (paramSymbols params variadic), body]).source := by
  have hopen : "(lambda (" = "(" ++ ("lambda" ++ (" " ++ "(")) := rfl
  have hclose : (") " : String) = ")" ++ " " := rfl
  rw [Datum.display, showParams_eq, hopen, hclose]
  simp only [Datum.source, Datum.sources, Datum.sources_eq_map, inParens, Datum.name, Symbol.text,
    Bool.false_eq_true, if_false, String.intercalate_cons_cons, String.intercalate_singleton,
    String.append_assoc]

end

/-! ### Evaluation -/

variable {w : World} {v expr : Datum} {vs : List Datum}

/-- A value is rebuilt by the evaluation of an expression, with levels to spare. -/
def Rebuilds (w : World) (expr v : Datum) : Prop :=
  ∃ n, ∀ limit, n ≤ limit → evaluate limit expr w = (.ok v, w)

theorem rebuilds_literal (v : Datum) (h : ∀ ev, evaluateWith ev v = return v) : Rebuilds w v v := by
  refine ⟨1, fun limit hlimit => ?_⟩
  obtain ⟨k, rfl⟩ : ∃ k, limit = k + 1 := ⟨limit - 1, by omega⟩
  rw [evaluate, h]
  rfl

theorem evaluateAll_rebuilds (h : ∀ v ∈ vs, ∃ expr, v.toExpr = .ok expr ∧ Rebuilds w expr v) :
    ∃ exprs, Datum.toExprs vs = .ok exprs ∧
      ∃ n, ∀ limit, n ≤ limit → evaluateAll (evaluate limit) exprs w = (.ok vs, w) := by
  induction vs with
  | nil => exact ⟨[], rfl, 0, fun _ _ => rfl⟩
  | cons v vs ih =>
    obtain ⟨⟨expr, hexpr, n, hn⟩, hvs⟩ := List.forall_mem_cons.1 h
    obtain ⟨exprs, hexprs, m, hm⟩ := ih hvs
    refine ⟨expr :: exprs, ?_, max n m, fun limit hlimit => ?_⟩
    · rw [Datum.toExprs, hexpr, hexprs]
      rfl
    · rw [evaluateAll, Action.bind_apply, hn limit (by omega)]
      dsimp only
      rw [Action.bind_apply, hm limit (by omega)]
      rfl

theorem SelfRepresenting.rebuilds (hlambda : w.environment.resolve "lambda" = .ok (.special .lambda))
    (h : SelfRepresenting w.environment v) : ∃ expr, v.toExpr = .ok expr ∧ Rebuilds w expr v := by
  induction h with
  | bool b => exact ⟨_, rfl, rebuilds_literal _ fun _ => rfl⟩
  | number x => exact ⟨_, rfl, rebuilds_literal _ fun _ => rfl⟩
  | string s => exact ⟨_, rfl, rebuilds_literal _ fun _ => rfl⟩
  | empty => exact ⟨_, rfl, rebuilds_literal _ fun _ => rfl⟩
  | @closure params variadic body hparams =>
    refine ⟨_, rfl, 2, fun limit hlimit => ?_⟩
    obtain ⟨k, rfl⟩ : ∃ k, limit = k + 2 := ⟨limit - 2, by omega⟩
    have hclosure : SpecialForm.closureOf [.list (paramSymbols params variadic), body] =
        .ok (.closure params variadic body) := by
      rw [SpecialForm.closureOf, parameters_paramSymbols hparams]
      rfl
    refine (SpecialForm.evaluate_call (f := .lambda) hlambda).trans ?_
    rw [SpecialForm.run, hclosure]
    rfl
  | @struct type fields values hfields hlength hmake _ ih =>
    obtain ⟨exprs, hexprs, n, hn⟩ := evaluateAll_rebuilds ih
    refine ⟨.list (.name (SpecialForm.make type).name :: exprs), ?_, n + 2, fun limit hlimit => ?_⟩
    · rw [Datum.toExpr, hexprs]
      rfl
    · obtain ⟨k, rfl⟩ : ∃ k, limit = k + 2 := ⟨limit - 2, by omega⟩
      have hargs := hn (k + 1) (by omega)
      have hcount : exprs.length = fields.length :=
        (length_of_evaluateAll hargs).symm.trans hlength
      rw [SpecialForm.evaluate_call hmake]
      exact SpecialForm.runMake_eq hfields hcount hargs

/-! ### Reading -/

theorem Symbol.Written.isIdentifierChar {s : Symbol} (hs : s.Written) :
    ∀ c ∈ s.name.toList, isIdentifierChar c = true := by
  obtain ⟨cs, hcs⟩ := hs
  rcases ofAtom?_cases hcs with ⟨b, -, hb⟩ | ⟨n, _, hn⟩ | ⟨s', hs', he⟩
  · cases hb
  · cases hn
  · cases he
    obtain ⟨htext, hchars⟩ := text_of_ofText? hs'
    intro c hc
    apply hchars
    rw [← htext, Symbol.text]
    split
    · rw [String.toList_append]
      exact List.mem_append_left _ hc
    · exact hc

/-- An identifier without the variadic mark stands for the symbol of its characters. -/
theorem ofText?_of_unmarked {cs : List Char} (hne : cs ≠ [])
    (hchars : ∀ c ∈ cs, isIdentifierChar c = true) (hmark : dropVariadicMark cs = none) :
    Symbol.ofText? cs = .ok ⟨String.ofList cs, false⟩ := by
  have hall : cs.all isIdentifierChar = true := List.all_eq_true.2 hchars
  rw [Symbol.ofText?, if_neg (by simp only [hne, hall]; decide), hmark]
  rfl

/-- The mark of variadic names is not made by what is put in front of a name. -/
theorem dropVariadicMark_make {name : List Char} (hdots : ¬ "...".toList <:+ name) :
    dropVariadicMark ("make-".toList ++ name) = none := by
  cases h : dropVariadicMark ("make-".toList ++ name) with
  | none => rfl
  | some cs =>
    have hends : "...".toList <:+ "make".toList ++ '-' :: name :=
      ⟨cs, (dropVariadicMark_eq_some h).symm⟩
    rcases List.suffix_or_suffix_of_suffix hends (List.suffix_append _ _) with hends | hends
    · rcases List.suffix_cons_iff.1 hends with hsame | hends
      · cases hsame
      · exact (hdots hends).elim
    · have hdash : '-' ∈ "...".toList := hends.subset List.mem_cons_self
      exact absurd hdash (by decide)

/-- The name of a constructor is written as it is, unless the mark of variadic names ends it. -/
theorem written_make {s : Symbol} (hs : s.Written) (hdots : ¬ "...".toList <:+ s.name.toList) :
    (⟨(SpecialForm.make s.name).name, false⟩ : Symbol).Written := by
  have hname : (SpecialForm.make s.name).name.toList = "make-".toList ++ s.name.toList :=
    String.toList_append
  have hvalid : ∀ c ∈ "make-".toList ++ s.name.toList, isIdentifierChar c = true := by
    have hmake : "make-".toList.all isIdentifierChar = true := by decide
    exact List.forall_mem_append.2 ⟨List.all_eq_true.1 hmake, hs.isIdentifierChar⟩
  have hsymbol := ofText?_of_unmarked (List.append_ne_nil_of_left_ne_nil (by decide) _) hvalid
    (dropVariadicMark_make hdots)
  have hnumeral : Numeral.ofText? ("make-".toList ++ s.name.toList) = none := rfl
  refine ⟨"make-".toList ++ s.name.toList, ?_⟩
  rw [Datum.ofAtom?, if_neg (by rintro (h | h) <;> cases h), if_neg (by rintro (h | h) <;> cases h),
    hnumeral, hsymbol, ← hname, String.ofList_toList]
  rfl

/-- The expression that a value is converted to is read back from its text, if what was read for the
value can be. -/
theorem Sourced.steady (h : Sourced v) (hnumbers : ∀ x ∈ v.numbers, Number.Exact x) :
    Gives (fun _ => False) Datum.Steady v.toExpr := by
  induction h with
  | bool b => exact .bool b
  | number x => exact .number (hnumbers x List.mem_cons_self)
  | string s => exact .string s
  | empty => exact .list (List.forall_mem_nil _)
  | @closure ss params variadic body ts hss hparams hbody =>
    have hlambda : (⟨"lambda", false⟩ : Symbol).Written := ⟨"lambda".toList, rfl⟩
    rw [toExpr_closure, paramSymbols_parameters hparams]
    refine .list (List.forall_mem_cons.2 ⟨.symbol hlambda, List.forall_mem_cons.2 ⟨?_, ?_⟩⟩)
    · exact .list (List.forall_mem_map.2 fun s hs => .symbol (hss s hs))
    · exact List.forall_mem_singleton.2 (hbody.steady hnumbers)
  | @struct s values hs hdots _ ih =>
    have hvalues : ∀ v ∈ values, Gives (fun _ => False) Datum.Steady v.toExpr := by
      intro v hv
      refine ih v hv fun x hx => hnumbers x ?_
      rw [Datum.numbers, Datum.numbersOf_eq_flatMap]
      exact List.mem_flatMap.2 ⟨v, hv, hx⟩
    rw [Datum.toExpr, Datum.toExprs_eq_mapM]
    exact .bind (.mapM hvalues) fun exprs hexprs =>
      .list (List.forall_mem_cons.2 ⟨.symbol (written_make hs hdots), hexprs⟩)

/-- A text that is one expression is evaluated as the expression. -/
theorem evalText_of_read {text : String} (hread : read text = .ok [expr]) (h : Rebuilds w expr v) :
    ∃ n, ∀ limit, n ≤ limit → Session.evalText limit text w = (.ok v, w) := by
  obtain ⟨n, hn⟩ := h
  refine ⟨n, fun limit hlimit => ?_⟩
  rw [Session.evalText, ofText_of_read hread]
  simp only [Session.evalExprs, Action.bind_apply, hn limit hlimit]
  rfl

/-- Values survive the conversion to an expression, which evaluates to the value and changes nothing.
Closures are printed as the expressions they are converted to. If the numbers of a value are exact and
its names and bodies have been read, then the text of its expression is read as this expression, so
that evaluating the text gives the value. -/
theorem value_roundTrip (hlambda : w.environment.resolve "lambda" = .ok (.special .lambda))
    (hv : SelfRepresenting w.environment v) :
    ∃ expr, v.toExpr = .ok expr ∧
      (∃ n, ∀ limit, n ≤ limit → evaluate limit expr w = (.ok v, w)) ∧
      (∀ params variadic body, ∃ code, (Datum.closure params variadic body).toExpr = .ok code ∧
        (Datum.closure params variadic body).display = code.source) ∧
      (Sourced v → (∀ x ∈ v.numbers, Number.Exact x) → read expr.source = .ok [expr] ∧
        ∃ n, ∀ limit, n ≤ limit → Session.evalText limit expr.source w = (.ok v, w)) := by
  obtain ⟨expr, hexpr, hrebuilds⟩ := hv.rebuilds hlambda
  refine ⟨expr, hexpr, hrebuilds, fun _ _ _ => ⟨_, toExpr_closure, display_closure⟩, ?_⟩
  intro hsourced hnumbers
  have hsteady := hsourced.steady hnumbers
  rw [hexpr] at hsteady
  have hread : read expr.source = .ok [expr] := Datum.Steady.read hsteady
  exact ⟨hread, evalText_of_read hread hrebuilds⟩

/-- An instance that holds a number and a variadic closure. -/
theorem value_roundTrip_instance :
    let e := SpecialForm.declared "p" ["x", "f"] standardEnvironment
    let w : World := ⟨e, default⟩
    let v : Datum := .struct "p" [.number 1.0,
      .closure ["a", "r"] true (.list [.name "list", .name "r"])]
    e.resolve "lambda" = .ok (.special .lambda) ∧ SelfRepresenting e v ∧
      ∃ n, ∀ limit, n ≤ limit →
        Session.evalText limit "(make-p 1 (lambda (a r...) (list r)))" w = (.ok v, w) := by
  intro e w v
  have hlambda : e.resolve "lambda" = .ok (.special .lambda) := rfl
  have hv : SelfRepresenting e v := by
    have hfields : e.fields? "p" = some ["x", "f"] := rfl
    refine .struct hfields rfl rfl ?_
    simp only [List.forall_mem_cons]
    exact ⟨.number _, .closure _ fun _ => List.cons_ne_nil _ _, List.forall_mem_nil _⟩
  have hsourced : Sourced v := by
    have hbody : Expression [.opening .round, .atom "list".toList, .atom "r".toList,
        .closing .round] (.list [.name "list", .name "r"]) :=
      .list .round (.cons (.atom rfl) (.cons (.atom rfl) .nil))
    have hclosure : Sourced (.closure ["a", "r"] true (.list [.name "list", .name "r"])) := by
      have hparams : ∀ s ∈ [(⟨"a", false⟩ : Symbol), ⟨"r", true⟩], s.Written := by
        simp only [List.forall_mem_cons]
        exact ⟨⟨"a".toList, rfl⟩, ⟨"r...".toList, rfl⟩, List.forall_mem_nil _⟩
      exact .closure hparams rfl hbody
    refine .struct (s := ⟨"p", false⟩) ⟨"p".toList, rfl⟩ (by decide) ?_
    simp only [List.forall_mem_cons]
    exact ⟨.number _, hclosure, List.forall_mem_nil _⟩
  have hnumbers : ∀ x ∈ v.numbers, Number.Exact x := by
    refine List.forall_mem_singleton.2 ⟨by decide, by decide⟩
  have htext : v.toExpr.map Datum.source = .ok "(make-p 1 (lambda (a r...) (list r)))" := by
    decide +kernel
  obtain ⟨expr, hexpr, -, -, hread⟩ := value_roundTrip (w := w) hlambda hv
  rw [hexpr] at htext
  have hsource : expr.source = "(make-p 1 (lambda (a r...) (list r)))" := Except.ok.inj htext
  rw [← hsource]
  exact ⟨hlambda, hv, (hread hsourced hnumbers).2⟩

end DynamicLisp
