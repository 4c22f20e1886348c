import DynamicLisp.Proofs.Evaluation.Invariant
import DynamicLisp.Proofs.Session.Step
import Mathlib.Data.List.Basic

/-! Reserved words. In the base scope they keep their meaning, but for the one that can be spelled like
an operator of a struct type, and no definition binds them anywhere (`reserved_words`). -/
namespace DynamicLisp

open SpecialForm (reservedWords structOperators structDeclaration bodyOf)

/-! ### Names of operators -/

namespace SpecialForm

variable {type : String} {fields : List String} {f : SpecialForm}

theorem mark_mem_name (hf : f ∈ structOperators type fields) :
    '?' ∈ f.name.toList ∨ '-' ∈ f.name.toList := by
  rcases mem_structOperators.1 hf with rfl | ⟨field, _, rfl⟩ | rfl <;> simp [name]

/-- Only one operator of only one name of a type is called like the form that declares types. -/
theorem eq_of_name_defineStruct (hf : f ∈ structOperators type fields)
    (h : f.name = "define-struct") : type = "define" ∧ "struct" ∈ fields := by
  have hlist : f.name.toList = "define".toList ++ '-' :: "struct".toList := congrArg String.toList h
  rcases mem_structOperators.1 hf with rfl | ⟨field, hfield, rfl⟩ | rfl
  · have hmem : '?' ∈ (isA type).name.toList := by simp [name]
    rw [hlist] at hmem
    exact absurd hmem (by decide)
  · have hparts : type.toList ++ '-' :: field.toList = "define".toList ++ '-' :: "struct".toList := by
      rw [← hlist]
      simp [name]
    obtain ⟨htype, -, hname⟩ :=
      (List.append_cons_inj_of_notMem (by decide) (by decide)).1 hparts.symm
    obtain rfl := String.toList_inj.1 htype
    obtain rfl := String.toList_inj.1 hname
    exact ⟨rfl, hfield⟩
  · have hm : (make type).name.toList.head? = some 'm' := by simp [name]
    rw [hlist] at hm
    cases hm

end SpecialForm

/-! ### Words of the base scope -/

namespace Environment

variable {e f g : Environment} {x : String} {d : Datum}

/-- Bindings that are made in the base scope leave the other names there alone. -/
theorem find?_base_update (bindings : List (String × Datum))
    (h : e.depth = 0 → x ∉ bindings.map Prod.fst) :
    (e.update bindings).base.find? x = e.base.find? x := by
  obtain ⟨inner, base, structs⟩ := e
  cases inner with
  | nil => exact Table.find?_update_of_not_mem (h rfl)
  | cons s inner => rfl

theorem base_exit (h : f.exit? = some g) : g.base = f.base := by
  unfold exit? at h
  split at h <;> cases h
  rfl

end Environment

/-- The words have these meanings in the base scope. A word without a meaning is not bound. -/
def Environment.Fixes (words : List (String × Option Datum)) (e : Environment) : Prop :=
  ∀ p ∈ words, e.base.find? p.1 = p.2

/-- Reserved words keep their meaning in the base scope while no struct type is declared there that has
an operator of their name. -/
def Invariant.fixes (words : List (String × Option Datum))
    (hreserved : ∀ p ∈ words, p.1 ∈ reservedWords) (broken : Prop) : Invariant where
  Sound := Environment.Fixes words
  Value _ _ := True
  Code _ := True
  Declares e type fields := e.depth = 0 → ∀ f ∈ structOperators type fields, ∀ p ∈ words, p.1 ≠ f.name
  Stops s := s = .noScope → broken
  mono _ _ := trivial
  values _ := {
    bool := fun _ => trivial
    number := fun _ => trivial
    string := fun _ => trivial
    list := by simp
    read := fun _ => trivial }
  closure _ _ := trivial
  body _ := trivial
  instance_iff _ := by simp
  registered _ _ := .inr nofun
  symbol _ := trivial
  items := by simp
  quoted _ := trivial
  literal _ _ _ _ := trivial
  read _ := trivial
  expr {_ d} _ := by
    cases d.toExpr with
    | ok expr => trivial
    | error e => exact nofun
  ordinary hs hscope := (hs.1 hscope).elim
  resolve _ _ := trivial
  enter h := h
  exit {_ f g} _ hf _ hg := by
    intro p hp
    rw [Environment.base_exit hg]
    exact hf p hp
  update {e bindings} h hdepth _ := by
    intro p hp
    rw [Environment.find?_base_update _ fun hzero => absurd hzero (Nat.ne_of_gt hdepth)]
    exact h p hp
  define {e x d} h hx _ := by
    intro p hp
    have hne : p.1 ≠ x := fun hpx => hx (hpx ▸ hreserved p hp)
    have hbase := Environment.find?_base_update (e := e) (x := p.1) [(x, d)] fun _ => by
      simpa using hne
    exact hbase.trans (h p hp)
  declare {e type fields} h hdeclares := by
    intro p hp
    have hbase := Environment.find?_base_update (e := e.addStruct type fields) (x := p.1)
      ((structOperators type fields).map fun f => (f.name, .special f)) fun hzero => by
        rw [List.map_map, List.mem_map]
        rintro ⟨f, hf, hname⟩
        exact hdeclares hzero f hf p hp hname.symm
    exact hbase.trans (h p hp)

/-- The reserved words that keep their meaning in the base scope whatever is evaluated. -/
def fixedWords : List (String × Option Datum) :=
  [("define", some (.special .define)), ("begin", some (.intrinsic (.operator .begin))),
    ("cond", some (.special .branches)), ("if", some (.special .conditional)),
    ("let", some (.special .bindings)), ("else", none)]

theorem fixedWords_reserved : ∀ p ∈ fixedWords, p.1 ∈ reservedWords := by
  have hwords : ∀ x ∈ fixedWords.map Prod.fst, x ∈ reservedWords := by decide
  exact fun p hp => hwords p.1 (List.mem_map_of_mem hp)

theorem fixes_standard : standardEnvironment.Fixes fixedWords := by
  simp only [Environment.Fixes, fixedWords, List.forall_mem_cons]
  exact ⟨rfl, rfl, rfl, rfl, rfl, rfl, List.forall_mem_nil _⟩

variable {limit : Nat} {ds : List Datum} {w : World} {ev : Evaluator} {broken : Prop}

theorem fixes_declares (e : Environment) (type : String) (fields : List String) :
    (Invariant.fixes fixedWords fixedWords_reserved broken).Declares e type fields := by
  intro _ f hf p hp hname
  have hplain : ∀ x ∈ fixedWords.map Prod.fst, '?' ∉ x.toList ∧ '-' ∉ x.toList := by decide
  obtain ⟨hquestion, hdash⟩ := hplain p.1 (List.mem_map_of_mem hp)
  rw [hname] at hquestion hdash
  rcases SpecialForm.mark_mem_name hf with h | h
  · exact hquestion h
  · exact hdash h

/-- A reserved word has lost its meaning in the base scope. -/
def Unfixed (_ : Datum) (w : World) : Prop := ¬ w.environment.Fixes fixedWords

theorem not_encountersIn_unfixed (hw : w.environment.Fixes fixedWords) (limit : Nat)
    (ds : List Datum) : ¬ EncountersIn (moments Unfixed) limit ds w := by
  let I := Invariant.fixes fixedWords fixedWords_reserved False
  have hev : I.Keeps (evaluate limit) := I.evaluate fixes_declares limit
  have huntil : I.Keeps (evaluateUntil (moments Unfixed) limit) := by
    refine I.evaluateUntil (fun _ _ _ _ _ _ _ _ _ _ => fixes_declares _ _ _) ?_ limit
    exact fun d w _ hw hunfixed => (moments_iff.1 hunfixed hw).elim
  have hscope : ¬ I.Stops .noScope := fun h => h rfl
  exact Invariant.not_encountersIn hev huntil hscope hw ds fun _ _ => trivial

/-! ### The form that declares struct types -/

/-- The expression is a form that declares the type `define` with a field `struct`, in the base
scope. -/
def Redeclares (d : Datum) (w : World) : Prop :=
  ∃ limit head exprs w₁ fields, d = .list (head :: exprs) ∧
    evaluate limit head w = (.ok (.special .defineStruct), w₁) ∧
    structDeclaration exprs = .ok ("define", fields) ∧ "struct" ∈ fields ∧ w.environment.depth = 0

theorem fixes_until (value : Option Datum) (limit : Nat) :
    (Invariant.fixes [("define-struct", value)] (by simp [reservedWords]) True).Keeps
      (evaluateUntil (moments Redeclares) limit) := by
  refine Invariant.evaluateUntil ?_ (fun _ _ _ _ _ _ => trivial) limit
  intro limit head exprs w w₁ type fields hunwatched hhead hdeclaration hzero f hf p hp hname
  rw [List.mem_singleton.1 hp] at hname
  obtain ⟨rfl, hstruct⟩ := SpecialForm.eq_of_name_defineStruct hf hname.symm
  have hevaluates := agrees_until (moments Redeclares) limit head w _ w₁ hhead
  have hdepth := (evaluate_frame limit head w).1
  rw [hevaluates] at hdepth
  exact moments_eq_false.1 hunwatched
    ⟨limit, head, exprs, w₁, fields, rfl, hevaluates, hdeclaration, hstruct, hdepth ▸ hzero⟩

/-- The name of the form that declares struct types gets another meaning by such a form only. -/
theorem encountersIn_redeclares
    (h : (evaluateEach (evaluate limit) ds w).2.environment.base.find? "define-struct" ≠
      w.environment.base.find? "define-struct") :
    EncountersIn (moments Redeclares) limit ds w := by
  by_contra hnot
  have hkeeps := fixes_until (w.environment.base.find? "define-struct") limit
  have hw : w.environment.Fixes [("define-struct", w.environment.base.find? "define-struct")] :=
    List.forall_mem_singleton.2 rfl
  have hsound := (Invariant.evaluateEach hkeeps hw ds fun _ _ => trivial).sound
  rw [Session.evaluateEach_until hnot] at hsound
  exact h (hsound _ List.mem_cons_self)

/-! ### Definitions -/

namespace SpecialForm

theorem runDefine_pair (s : Symbol) (value : Datum) : runDefine ev [.symbol s, value] = (do
    if s.name ∈ reservedWords then Action.fail (.reservedWord s.name)
    let d ← ev value
    Action.define s.name d
    return .empty) := rfl

theorem runDefine_reserved {s : Symbol} (value : Datum) (hs : s.name ∈ reservedWords) :
    runDefine ev [.symbol s, value] w = (.error (.error (.reservedWord s.name)), w) := by
  rw [runDefine_pair, if_pos hs]
  rfl

theorem runDefine_symbol {s : Symbol} (value : Datum) (hs : s.name ∉ reservedWords) :
    runDefine ev [.symbol s, value] w = (do
      let d ← ev value
      Action.define s.name d
      return .empty : Action Datum) w := by
  rw [runDefine_pair, if_neg hs]

/-- What a form that defines a name may come to: it fails at once, or evaluates an expression and binds
a name that is not reserved, or is evaluated as another form. -/
inductive Defines (ev : Evaluator) (w : World) : List Datum → Except Stop Datum × World → Prop
  | fails (exprs : List Datum) (e : LispError) : Defines ev w exprs (.error (.error e), w)
  | binds {s : Symbol} (value : Datum) : s.name ∉ reservedWords → Defines ev w [.symbol s, value]
      ((do
        let d ← ev value
        Action.define s.name d
        return .empty : Action Datum) w)
  | rewrites (target : Datum) (params : List Datum) (body : Datum) (bodies : List Datum) :
    Defines ev w (.list (target :: params) :: body :: bodies)
      (ev (.list [.name "define", target,
        .list [.name "lambda", .list params, bodyOf (body :: bodies)]]) w)

theorem runDefine_defines (ev : Evaluator) (exprs : List Datum) (w : World) :
    Defines ev w exprs (runDefine ev exprs w) := by
  unfold runDefine
  split
  · rename_i s value rest
    cases rest with
    | nil =>
      change Defines ev w [.symbol s, value] (runDefine ev [.symbol s, value] w)
      by_cases hs : s.name ∈ reservedWords
      · rw [runDefine_reserved value hs]
        exact .fails _ _
      · rw [runDefine_symbol value hs]
        exact .binds value hs
    | cons d rest => exact .fails _ (.arity .exact 2 (rest.length + 3))
  · exact .fails _ _
  · exact .rewrites _ _ _ _
  · exact .fails _ _
  · exact .fails _ _

/-- The name and the expression of a definition, once targets that are lists have been taken apart. -/
def definition? : Datum → List Datum → Option (Symbol × Datum)
  | .symbol s, [value] => some (s, value)
  | .list (target :: params), body :: bodies =>
    definition? target [.list [.name "lambda", .list params, bodyOf (body :: bodies)]]
  | _, _ => none

variable {limit : Nat} {target : Datum} {bodies : List Datum}

/-- A definition with a target of any nesting stops before anything has happened, or it binds the name
in the innermost target, which is not reserved. -/
theorem evaluate_define (hdefine : w.environment.resolve "define" = .ok (.special .define))
    (limit : Nat) (target : Datum) (bodies : List Datum) :
    (∃ s, evaluate limit (.list (.name "define" :: target :: bodies)) w = (.error s, w)) ∨
      ∃ k s value, definition? target bodies = some (s, value) ∧ s.name ∉ reservedWords ∧
        evaluate limit (.list (.name "define" :: target :: bodies)) w = (do
          let d ← evaluate k value
          Action.define s.name d
          return .empty : Action Datum) w := by
  induction limit generalizing target bodies with
  | zero => exact .inl ⟨.runaway, rfl⟩
  | succ limit ih =>
    cases limit with
    | zero => exact .inl ⟨.runaway, rfl⟩
    | succ limit =>
      have hform : evaluate (limit + 2) (.list (.name "define" :: target :: bodies)) w =
          runDefine (evaluate (limit + 1)) (target :: bodies) w := evaluate_call (f := .define) hdefine
      rw [hform]
      have hdefines := runDefine_defines (evaluate (limit + 1)) (target :: bodies) w
      generalize hp : runDefine (evaluate (limit + 1)) (target :: bodies) w = p at hdefines
      cases hdefines with
      | fails e => exact .inl ⟨_, rfl⟩
      | binds value hs => exact .inr ⟨limit + 1, _, value, rfl, hs, rfl⟩
      | rewrites target params body bodies => exact ih target _

end SpecialForm

/-- Throughout a session the reserved words have their meaning in the base scope, where `else` is not
bound; only the name of the form that declares struct types gets another one there, by the declaration
of a type `define` with a field `struct`. A form that defines a name binds no reserved word: asked to,
it fails and has evaluated nothing, and one with a nested target binds the name in the innermost
target, if any. -/
theorem reserved_words (hw : Session.Reached w) :
    standardEnvironment.Fixes (("define-struct", some (.special .defineStruct)) :: fixedWords) ∧
    w.environment.Fixes fixedWords ∧
    (∀ limit ds, ¬ EncountersIn (moments Unfixed) limit ds w) ∧
    (∀ limit ds w', Session.Step limit ds w w' →
      w'.environment.base.find? "define-struct" = w.environment.base.find? "define-struct" ∨
        EncountersIn (moments Redeclares) limit ds w) ∧
    (∀ ev exprs u, SpecialForm.Defines ev u exprs (SpecialForm.run ev exprs .define u)) ∧
    (∀ ev s value u, s.name ∈ reservedWords → SpecialForm.run ev [.symbol s, value] .define u =
      (.error (.error (.reservedWord s.name)), u)) ∧
    ∀ limit target bodies u, u.environment.resolve "define" = .ok (.special .define) →
      (∃ s, evaluate limit (.list (.name "define" :: target :: bodies)) u = (.error s, u)) ∨
        ∃ k s value, SpecialForm.definition? target bodies = some (s, value) ∧
          s.name ∉ reservedWords ∧
          evaluate limit (.list (.name "define" :: target :: bodies)) u = (do
            let d ← evaluate k value
            Action.define s.name d
            return .empty : Action Datum) u := by
  have hfixes : w.environment.Fixes fixedWords :=
    Invariant.reached (I := .fixes fixedWords fixedWords_reserved False)
      (Invariant.evaluate fixes_declares) fixes_standard hw
  refine ⟨List.forall_mem_cons.2 ⟨rfl, fixes_standard⟩, hfixes,
    fun limit ds => not_encountersIn_unfixed hfixes limit ds, ?_, SpecialForm.runDefine_defines,
    fun ev s value u hs => SpecialForm.runDefine_reserved value hs,
    fun limit target bodies u hdefine => SpecialForm.evaluate_define hdefine limit target bodies⟩
  intro limit ds w' hstep
  rw [hstep.eq]
  by_cases hsame : (evaluateEach (evaluate limit) ds w).2.environment.base.find? "define-struct" =
      w.environment.base.find? "define-struct"
  · exact .inl hsame
  · exact .inr (encountersIn_redeclares hsame)

/-- The special form that a value is. -/
def Datum.form? : Datum → Option SpecialForm
  | .special f => some f
  | _ => none

theorem Datum.form?_eq_some {d : Datum} {f : SpecialForm} : d.form? = some f ↔ d = .special f := by
  cases d <;> simp [form?]

/-- After such a declaration the form that declares struct types is an operator of the type. -/
theorem reserved_words_redeclared :
    let w := (Session.start 9 false default).2
    let text := "(define-struct define (struct))"
    let w' := (Session.evalText 9 text w).2
    Session.Reached w ∧
      w'.environment.base.find? "define-struct" = some (.special (.access "define" "struct")) ∧
      EncountersIn (moments Redeclares) 9 (Script.ofText text).exprs w := by
  intro w text w'
  have hw : Session.Reached w := .start 9 false default
  have hchanged : w'.environment.base.find? "define-struct" =
      some (.special (.access "define" "struct")) := by
    have hfound : (w'.environment.base.find? "define-struct").bind Datum.form? =
        some (.access "define" "struct") := by decide +kernel
    obtain ⟨d, hd, hform⟩ := Option.bind_eq_some_iff.1 hfound
    rw [hd, Datum.form?_eq_some.1 hform]
  have hstandard : w.environment.base.find? "define-struct" = some (.special .defineStruct) := rfl
  have hstep : Session.Step 9 (Script.ofText text).exprs w w' := .text text w
  rcases (reserved_words hw).2.2.2.1 9 _ w' hstep with h | h
  · rw [hchanged, hstandard] at h
    cases h
  · exact ⟨hw, hchanged, h⟩

end DynamicLisp
