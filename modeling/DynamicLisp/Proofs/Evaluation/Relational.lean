import DynamicLisp.Evaluation.Evaluate
import DynamicLisp.Proofs.Evaluation.Operator

/-! Relations between two runs of the evaluator. A relation between actions that the building blocks
respect, and that two evaluators respect on every expression, is respected by whatever the language
builds from these evaluators (`Relational.evaluateWith`). -/
namespace DynamicLisp

/-- Hosts that are equal but for what has been printed so far. -/
structure Host.Alike (Printed : String → String → Prop) (h k : Host) : Prop where
  files : h.files = k.files
  input : h.input = k.input
  roots : h.roots = k.roots
  output : Printed h.output k.output

namespace Host.Alike

variable {Printed : String → String → Prop} {h k : Host}

theorem of_eq (hk : h = k) : h.Alike (· = ·) k := by
  subst hk
  exact ⟨rfl, rfl, rfl, rfl⟩

theorem eq (hk : h.Alike (· = ·) k) : h = k := by
  obtain ⟨hfiles, hinput, hroots, houtput⟩ := hk
  cases h
  cases k
  simp_all

theorem resolve? (hk : h.Alike Printed k) (name : String) : h.resolve? name = k.resolve? name := by
  unfold Host.resolve?
  rw [hk.files, hk.roots]

/-- Both have the same next line, or none. -/
theorem readLine? (hk : h.Alike Printed k) : (h.readLine? = none ∧ k.readLine? = none) ∨
    ∃ line h' k', h.readLine? = some (line, h') ∧ k.readLine? = some (line, k') ∧
      h'.Alike Printed k' := by
  unfold Host.readLine?
  rw [← hk.input]
  split
  · exact .inl ⟨rfl, rfl⟩
  · exact .inr ⟨_, _, _, rfl, rfl, hk.files, rfl, hk.roots, hk.output⟩

end Host.Alike

/-- A relation between printed texts that stays when the same is printed behind both. -/
def PrintStable (Printed : String → String → Prop) : Prop :=
  ∀ (a b s : String), Printed a b → Printed (a ++ s) (b ++ s)

theorem PrintStable.eq : PrintStable (· = ·) := fun _ _ s => congrArg (· ++ s)

namespace Action

variable {α β : Type}

/-- Two actions one after the other: the first one stops, or the second one is run on its result. -/
theorem bind_cases (x : Action α) (f : α → Action β) (w : World) :
    (∃ s w', x w = (.error s, w') ∧ (x >>= f) w = (.error s, w')) ∨
      ∃ a w', x w = (.ok a, w') ∧ (x >>= f) w = f a w' := by
  rw [bind_apply]
  cases h : x w with
  | mk r w' =>
    cases r with
    | error s => exact .inl ⟨s, w', rfl, rfl⟩
    | ok a => exact .inr ⟨a, w', rfl, rfl⟩

theorem bind_ok {x : Action α} {f : α → Action β} {w w' : World} {b : β}
    (h : (x >>= f) w = (.ok b, w')) : ∃ a w₁, x w = (.ok a, w₁) ∧ f a w₁ = (.ok b, w') := by
  rcases bind_cases x f w with ⟨s, w₁, _, hstop⟩ | ⟨a, w₁, hx, hrun⟩
  · rw [hstop] at h
    cases h
  · exact ⟨a, w₁, hx, hrun.symm.trans h⟩

theorem bind_eq_ok {x : Action α} {f : α → Action β} {w w' : World} {b : β} :
    (x >>= f) w = (.ok b, w') ↔ ∃ a w₁, x w = (.ok a, w₁) ∧ f a w₁ = (.ok b, w') := by
  constructor
  · exact bind_ok
  · rintro ⟨a, w₁, hx, hf⟩
    rw [bind_apply, hx]
    exact hf

theorem bind_eq_error {x : Action α} {f : α → Action β} {w w' : World} {s : Stop} :
    (x >>= f) w = (.error s, w') ↔
      x w = (.error s, w') ∨ ∃ a w₁, x w = (.ok a, w₁) ∧ f a w₁ = (.error s, w') := by
  constructor
  · intro h
    rcases bind_cases x f w with ⟨t, w₁, hx, hstop⟩ | ⟨a, w₁, hx, hrun⟩
    · rw [hstop] at h
      cases h
      exact .inl hx
    · exact .inr ⟨a, w₁, hx, hrun.symm.trans h⟩
  · rintro (hx | ⟨a, w₁, hx, hf⟩)
    · rw [bind_apply, hx]
    · rw [bind_apply, hx]
      exact hf

end Action

/-- Looking an identifier up changes nothing. -/
theorem evaluateWith_symbol (ev : Evaluator) (s : Symbol) (w : World) :
    evaluateWith ev (.symbol s) w = ((w.environment.resolve s.name).mapError .error, w) := rfl

/-- Nor does looking the fields of a struct type up. -/
theorem SpecialForm.registeredFields_apply (type : String) (w : World) :
    registeredFields type w =
      ((w.environment.fields? type).elim (.error (.error (.undefinedStruct type))) .ok, w) := by
  unfold registeredFields
  rw [Action.bind_apply]
  cases h : w.environment.fields? type <;> simp only [Action.environment, h] <;> rfl

theorem evaluateAll_cons {ev : Evaluator} {e : Datum} {es vs : List Datum} {w w' : World}
    (h : evaluateAll ev (e :: es) w = (.ok vs, w')) :
    ∃ u us w₁, vs = u :: us ∧ ev e w = (.ok u, w₁) ∧ evaluateAll ev es w₁ = (.ok us, w') := by
  obtain ⟨u, w₁, hfirst, hthen⟩ := Action.bind_ok h
  obtain ⟨us, w₂, hrest, hresult⟩ := Action.bind_ok hthen
  cases hresult
  exact ⟨u, us, w₁, rfl, hfirst, hrest⟩

theorem length_of_evaluateAll {ev : Evaluator} {es vs : List Datum} {w w' : World}
    (h : evaluateAll ev es w = (.ok vs, w')) : vs.length = es.length := by
  induction es generalizing w vs with
  | nil =>
    cases h
    rfl
  | cons e es ih =>
    obtain ⟨u, us, w₁, rfl, _, hrest⟩ := evaluateAll_cons h
    rw [List.length_cons, List.length_cons, ih hrest]

/-- What an intrinsic runs in the end, and its arguments: `apply` hands its arguments on to another
intrinsic. -/
inductive Intrinsic.HandsTo : Intrinsic → List Datum → Intrinsic → List Datum → Prop
  | self (f : Intrinsic) (args : List Datum) : HandsTo f args f args
  | apply {f g : Intrinsic} {args args' : List Datum} :
      HandsTo f args g args' → HandsTo .apply [.intrinsic f, .list args] g args'

theorem Intrinsic.HandsTo.run_eq {f g : Intrinsic} {args args' : List Datum}
    (h : f.HandsTo args g args') (ev : Evaluator) : f.run ev args = g.run ev args' := by
  induction h with
  | self f args => rfl
  | apply _ ih => rw [Intrinsic.run, ih]

/-- The intrinsics that may stop for a reason of their own that is neither a failure nor an exit. -/
inductive Intrinsic.MayRaise : Intrinsic → Prop
  | operator (o : Operator) : MayRaise (.operator o)
  | load : MayRaise .load
  | readFile : MayRaise .readFile
  | writeFile : MayRaise .writeFile

namespace Action

/-- A relation between actions that the elementary actions of a program respect, and that is
respected when actions are put together. What has been printed may differ between the two sides. -/
structure Relational (Printed : String → String → Prop)
    (R : (α : Type) → Action α → Action α → Prop) : Prop where
  pure {α : Type} (a : α) : R α (Pure.pure a) (Pure.pure a)
  bind {α β : Type} {x y : Action α} {f g : α → Action β} :
    R α x y → (∀ a, R β (f a) (g a)) → R β (x >>= f) (y >>= g)
  fail {α : Type} (e : LispError) : R α (Action.fail e) (Action.fail e)
  exit {α : Type} (code : Int) : R α (Action.stop (.exit code)) (Action.stop (.exit code))
  registeredFields (type : String) :
    R _ (SpecialForm.registeredFields type) (SpecialForm.registeredFields type)
  host {α : Type} {f g : Host → Action α} :
    (∀ h k, h.Alike Printed k → R α (f h) (g k)) → R α (Action.host >>= f) (Action.host >>= g)
  modifyHost {f g : Host → Host} : (∀ h k, h.Alike Printed k → (f h).Alike Printed (g k)) →
    R _ (Action.modifyHost f) (Action.modifyHost g)
  update (bindings : List (String × Datum)) :
    R _ (modifyEnvironment (·.update bindings)) (modifyEnvironment (·.update bindings))
  declare (type : String) (fields : List String) (bindings : List (String × Datum)) :
    R _ (modifyEnvironment fun e => (e.addStruct type fields).update bindings)
      (modifyEnvironment fun e => (e.addStruct type fields).update bindings)
  inScope {α : Type} {x y : Action α} : R α x y → R α (Action.inScope x) (Action.inScope y)
  print : PrintStable Printed

namespace Relational

variable {Printed : String → String → Prop} {R : (α : Type) → Action α → Action α → Prop}
  (hR : Relational Printed R) {ev ev' : Evaluator} (hev : ∀ d, R _ (ev d) (ev' d))
include hR

theorem lift {α : Type} (r : Except LispError α) : R α (liftM r : Action α) (liftM r) := by
  cases r with
  | ok a => exact hR.pure a
  | error e => exact hR.fail e

theorem define (x : String) (d : Datum) : R _ (Action.define x d) (Action.define x d) :=
  hR.update [(x, d)]

theorem runDefineStruct (exprs : List Datum) :
    R _ (SpecialForm.runDefineStruct exprs) (SpecialForm.runDefineStruct exprs) :=
  hR.bind (hR.lift _) fun _ => hR.bind (hR.declare _ _ _) fun _ => hR.pure _

theorem runExit (args : List Datum) : R _ (Intrinsic.runExit args) (Intrinsic.runExit args) := by
  unfold Intrinsic.runExit
  split
  · exact hR.exit 0
  · exact hR.bind (hR.lift _) fun _ => hR.exit _
  · exact hR.fail _

theorem runPrint (terminator : String) (args : List Datum) :
    R _ (Intrinsic.runPrint terminator args) (Intrinsic.runPrint terminator args) :=
  hR.bind (hR.modifyHost fun _ _ hk => { hk with output := hR.print _ _ _ hk.output })
    fun _ => hR.pure _

theorem runReadLine (args : List Datum) :
    R _ (Intrinsic.runReadLine args) (Intrinsic.runReadLine args) := by
  refine hR.bind (hR.lift _) fun _ => hR.host fun h k hk => ?_
  obtain ⟨hh, hk⟩ | ⟨line, h', k', hh, hk, hk'⟩ := hk.readLine?
  · rw [hh, hk]
    exact hR.fail _
  · rw [hh, hk]
    exact hR.bind (hR.modifyHost fun _ _ _ => hk') fun _ => hR.pure _

/-- One level of evaluation, whatever the relation makes of identifiers and of forms. -/
theorem evaluateWith (d : Datum)
    (hsymbol : ∀ s, d = .symbol s → R _ (evaluateWith ev d) (evaluateWith ev' d))
    (hform : ∀ head exprs, d = .list (head :: exprs) →
      R _ (evaluateWith ev d) (evaluateWith ev' d)) :
    R _ (evaluateWith ev d) (evaluateWith ev' d) := by
  unfold DynamicLisp.evaluateWith at hsymbol hform ⊢
  split
  · exact hsymbol _ rfl
  · exact hR.pure _
  · exact hform _ _ rfl
  · exact hR.pure _
  · exact hR.pure _
  · exact hR.pure _

/-! ### What the host raises -/

section
variable (hfault : ∀ {α : Type} (f : HostFault), R α (Action.stop (.fault f)) (Action.stop (.fault f)))
include hfault

theorem liftHost {α : Type} (r : Except HostFault α) : R α (liftM r : Action α) (liftM r) := by
  cases r with
  | ok a => exact hR.pure a
  | error f => exact hfault f

theorem access {α : Type} (report : FileError → LispError) (r : Except HostFault α) :
    R α (Action.access report r) (Action.access report r) := by
  cases r with
  | ok a => exact hR.pure a
  | error f =>
    cases f with
    | system e => exact hR.fail (report e)
    | nulInPath | notText => exact hfault _

theorem resolveFile (name : String) :
    R _ (DynamicLisp.resolveFile name) (DynamicLisp.resolveFile name) := by
  refine hR.host fun h k hk => ?_
  rw [hk.resolve?]
  refine hR.bind (hR.liftHost hfault _) fun found => ?_
  split
  · exact hR.pure _
  · exact hR.fail _

theorem runReadFile (args : List Datum) :
    R _ (Intrinsic.runReadFile args) (Intrinsic.runReadFile args) := by
  refine hR.bind (hR.lift _) fun _ => hR.bind (hR.lift _) fun _ => hR.host fun h k hk => ?_
  rw [hk.files]
  exact hR.bind (hR.access hfault _ _) fun _ => hR.pure _

theorem runWriteFile (args : List Datum) :
    R _ (Intrinsic.runWriteFile args) (Intrinsic.runWriteFile args) := by
  refine hR.bind (hR.lift _) fun (d, c) => hR.bind (hR.lift _) fun _ =>
    hR.bind (hR.lift _) fun _ => hR.host fun h k hk => ?_
  rw [hk.files]
  exact hR.bind (hR.access hfault _ _) fun _ =>
    hR.bind (hR.modifyHost fun _ _ hk => { hk with files := rfl }) fun _ => hR.pure _

end

/-! ### What evaluates -/

include hev

theorem evaluateAll (ds : List Datum) : R _ (evaluateAll ev ds) (evaluateAll ev' ds) := by
  induction ds with
  | nil => exact hR.pure _
  | cons d ds ih => exact hR.bind (hev d) fun _ => hR.bind ih fun _ => hR.pure _

theorem evaluateEach (ds : List Datum) : R _ (evaluateEach ev ds) (evaluateEach ev' ds) := by
  induction ds with
  | nil => exact hR.pure _
  | cons d ds ih => exact hR.bind (hev d) fun _ => ih

theorem applyClosure (params : List String) (variadic : Bool) (body : Datum) (args : List Datum) :
    R _ (applyClosure ev params variadic body args) (applyClosure ev' params variadic body args) :=
  hR.inScope (hR.bind (hR.lift _) fun _ => hR.bind (hR.update _) fun _ => hev body)

theorem runDefine (exprs : List Datum) :
    R _ (SpecialForm.runDefine ev exprs) (SpecialForm.runDefine ev' exprs) := by
  unfold SpecialForm.runDefine
  split
  · refine hR.bind (hR.lift _) fun _ => ?_
    dsimp only
    split
    · exact hR.bind (hR.fail _) fun _ =>
        hR.bind (hev _) fun _ => hR.bind (hR.define _ _) fun _ => hR.pure _
    · exact hR.bind (hev _) fun _ => hR.bind (hR.define _ _) fun _ => hR.pure _
  · exact hR.fail _
  · exact hev _
  · exact hR.fail _
  · exact hR.fail _

theorem runConditional (exprs : List Datum) :
    R _ (SpecialForm.runConditional ev exprs) (SpecialForm.runConditional ev' exprs) := by
  unfold SpecialForm.runConditional
  split
  · refine hR.bind (hev _) fun d => ?_
    split
    · exact hev _
    · exact hR.fail _
  · exact hR.fail _

theorem chooseClause (clauses : List Datum) :
    R _ (SpecialForm.chooseClause ev clauses) (SpecialForm.chooseClause ev' clauses) := by
  fun_induction SpecialForm.chooseClause ev clauses with
  | case1 => exact hR.pure _
  | case2 test value clauses ih =>
    refine hR.bind (hev _) fun d => ?_
    split
    · exact hR.pure _
    · exact ih
    · exact hR.fail _
  | case3 clause _ hpair =>
    rw [SpecialForm.chooseClause.eq_3 _ _ _ hpair]
    exact hR.fail _
  | case4 d _ hpair hlist =>
    rw [SpecialForm.chooseClause.eq_4 _ _ _ hpair hlist]
    exact hR.fail _

theorem runBranches (clauses : List Datum) :
    R _ (SpecialForm.runBranches ev clauses) (SpecialForm.runBranches ev' clauses) := by
  have hchoice := hR.inScope (hR.bind (hR.define "else" (.bool true)) fun _ =>
    hR.chooseClause hev clauses)
  refine hR.bind hchoice fun chosen => ?_
  cases chosen with
  | none => exact hR.pure _
  | some value => exact hev value

theorem bindAll (bindings : List Datum) :
    R _ (SpecialForm.bindAll ev bindings) (SpecialForm.bindAll ev' bindings) := by
  fun_induction SpecialForm.bindAll ev bindings with
  | case1 => exact hR.pure _
  | case2 s value rest ih => exact hR.bind (hev _) fun _ => hR.bind (hR.define _ _) fun _ => ih
  | case3 name _ _ hname =>
    rw [SpecialForm.bindAll.eq_3 _ _ _ _ hname]
    exact hR.fail _
  | case4 binding _ hname hpair =>
    rw [SpecialForm.bindAll.eq_4 _ _ _ hname hpair]
    exact hR.fail _
  | case5 d _ hname hpair hlist =>
    rw [SpecialForm.bindAll.eq_5 _ _ _ hname hpair hlist]
    exact hR.fail _

theorem runBindings (exprs : List Datum) :
    R _ (SpecialForm.runBindings ev exprs) (SpecialForm.runBindings ev' exprs) := by
  unfold SpecialForm.runBindings
  split
  · exact hR.inScope (hR.bind (hR.bindAll hev _) fun _ => hev _)
  · exact hR.fail _
  · exact hR.fail _

theorem runMake (type : String) (exprs : List Datum) :
    R _ (SpecialForm.runMake ev type exprs) (SpecialForm.runMake ev' type exprs) := by
  refine hR.bind (hR.registeredFields type) fun fields => hR.bind (hR.lift _) fun _ => ?_
  rw [mapM_eq_evaluateAll, mapM_eq_evaluateAll]
  exact hR.bind (hR.evaluateAll hev _) fun _ => hR.pure _

theorem runIsA (type : String) (exprs : List Datum) :
    R _ (SpecialForm.runIsA ev type exprs) (SpecialForm.runIsA ev' type exprs) := by
  unfold SpecialForm.runIsA
  split
  · refine hR.bind (hev _) fun d => ?_
    split <;> exact hR.pure _
  · exact hR.fail _

theorem runAccess (type field : String) (exprs : List Datum) :
    R _ (SpecialForm.runAccess ev type field exprs)
      (SpecialForm.runAccess ev' type field exprs) := by
  have hread (values : List Datum) := hR.bind (hR.registeredFields type) fun fields =>
    hR.lift (SpecialForm.fieldOf type field fields values)
  unfold SpecialForm.runAccess
  split
  · refine hR.bind (hev _) fun d => ?_
    split
    · dsimp only
      split
      · exact hR.bind (hR.fail _) fun _ => hread _
      · exact hread _
    · exact hR.fail _
  · exact hR.fail _

theorem special (f : SpecialForm) (exprs : List Datum) :
    R _ (f.run ev exprs) (f.run ev' exprs) := by
  cases f with
  | define => exact hR.runDefine hev exprs
  | lambda => exact hR.lift _
  | conditional => exact hR.runConditional hev exprs
  | branches => exact hR.runBranches hev exprs
  | bindings => exact hR.runBindings hev exprs
  | defineStruct => exact hR.runDefineStruct exprs
  | make type => exact hR.runMake hev type exprs
  | isA type => exact hR.runIsA hev type exprs
  | access type field => exact hR.runAccess hev type field exprs

theorem interpolate (text : List Char) : R _ (interpolate ev text) (interpolate ev' text) := by
  refine hR.bind (hR.lift _) fun exprs => ?_
  split
  · exact hR.fail _
  · exact hR.bind (hR.inScope (hev _)) fun _ => hR.pure _

theorem fillIn (ss : List Section) : R _ (fillIn ev ss) (fillIn ev' ss) := by
  fun_induction DynamicLisp.fillIn ev ss with
  | case1 => exact hR.pure _
  | case2 text ss ih => exact hR.bind ih fun _ => hR.pure _
  | case3 text ss ih =>
    exact hR.bind (hR.interpolate hev text) fun _ => hR.bind ih fun _ => hR.pure _

theorem runEval (args : List Datum) : R _ (Intrinsic.runEval ev args) (Intrinsic.runEval ev' args) :=
  hR.bind (hR.lift _) fun _ => hR.bind (hR.lift _) fun _ => hev _

theorem runFormat (args : List Datum) :
    R _ (Intrinsic.runFormat ev args) (Intrinsic.runFormat ev' args) :=
  hR.bind (hR.lift _) fun _ => hR.bind (hR.lift _) fun _ => hR.bind (hR.lift _) fun _ =>
    hR.bind (hR.fillIn hev _) fun _ => hR.pure _

/-- An intrinsic, if what it runs in the end is related to itself where that may stop for a reason of
its own. The induction is on what `apply` hands on to another intrinsic. -/
theorem intrinsic (f : Intrinsic) (args : List Datum)
    (hraise : ∀ g args', f.HandsTo args g args' → g.MayRaise →
      R _ (g.run ev args') (g.run ev' args')) :
    R _ (f.run ev args) (f.run ev' args) := by
  fun_induction Intrinsic.run ev f args with
  | case1 =>
    rw [Intrinsic.run]
    exact hR.applyClosure hev _ _ _ _
  | case2 f args ih =>
    rw [Intrinsic.run]
    exact ih fun g args' h => hraise g args' (.apply h)
  | case3 =>
    rw [Intrinsic.run]
    exact hR.fail _
  | case4 _ _ hclosure hintrinsic hspecial =>
    rw [Intrinsic.run.eq_4 _ _ _ hclosure hintrinsic hspecial]
    exact hR.fail _
  | case5 _ _ hclosure hintrinsic hspecial hlist =>
    rw [Intrinsic.run.eq_5 _ _ _ hclosure hintrinsic hspecial hlist]
    exact hR.fail _
  | case6 _ hclosure hintrinsic hspecial hlist hpair =>
    rw [Intrinsic.run.eq_6 _ _ hclosure hintrinsic hspecial hlist hpair]
    exact hR.fail _
  | case7 o args => simpa only [Intrinsic.run] using hraise _ _ (.self _ args) (.operator o)
  | case8 =>
    rw [Intrinsic.run]
    exact hR.runEval hev _
  | case9 =>
    rw [Intrinsic.run]
    exact hR.runFormat hev _
  | case10 args => simpa only [Intrinsic.run] using hraise _ _ (.self _ args) .load
  | case11 =>
    rw [Intrinsic.run]
    exact hR.runExit _
  | case12 | case13 =>
    rw [Intrinsic.run]
    exact hR.runPrint _ _
  | case14 =>
    rw [Intrinsic.run]
    exact hR.runReadLine _
  | case15 args => simpa only [Intrinsic.run] using hraise _ _ (.self _ args) .readFile
  | case16 args => simpa only [Intrinsic.run] using hraise _ _ (.self _ args) .writeFile

theorem call (head : Datum) (exprs : List Datum)
    (hintrinsic : ∀ f args, head = .intrinsic f → R _ (f.run ev args) (f.run ev' args)) :
    R _ (call ev head exprs) (call ev' head exprs) := by
  unfold DynamicLisp.call
  split
  · exact hR.bind (hR.evaluateAll hev _) fun _ => hR.applyClosure hev _ _ _ _
  · exact hR.bind (hR.evaluateAll hev _) fun args => hintrinsic _ args rfl
  · exact hR.special hev _ _
  · exact hR.fail _

/-! ### Intrinsics that may raise -/

section
variable (hfault : ∀ {α : Type} (f : HostFault), R α (Action.stop (.fault f)) (Action.stop (.fault f)))
include hfault

theorem importFile (p : Path) : R _ (importFile ev p) (importFile ev' p) := by
  refine hR.host fun h k hk => ?_
  rw [hk.files]
  exact hR.bind (hR.access hfault _ _) fun _ => hR.bind (hR.lift _) fun _ =>
    hR.bind (hR.evaluateEach hev _) fun _ => hR.pure _

theorem runLoad (args : List Datum) : R _ (Intrinsic.runLoad ev args) (Intrinsic.runLoad ev' args) :=
  hR.bind (hR.lift _) fun _ => hR.bind (hR.lift _) fun _ =>
    hR.bind (hR.resolveFile hfault _) fun _ => hR.importFile hev hfault _

/-- An intrinsic, if every operator is related to itself. -/
theorem everyIntrinsic (hoperator : ∀ o args, R _ (Action.ofExcept (Operator.run args o))
    (Action.ofExcept (o.run args))) (f : Intrinsic) (args : List Datum) :
    R _ (f.run ev args) (f.run ev' args) := by
  refine hR.intrinsic hev f args fun g args' _ hg => ?_
  cases hg with
  | operator o =>
    rw [Intrinsic.run, Intrinsic.run]
    exact hoperator o args'
  | load =>
    rw [Intrinsic.run, Intrinsic.run]
    exact hR.runLoad hev hfault args'
  | readFile =>
    rw [Intrinsic.run, Intrinsic.run]
    exact hR.runReadFile hfault args'
  | writeFile =>
    rw [Intrinsic.run, Intrinsic.run]
    exact hR.runWriteFile hfault args'

/-- A form, if every operator is related to itself. -/
theorem form (hoperator : ∀ o args, R _ (Action.ofExcept (Operator.run args o))
    (Action.ofExcept (o.run args))) (head : Datum) (exprs : List Datum) :
    R _ (DynamicLisp.evaluateWith ev (.list (head :: exprs)))
      (DynamicLisp.evaluateWith ev' (.list (head :: exprs))) :=
  hR.bind (hev head) fun v => hR.call hev v exprs fun f args _ =>
    hR.everyIntrinsic hev hfault hoperator f args

end

end Relational

end Action

end DynamicLisp
