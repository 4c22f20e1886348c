import DynamicLisp.Proofs.Evaluation.Invariant
import DynamicLisp.Proofs.Evaluation.NestedLet

/-! Identifiers that skip the innermost scope. While something is evaluated in a scope of its own, such
an identifier has there the meaning that its name had around it (`super_scope`). -/
namespace DynamicLisp

theorem superName?_mark (x : String) : superName? (superMark ++ x) = some x := by
  have hprefix : superMark.toList.isPrefixOf (superMark ++ x).toList := by
    rw [String.toList_append, List.isPrefixOf_iff_prefix]
    exact List.prefix_append _ _
  have hlength : superMark.length = superMark.toList.length := rfl
  rw [superName?, if_pos hprefix, hlength, String.toList_append, List.drop_left,
    String.ofList_toList]

namespace Environment

variable {e e₀ : Environment} {x : String}

theorem getSuper?_of_tail (h : e.scopes.tail = e₀.scopes) (x : String) :
    e.getSuper? x = e₀.get? x := by
  obtain ⟨e', hexit, hscopes⟩ := exists_exit h
  rw [← get?_congr hscopes]
  unfold exit? at hexit
  split at hexit <;> cases hexit
  rename_i s inner hinner
  rw [getSuper?, get?, hinner]
  rfl

theorem getSuper?_base (h : e.depth = 0) (x : String) : e.getSuper? x = e.get? x := by
  rw [getSuper?, get?, List.eq_nil_of_length_eq_zero h]
  rfl

theorem resolve_mark (h : e.getSuper? x = e₀.get? x) (hx : superName? x = none) :
    e.resolve (superMark ++ x) = e₀.resolve x := by
  rw [resolve, resolve, superName?_mark, hx]
  dsimp only
  rw [h]

end Environment

/-! ### The scopes around -/

variable {watched : Datum → World → Bool} {limit : Nat} {w w' : World} {d' : Datum}

/-- No moment above the scopes is watched for. -/
def UnwatchedAbove (scopes : List Scope) (watched : Datum → World → Bool) : Prop :=
  ∀ d w, scopes <:+ w.environment.scopes.tail → watched d w = false

theorem evaluateUntil_framesAbove {scopes : List Scope} (h : UnwatchedAbove scopes watched)
    (limit : Nat) (d : Datum) : Action.FramesAbove scopes _ (evaluateUntil watched limit d) := by
  induction limit generalizing d with
  | zero => exact fun w _ => ⟨.refl _, nofun⟩
  | succ limit ih =>
    intro w hw
    rw [evaluateUntil_of_unwatched (h d w hw)]
    exact (Action.framesAbove_compositional scopes).evaluateWith ih d w hw

/-- What is evaluated in a scope of its own: the body of a closure, the bindings and the body of a
`let`, the expression in a section of a template. -/
inductive Scoped
  | call (params : List String) (variadic : Bool) (body : Datum) (args : List Datum)
  | bindings (exprs : List Datum)
  | interpolation (text : List Char)

namespace Scoped

variable {c : Scoped}

def run (ev : Evaluator) : Scoped → Action Datum
  | call params variadic body args => applyClosure ev params variadic body args
  | bindings exprs => SpecialForm.runBindings ev exprs
  | interpolation text => do
    let s ← interpolate ev text
    return .string s

/-- In the scope an expression comes to be evaluated in a world: whatever else is watched for, to watch
for this moment breaks the evaluation off. -/
def ComesTo (c : Scoped) (limit : Nat) (w : World) (d' : Datum) (w' : World) : Prop :=
  ∀ watched, watched d' w' = true → (c.run (evaluateUntil watched limit) w).1 = .error .noScope

/-- The scope is entered above the scopes around it. -/
theorem run_keepsBase (h : UnwatchedAbove w.environment.scopes watched) (limit : Nat) (c : Scoped) :
    KeepsBase (c.run (evaluateUntil watched limit) w).1 := by
  have hK := Action.framesAbove_compositional w.environment.scopes
  have hev := evaluateUntil_framesAbove h limit
  have hscope {α : Type} {x : Action α} (hx : Action.FramesAbove w.environment.scopes α x) :
      w.environment.Framed (Action.inScope x w).2.environment ∧ KeepsBase (Action.inScope x w).1 :=
    Action.framed_inScope (hx w.enter (List.suffix_refl _))
  cases c with
  | call params variadic body args =>
    exact (hscope (hK.bind (hK.relational.lift _).2 fun _ => hK.bind (hK.update _) fun _ => hev body)).2
  | bindings exprs =>
    rw [run]
    unfold SpecialForm.runBindings
    split
    · rename_i pairs body
      have hpairs := (hK.relational.bindAll (fun d => ⟨rfl, hev d⟩) pairs).2
      exact (hscope (hK.bind hpairs fun _ => hev body)).2
    · exact nofun
    · exact nofun
  | interpolation text =>
    have hread := (Action.frames_compositional.relational.lift (readSource text)).2 w
    refine (Action.framed_bind (Action.framed_bind hread ?_) fun s _ _ _ => ⟨.refl _, .ok _⟩).2
    intro exprs w₁ hstep _
    obtain rfl : w = w₁ := congrArg Prod.snd hstep
    cases exprs with
    | nil => exact ⟨.refl _, nofun⟩
    | cons d exprs => exact Action.framed_bind (hscope (hev d)) fun v _ _ _ => ⟨.refl _, .ok _⟩

/-- At every moment in the scope the scopes around it are below it, as they were. -/
theorem ComesTo.above (h : c.ComesTo limit w d' w') :
    w.environment.scopes <:+ w'.environment.scopes.tail := by
  by_contra hnot
  let watched := moments fun _ u => ¬ w.environment.scopes <:+ u.environment.scopes.tail
  have hunwatched : UnwatchedAbove w.environment.scopes watched := fun d u hu =>
    moments_eq_false.2 (not_not_intro hu)
  exact run_keepsBase hunwatched limit c (h watched (moments_iff.2 hnot))

/-- The value of a binding is come to once the bindings before it have been made. -/
theorem comesTo_value {s : Symbol} {value body : Datum} (before rest : List Datum)
    (h : SpecialForm.bindAll (evaluate (limit + 1)) before w.enter = (.ok (), w')) :
    (bindings [.list (before ++ .list [.symbol s, value] :: rest), body]).ComesTo (limit + 1) w
      value w' := by
  intro watched hwatched
  let ev := evaluateUntil watched (limit + 1)
  let pairs := before ++ .list [.symbol s, value] :: rest
  have hR : Action.Relational (· = ·) (Action.Mirrors (· = ·) (· = ·) (· = .noScope)) :=
    Action.mirrors_relational Environment.tie_eq .eq
  have hev := Action.evaluateUntil_mirrors_evaluate watched (limit + 1)
  have hvalue : ev value w' = (.error .noScope, w') := evaluateUntil_of_watched hwatched limit
  have hstops : ((SpecialForm.bindAll ev pairs >>= fun _ => ev body) w.enter).1 =
      .error .noScope := by
    obtain ⟨-, hrun⟩ := hR.bindAll hev before w.enter w.enter (.refl _)
    rw [h] at hrun
    rw [SpecialForm.bindAll_append, bind_assoc, Action.bind_apply]
    generalize SpecialForm.bindAll ev before w.enter = p at hrun
    obtain ⟨r, u⟩ := p
    dsimp only at hrun
    rcases hrun with ⟨_, rfl, rfl⟩ | ⟨rfl, -, htied⟩
    · rfl
    · obtain rfl := htied.eq
      rw [SpecialForm.bindAll, bind_assoc]
      dsimp only
      rw [Action.bind_apply, hvalue]
  obtain ⟨hframed, -⟩ := hR.bind (hR.bindAll hev pairs) (fun _ => hev body) w.enter w.enter (.refl _)
  have hscope := Action.inScope_apply hframed
  exact (congrArg Prod.fst hscope).trans hstops

end Scoped

/-- Whatever has been evaluated in a scope before, while it is the innermost one an identifier that skips
it has the meaning its name had when the scope was entered, if any; for the scopes around it stay below
all that is opened in it. In the base scope such an identifier has the meaning of its name. -/
theorem super_scope (w : World) :
    (∀ (c : Scoped) limit d' w', c.ComesTo limit w d' w' →
      w.environment.scopes <:+ w'.environment.scopes.tail ∧
      (w'.environment.depth = w.environment.depth + 1 → ∀ x, superName? x = none →
        w'.environment.resolve (superMark ++ x) = w.environment.resolve x)) ∧
    (w.environment.depth = 0 → ∀ x, superName? x = none →
      w.environment.resolve (superMark ++ x) = w.environment.resolve x) := by
  refine ⟨fun c limit d' w' h => ⟨h.above, fun hdepth x hx => ?_⟩, fun hdepth x hx => ?_⟩
  · have htail : w'.environment.scopes.tail = w.environment.scopes := by
      refine (h.above.eq_of_length ?_).symm
      rw [List.length_tail, Environment.length_scopes, Environment.length_scopes, hdepth]
      rfl
    exact Environment.resolve_mark (Environment.getSuper?_of_tail htail x) hx
  · exact Environment.resolve_mark (Environment.getSuper?_base hdepth x) hx

/-- In the second binding of a `let` the first one is skipped. -/
theorem super_scope_let :
    let w : World := ⟨Environment.empty.define "x" (.string "outer"), default⟩
    let w' : World := ⟨w.environment.enter.define "x" (.string "inner"), default⟩
    let c : Scoped := .bindings [.list [.list [.name "x", .string "inner"],
      .list [.name "y", .name "#super:x"]], .name "y"]
    c.ComesTo 1 w (.name "#super:x") w' ∧ w'.environment.resolve "x" = .ok (.string "inner") ∧
      w'.environment.resolve "#super:x" = .ok (.string "outer") := by
  intro w w' c
  have hcomes : c.ComesTo 1 w (.name "#super:x") w' :=
    Scoped.comesTo_value [.list [.name "x", .string "inner"]] [] rfl
  have hsuper := ((super_scope w).1 c 1 _ w' hcomes).2 rfl "x" (by decide)
  exact ⟨hcomes, rfl, hsuper⟩

end DynamicLisp
