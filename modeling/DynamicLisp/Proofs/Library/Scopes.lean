import DynamicLisp.Proofs.Evaluation.Limit
import DynamicLisp.Proofs.Evaluation.StructOperators

/-! Computations in scopes that bind only the names the library keeps for itself. Many of them do there
what some computation does without these scopes (`Lifts`). -/
namespace DynamicLisp

/-- The environment with more scopes opened in it. -/
def Environment.under (extra : List Scope) (e : Environment) : Environment :=
  { e with inner := extra ++ e.inner }

def World.under (extra : List Scope) (w : World) : World :=
  { w with environment := w.environment.under extra }

theorem Environment.resolve_under_cons {s : Scope} {extra : List Scope} {e : Environment} {x : String}
    (hx : superName? x = none) : (e.under (s :: extra)).resolve x =
      (s.find? x).elim ((e.under extra).resolve x) .ok := by
  rw [resolve, resolve, hx]
  dsimp only [get?, lookupIn, under, List.cons_append]
  rw [List.findSome?_cons]
  cases s.find? x with
  | none => rfl
  | some d => rfl

namespace Library

/-- The names that the library keeps for itself, and the one that a `cond` binds. -/
def OwnName (x : String) : Prop := "lib/".toList <+: x.toList ∨ x = "else"

instance : DecidablePred OwnName := fun _ => inferInstanceAs (Decidable (_ ∨ _))

/-- Scopes that bind only such names. -/
def Auxiliary (extra : List Scope) : Prop :=
  ∀ s ∈ extra, ∀ x, (s.find? x).isSome → OwnName x

variable {extra : List Scope} {s : Scope} {params : List String} {args : List Datum} {x : String}

theorem auxiliary_nil : Auxiliary [] := List.forall_mem_nil _

theorem Auxiliary.cons (h : Auxiliary extra) (hs : ∀ x, (s.find? x).isSome → OwnName x) :
    Auxiliary (s :: extra) := List.forall_mem_cons.2 ⟨hs, h⟩

/-- The scope in which the body of a closure is evaluated. -/
def frame (params : List String) (args : List Datum) : Scope := Table.empty.update (params.zip args)

theorem Auxiliary.frame (h : Auxiliary extra) (args : List Datum)
    (hparams : ∀ x ∈ params, OwnName x) : Auxiliary (frame params args :: extra) := by
  refine h.cons fun x hx => by_contra fun hown => ?_
  have hmem : x ∉ (params.zip args).map Prod.fst := fun hmem => by
    obtain ⟨p, hp, rfl⟩ := List.mem_map.1 hmem
    exact hown (hparams p.1 (List.of_mem_zip hp).1)
  rw [Library.frame, Table.find?_update_of_not_mem hmem] at hx
  cases hx

/-- The scope in which the tests of a `cond` are evaluated. -/
def elseScope : Scope := Table.empty.set "else" (.bool true)

theorem find?_elseScope (hx : x ≠ "else") : elseScope.find? x = none := by
  rw [elseScope, Table.find?_set, if_neg hx.symm, Table.find?_empty]

theorem Auxiliary.elseScope (h : Auxiliary extra) : Auxiliary (elseScope :: extra) := by
  refine h.cons fun x hx => by_contra fun hown => ?_
  rw [find?_elseScope fun he => hown (.inr he)] at hx
  cases hx

/-- Other names have the same meaning in such scopes. -/
theorem Auxiliary.resolve {e : Environment} (h : Auxiliary extra) (hx : superName? x = none)
    (hown : ¬ OwnName x) : (e.under extra).resolve x = e.resolve x := by
  induction extra with
  | nil => rfl
  | cons s extra ih =>
    obtain ⟨hs, hextra⟩ := List.forall_mem_cons.1 h
    have hnone : s.find? x = none := Option.not_isSome_iff_eq_none.1 fun hsome => hown (hs x hsome)
    rw [Environment.resolve_under_cons hx, hnone]
    exact ih hextra

/-! ### Computations with and without scopes -/

variable {α β γ : Type} {I : Environment → Prop}

/-- In environments with the property, and unless the second computation runs away, the first one does
in additional scopes what the second one does without them, and the property remains. -/
def Lifts (I : Environment → Prop) (extra : List Scope) (x y : Action α) : Prop :=
  ∀ u : World, I u.environment → (y u).1 ≠ .error .runaway →
    I (y u).2.environment ∧ x (u.under extra) = ((y u).1, (y u).2.under extra)

/-- A name has a value in the scopes above every environment with the property. -/
def Finds (I : Environment → Prop) (extra : List Scope) (x : String) (d : Datum) : Prop :=
  ∀ e, I e → (e.under extra).resolve x = .ok d

theorem Finds.here {d : Datum} (hx : superName? x = none) (hs : s.find? x = some d) :
    Finds I (s :: extra) x d := by
  intro e _
  rw [Environment.resolve_under_cons hx, hs]
  rfl

theorem Finds.skip {d : Datum} (h : Finds I extra x d) (hx : superName? x = none)
    (hs : s.find? x = none) : Finds I (s :: extra) x d := by
  intro e he
  rw [Environment.resolve_under_cons hx, hs]
  exact h e he

namespace Lifts

variable {x : Action α} {y : Action β} {g : α → Action γ} {h : β → Action γ}

theorem of_pure {x : Action α} {a : α} (h : ∀ u : World, I u.environment →
    x (u.under extra) = (.ok a, u.under extra)) : Lifts I extra x (pure a) :=
  fun u hu _ => ⟨hu, h u hu⟩

theorem ofExcept (r : Except Stop α) : Lifts I extra (Action.ofExcept r) (Action.ofExcept r) :=
  fun _ hu _ => ⟨hu, rfl⟩

theorem bind_map {φ : β → α} (hx : Lifts I extra x (φ <$> y)) (hg : ∀ b, Lifts I extra (g (φ b)) (h b)) :
    Lifts I extra (x >>= g) (y >>= h) := by
  intro u hu hends
  have hfirst := hx u hu
  rw [map_eq_pure_bind, Action.bind_apply] at hfirst
  rw [Action.bind_apply] at hends ⊢
  rw [Action.bind_apply]
  rcases hy : y u with ⟨stop | b, v⟩
  · rw [hy] at hfirst hends
    have hstop : stop ≠ .runaway := fun he => hends (congrArg Except.error he)
    obtain ⟨hv, hrun⟩ := hfirst fun he => hstop (Except.error.inj he)
    rw [hrun]
    exact ⟨hv, rfl⟩
  · rw [hy] at hfirst hends
    obtain ⟨hv, hrun⟩ := hfirst nofun
    obtain ⟨hw, hrest⟩ := hg b v hv hends
    rw [hrun]
    exact ⟨hw, hrest⟩

theorem bind {x y : Action α} {g h : α → Action γ} (hx : Lifts I extra x y)
    (hg : ∀ a, Lifts I extra (g a) (h a)) : Lifts I extra (x >>= g) (y >>= h) :=
  bind_map (by rwa [id_map']) hg

/-- A computation may begin with one that only finds a value. -/
theorem after {a : α} {y : Action γ} (hx : Lifts I extra x (pure a)) (hg : Lifts I extra (g a) y) :
    Lifts I extra (x >>= g) y :=
  bind_map (y := pure ()) (h := fun _ => y) hx fun _ => hg

theorem inScope {x y : Action α} (f : Scope → Scope) (hx : Lifts I (f .empty :: extra) x y) :
    Lifts I extra (Action.inScope do
      Action.modifyEnvironment (·.modifyInnermost f)
      x) y := by
  intro u hu hends
  obtain ⟨hv, hrun⟩ := hx u hu hends
  have hbody : (do
      Action.modifyEnvironment (·.modifyInnermost f)
      x) { u.under extra with environment := (u.under extra).environment.enter } =
        ((y u).1, (y u).2.under (f .empty :: extra)) := hrun
  refine ⟨hv, ?_⟩
  unfold Action.inScope
  rw [hbody]
  rfl

theorem applyClosure {ev : Evaluator} {body : Datum} {y : Action Datum}
    (hlength : args.length = params.length) (hbody : Lifts I (frame params args :: extra) (ev body) y) :
    Lifts I extra (applyClosure ev params false body args) y := by
  have hbindings : bindArguments params false args = .ok (params.zip args) := if_pos hlength
  rw [DynamicLisp.applyClosure, hbindings]
  exact inScope (·.update (params.zip args)) hbody

end Lifts

/-- A computation that keeps the property of the environment, and that the names of the library's own
do not matter for. -/
def Detached (I : Environment → Prop) (x : Action α) : Prop :=
  ∀ extra, Auxiliary extra → Lifts I extra x x

end Library

end DynamicLisp
