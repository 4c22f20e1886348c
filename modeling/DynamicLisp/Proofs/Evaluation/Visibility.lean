import DynamicLisp.Proofs.Evaluation.Mirror

/-! Which parts of the environment an evaluation sees. How the bindings are spread over the scopes is
seen by identifiers that skip the innermost scope, and by nothing else (`evaluate_agree`). -/
namespace DynamicLisp

namespace Environment

/-- Every name has the same value in both environments, and every struct type the same fields. -/
structure Agree (e e' : Environment) : Prop where
  names (x : String) : e.get? x = e'.get? x
  types (t : String) : e.fields? t = e'.fields? t

theorem update_nil (e : Environment) : e.update [] = e := by
  obtain ⟨inner, base, structs⟩ := e
  cases inner <;> rfl

theorem update_cons (e : Environment) (x : String) (d : Datum) (bindings : List (String × Datum)) :
    e.update ((x, d) :: bindings) = (e.define x d).update bindings := by
  unfold update define modifyInnermost
  cases e.inner <;> rfl

theorem get?_congr {e e' : Environment} (h : e.scopes = e'.scopes) (x : String) :
    e.get? x = e'.get? x := by
  obtain ⟨hinner, hbase⟩ := scopes_inj h
  rw [get?, get?, hinner, hbase]

namespace Agree

variable {e e' e'' : Environment}

/-- A scope in which nothing is bound is not seen. -/
theorem enter (e : Environment) : e.enter.Agree e := ⟨e.get?_enter, fun _ => rfl⟩

theorem trans (h : e.Agree e') (h' : e'.Agree e'') : e.Agree e'' :=
  ⟨fun x => (h.names x).trans (h'.names x), fun t => (h.types t).trans (h'.types t)⟩

theorem define (h : e.Agree e') (x : String) (d : Datum) :
    (e.define x d).Agree (e'.define x d) where
  names y := by rw [get?_define, get?_define, h.names]
  types t := by
    rw [Environment.define, Environment.define, fields?, fields?, structs_modifyInnermost,
      structs_modifyInnermost]
    exact h.types t

theorem update (h : e.Agree e') (bindings : List (String × Datum)) :
    (e.update bindings).Agree (e'.update bindings) := by
  induction bindings generalizing e e' with
  | nil =>
    rw [update_nil, update_nil]
    exact h
  | cons b bindings ih =>
    rw [update_cons, update_cons]
    exact ih (h.define b.1 b.2)

theorem tie : Tie Agree where
  fields? h := h.types
  enter h := ⟨fun x => by rw [get?_enter, get?_enter, h.names], h.types⟩
  update bindings h := h.update bindings
  addStruct type fields h := by
    refine ⟨h.names, fun t => ?_⟩
    have ht := h.types t
    simp only [fields?] at ht
    simp only [fields?, addStruct, Table.find?_set, ht]
  exit := by
    intro e e' f f' g g' h hf hg hs hg' hs'
    refine ⟨fun x => ?_, fun t => ?_⟩
    · rw [get?_congr hg, get?_congr hg', h.names]
    · rw [fields?, fields?, hs, hs']
      exact hf.types t

end Agree

end Environment

/-- An identifier is about to be looked up that skips the innermost scope. -/
def skipsScope (d : Datum) (_ : World) : Bool :=
  match d with
  | .symbol s => (superName? s.name).isSome
  | _ => false

theorem resolve_eq {s : Symbol} {w w' : World} (h : w.environment.Agree w'.environment)
    (hs : skipsScope (.symbol s) w = false) :
    w.environment.resolve s.name = w'.environment.resolve s.name := by
  have hname : superName? s.name = none :=
    Option.isNone_iff_eq_none.1 (Option.isSome_eq_false_iff.1 hs)
  rw [Environment.resolve, Environment.resolve, hname]
  dsimp only
  rw [h.names]

/-- Two environments in which every name has the same value and every struct type the same fields
cannot be told apart by an evaluation that looks up no identifier of the kind that skips the innermost
scope: it ends in the same way and prints the same, and the environments that it leaves behind are
again such environments. -/
theorem evaluate_agree (limit : Nat) (d : Datum) (w w' : World)
    (henvironment : w.environment.Agree w'.environment)
    (hhost : w.host.Alike (fun _ _ => True) w'.host)
    (hskips : ¬ Encounters skipsScope limit d w) :
    ∃ r w₁ w₁' printed, evaluate limit d w = (r, w₁) ∧ evaluate limit d w' = (r, w₁') ∧
      w₁.environment.Agree w₁'.environment ∧
      w₁.host.Alike (fun a b => a = w.host.output ++ printed ∧ b = w'.host.output ++ printed)
        w₁'.host := by
  let Printed (a b : String) : Prop :=
    ∃ printed, a = w.host.output ++ printed ∧ b = w'.host.output ++ printed
  have hprint : PrintStable Printed := by
    rintro _ _ s ⟨printed, rfl, rfl⟩
    exact ⟨printed ++ s, String.append_assoc, String.append_assoc⟩
  have hmirrors : Action.Mirrors Environment.Agree Printed (· = .noScope) _
      (evaluateUntil skipsScope limit d) (evaluate limit d) :=
    Action.evaluateUntil_mirrors (· = .noScope) Environment.Agree.tie hprint rfl (.inl rfl)
      (fun _ _ _ htied => resolve_eq htied.environment) d
  have htied : w.Tied Environment.Agree Printed w' :=
    ⟨henvironment, { hhost with output := ⟨"", by simp, by simp⟩ }⟩
  obtain ⟨-, hrun⟩ := hmirrors w w' htied
  rw [evaluateUntil_eq hskips] at hrun
  rcases hrun with ⟨_, rfl, hbroken⟩ | ⟨hr, -, hw⟩
  · exact (hskips (by rw [Encounters, evaluateUntil_eq hskips, hbroken])).elim
  · obtain ⟨printed, hout, hout'⟩ := hw.host.output
    exact ⟨(evaluate limit d w).1, (evaluate limit d w).2, (evaluate limit d w').2, printed, rfl,
      Prod.ext hr.symm rfl, hw.environment, { hw.host with output := ⟨hout, hout'⟩ }⟩

/-- A closure sees the binding that is made around its call, in a scope of its own or not. -/
theorem evaluate_agree_closure :
    let base := Environment.empty.update
      [("let", .special .bindings), ("list", .intrinsic (.operator .list)),
        ("print", .intrinsic .print),
        ("f", .closure [] false (.list [.name "list", .name "x", .name "y"]))]
    let layered : World :=
      ⟨((base.define "y" (.string "b")).enter.define "x" (.string "a")).enter, default⟩
    let flat : World := ⟨(base.define "y" (.string "b")).define "x" (.string "a"), default⟩
    let d : Datum := .list [.name "let", .list [.list [.name "y", .name "x"]],
      .list [.name "list", .list [.name "print", .name "y"], .list [.name "f"]]]
    layered.environment.Agree flat.environment ∧ ¬ Encounters skipsScope 6 d layered ∧
      ∃ v w, evaluate 6 d flat = (.ok v, w) ∧ v.display = "(() (a a))" ∧ w.host.output = "a" := by
  intro base layered flat d
  have hagree : layered.environment.Agree flat.environment :=
    .trans (.enter _) ((Environment.Agree.enter _).define "x" (.string "a"))
  have hskips : ¬ Encounters skipsScope 6 d layered := by decide +kernel
  obtain ⟨r, w₁, w₁', printed, h, h', -, hhost⟩ := evaluate_agree 6 d layered flat hagree
    ⟨rfl, rfl, rfl, trivial⟩ hskips
  have hvalue : (evaluate 6 d layered).1.toOption.map Datum.display = some "(() (a a))" := by
    decide +kernel
  have houtput : (evaluate 6 d layered).2.host.output = "a" := by decide +kernel
  rw [h] at hvalue houtput
  obtain ⟨v, hv, hdisplay⟩ := Option.map_eq_some_iff.1 hvalue
  obtain ⟨s⟩ | ⟨v⟩ := r
  · cases hv
  · cases hv
    refine ⟨hagree, hskips, v, w₁', h', hdisplay, ?_⟩
    rw [hhost.output.2, ← houtput, hhost.output.1]

end DynamicLisp
