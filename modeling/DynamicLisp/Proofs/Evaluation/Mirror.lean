import DynamicLisp.Proofs.Evaluation.Frame

/-! Two evaluations of one expression, side by side. They run in worlds that are tied by a relation
between environments; the first one may be broken off early (`evaluateUntil_mirrors`). -/
namespace DynamicLisp

/-- Evaluates an expression in at most `limit` levels, and breaks off at the first moment that is
watched for: an expression about to be evaluated in a world. It then ends as no evaluation does. -/
def evaluateUntil (watched : Datum → World → Bool) : Nat → Evaluator
  | 0, _ => Action.stop .runaway
  | limit + 1, d => fun w =>
    if watched d w then (.error .noScope, w) else evaluateWith (evaluateUntil watched limit) d w

theorem evaluateUntil_of_watched {watched : Datum → World → Bool} {d : Datum} {w : World}
    (h : watched d w = true) (n : Nat) :
    evaluateUntil watched (n + 1) d w = (.error .noScope, w) := if_pos h

theorem evaluateUntil_of_unwatched {watched : Datum → World → Bool} {d : Datum} {w : World}
    (h : watched d w = false) (n : Nat) :
    evaluateUntil watched (n + 1) d w = evaluateWith (evaluateUntil watched n) d w :=
  if_neg (by simp [h])

/-- The evaluation comes to a moment that is watched for. -/
def Encounters (watched : Datum → World → Bool) (limit : Nat) (d : Datum) (w : World) : Prop :=
  (evaluateUntil watched limit d w).1 = .error .noScope

instance (watched : Datum → World → Bool) (limit : Nat) (d : Datum) (w : World) :
    Decidable (Encounters watched limit d w) :=
  match h : (evaluateUntil watched limit d w).1 with
  | .ok _ => .isFalse (by simp [Encounters, h])
  | .error s => decidable_of_iff (s = .noScope) (by rw [Encounters, h, Except.error.injEq])

/-- A relation between environments that reads of struct types cannot tell from equality and that is
kept by whatever programs do to environments. Of what happens in a scope of its own, only the struct
types remain once the scope has been left. -/
structure Environment.Tie (E : Environment → Environment → Prop) : Prop where
  fields? {e e' : Environment} : E e e' → ∀ type, e.fields? type = e'.fields? type
  enter {e e' : Environment} : E e e' → E e.enter e'.enter
  update {e e' : Environment} (bindings : List (String × Datum)) :
    E e e' → E (e.update bindings) (e'.update bindings)
  addStruct {e e' : Environment} (type : String) (fields : List String) :
    E e e' → E (e.addStruct type fields) (e'.addStruct type fields)
  exit {e e' f f' g g' : Environment} : E e e' → E f f' →
    g.scopes = e.scopes → g.structs = f.structs →
    g'.scopes = e'.scopes → g'.structs = f'.structs → E g g'

theorem Environment.tie_eq : Environment.Tie (· = ·) where
  fields? h _ := h ▸ rfl
  enter h := h ▸ rfl
  update _ h := h ▸ rfl
  addStruct _ _ h := h ▸ rfl
  exit := by
    rintro e _ f _ ⟨inner, base, structs⟩ ⟨inner', base', structs'⟩ rfl rfl hg hs hg' hs'
    obtain ⟨rfl, rfl⟩ : inner = inner' ∧ base = base' := scopes_inj (hg.trans hg'.symm)
    obtain rfl : structs = structs' := hs.trans hs'.symm
    rfl

/-- Worlds with tied environments, and hosts that are equal but for what has been printed. -/
structure World.Tied (E : Environment → Environment → Prop) (Printed : String → String → Prop)
    (w w' : World) : Prop where
  environment : E w.environment w'.environment
  host : w.host.Alike Printed w'.host

theorem World.Tied.refl (w : World) : w.Tied (· = ·) (· = ·) w := ⟨rfl, .of_eq rfl⟩

theorem World.Tied.eq {w w' : World} (h : w.Tied (· = ·) (· = ·) w') : w = w' := by
  rw [World.mk.injEq]
  exact ⟨h.environment, h.host.eq⟩

namespace Action

variable {E : Environment → Environment → Prop} {Printed : String → String → Prop}
  {broken : Stop → Prop}

/-- Started in tied worlds, the two actions end alike and in tied worlds, unless the first one is
broken off. Both keep the scopes they were started in, as far as they are compared. -/
def Mirrors (E : Environment → Environment → Prop) (Printed : String → String → Prop)
    (broken : Stop → Prop) (α : Type) (x y : Action α) : Prop :=
  ∀ w w' : World, w.Tied E Printed w' → w.environment.Framed (x w).2.environment ∧
    ((∃ s, broken s ∧ (x w).1 = .error s) ∨
      (x w).1 = (y w').1 ∧ w'.environment.Framed (y w').2.environment ∧
        (x w).2.Tied E Printed (y w').2)

namespace Mirrors

/-- The same result at once, in the worlds as they are. -/
theorem result {α : Type} (r : Except Stop α) :
    Mirrors E Printed broken α (fun w => (r, w)) (fun w => (r, w)) :=
  fun _ _ h => ⟨.refl _, .inr ⟨rfl, .refl _, h⟩⟩

/-- Both change the environment and nothing else. -/
theorem modifyEnvironment {f : Environment → Environment}
    (hframed : ∀ e : Environment, e.Framed (f e)) (hf : ∀ {e e'}, E e e' → E (f e) (f e')) :
    Mirrors E Printed broken _ (modifyEnvironment f) (modifyEnvironment f) :=
  fun _ _ h => ⟨hframed _, .inr ⟨rfl, hframed _, hf h.environment, h.host⟩⟩

theorem bind {α β : Type} {x y : Action α} {f g : α → Action β}
    (hx : Mirrors E Printed broken α x y) (hf : ∀ a, Mirrors E Printed broken β (f a) (g a)) :
    Mirrors E Printed broken β (x >>= f) (y >>= g) := by
  intro w w' h
  rw [bind_apply, bind_apply]
  obtain ⟨hw, hrun⟩ := hx w w' h
  generalize x w = p at hw hrun
  generalize y w' = q at hrun
  obtain ⟨r, w₁⟩ := p
  obtain ⟨r', w₁'⟩ := q
  dsimp only at hw hrun
  rcases hrun with ⟨s, hs, rfl⟩ | ⟨rfl, hw', hw₁⟩
  · exact ⟨hw, .inl ⟨s, hs, rfl⟩⟩
  · cases r with
    | error s => exact ⟨hw, .inr ⟨rfl, hw', hw₁⟩⟩
    | ok a =>
      obtain ⟨hw₂, hrun⟩ := hf a w₁ w₁' hw₁
      refine ⟨hw.trans hw₂, hrun.imp id ?_⟩
      rintro ⟨hr, hw₂', htied⟩
      exact ⟨hr, hw'.trans hw₂', htied⟩

/-- Leaving the scope uncovers environments that are tied as they were before it was entered. -/
theorem inScope (hE : Environment.Tie E) {α : Type} {x y : Action α}
    (hx : Mirrors E Printed broken α x y) :
    Mirrors E Printed broken α (Action.inScope x) (Action.inScope y) := by
  intro w w' h
  have henter : w.enter.Tied E Printed w'.enter := ⟨hE.enter h.environment, h.host⟩
  obtain ⟨hw, hrun⟩ := hx w.enter w'.enter henter
  obtain ⟨e, he, hscopes, hstructs, hframed⟩ := inScope_eq hw
  rw [he]
  refine ⟨hframed, hrun.imp id ?_⟩
  rintro ⟨hr, hw', htied⟩
  obtain ⟨e', he', hscopes', hstructs', hframed'⟩ := inScope_eq hw'
  rw [he']
  have hexit : E e e' :=
    hE.exit h.environment htied.environment hscopes hstructs hscopes' hstructs'
  exact ⟨hr, hframed', hexit, htied.host⟩

end Mirrors

theorem mirrors_relational (hE : Environment.Tie E) (hprint : PrintStable Printed) :
    Relational Printed (Mirrors E Printed broken) where
  pure a := .result (.ok a)
  bind := .bind
  fail _ := .result _
  exit _ := .result _
  registeredFields type := by
    intro w w' h
    rw [SpecialForm.registeredFields_apply, SpecialForm.registeredFields_apply,
      hE.fields? h.environment type]
    exact ⟨.refl _, .inr ⟨rfl, .refl _, h⟩⟩
  host hf w w' h := hf w.host w'.host h.host w w' h
  modifyHost hf _ _ h := ⟨.refl _, .inr ⟨rfl, .refl _, h.environment, hf _ _ h.host⟩⟩
  update bindings := .modifyEnvironment (fun _ => .update bindings) (hE.update bindings)
  declare type fields bindings :=
    .modifyEnvironment (fun _ => .trans (.addStruct type fields) (.update bindings))
      fun h => hE.update bindings (hE.addStruct type fields h)
  inScope := .inScope hE
  print := hprint

variable {watched : Datum → World → Bool} {n m : Nat}

/-- An evaluation that may be broken off, beside one in a tied world that goes on. The identifiers
that tied worlds do not resolve alike must be watched for. The first evaluation may be given fewer
levels if running out of them counts as being broken off. -/
theorem evaluateUntil_mirrors (broken : Stop → Prop) (hE : Environment.Tie E)
    (hprint : PrintStable Printed) (hbroken : broken .noScope)
    (hlimit : n = m ∨ n ≤ m ∧ broken .runaway)
    (hsymbol : ∀ (s : Symbol) (w w' : World), w.Tied E Printed w' → watched (.symbol s) w = false →
      w.environment.resolve s.name = w'.environment.resolve s.name) (d : Datum) :
    Mirrors E Printed broken _ (evaluateUntil watched n d) (evaluate m d) := by
  have hR : Relational Printed (Mirrors E Printed broken) := mirrors_relational hE hprint
  induction n generalizing m d with
  | zero =>
    rcases hlimit with rfl | ⟨-, hrunaway⟩
    · exact .result _
    · exact fun _ _ _ => ⟨.refl _, .inl ⟨_, hrunaway, rfl⟩⟩
  | succ n ih =>
    obtain ⟨m, rfl⟩ : ∃ k, m = k + 1 := ⟨m - 1, by omega⟩
    have hbelow : n = m ∨ n ≤ m ∧ broken .runaway :=
      hlimit.imp Nat.succ.inj (And.imp_left Nat.le_of_succ_le_succ)
    have hev (d : Datum) := ih (m := m) hbelow d
    intro w w' h
    rw [evaluate]
    cases hwatched : watched d w with
    | true =>
      rw [evaluateUntil_of_watched hwatched]
      exact ⟨.refl _, .inl ⟨_, hbroken, rfl⟩⟩
    | false =>
      rw [evaluateUntil_of_unwatched hwatched]
      by_cases hd : ∃ s, d = .symbol s
      · obtain ⟨s, rfl⟩ := hd
        rw [evaluateWith_symbol, evaluateWith_symbol, hsymbol s w w' h hwatched]
        exact ⟨.refl _, .inr ⟨rfl, .refl _, h⟩⟩
      · have hlevel : Mirrors E Printed broken _ (evaluateWith (evaluateUntil watched n) d)
            (evaluateWith (evaluate m) d) := by
          apply hR.evaluateWith d
          · exact fun s hs => (hd ⟨s, hs⟩).elim
          · rintro head exprs rfl
            exact hR.form hev (fun _ => .result _) (fun o args => .result _) head exprs
        exact hlevel w w' h

/-- Watching changes nothing up to the moment that is watched for. -/
theorem evaluateUntil_mirrors_evaluate (watched : Datum → World → Bool) (n : Nat) (d : Datum) :
    Mirrors (· = ·) (· = ·) (· = .noScope) _ (evaluateUntil watched n d) (evaluate n d) :=
  evaluateUntil_mirrors (· = .noScope) Environment.tie_eq .eq rfl (.inl rfl)
    (fun _ _ _ htied _ => by rw [htied.environment]) d

end Action

/-- An evaluation that comes to no moment that is watched for is not changed by the watching. -/
theorem evaluateUntil_eq {watched : Datum → World → Bool} {limit : Nat} {d : Datum} {w : World}
    (h : ¬ Encounters watched limit d w) :
    evaluateUntil watched limit d w = evaluate limit d w := by
  obtain ⟨-, ⟨_, rfl, hbroken⟩ | ⟨hr, -, hw⟩⟩ :=
    Action.evaluateUntil_mirrors_evaluate watched limit d w w (.refl w)
  · exact (h hbroken).elim
  · exact Prod.ext hr hw.eq

end DynamicLisp
