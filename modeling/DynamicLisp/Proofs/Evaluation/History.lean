import DynamicLisp.Proofs.Evaluation.Frame

/-! Evaluations as histories: what an evaluation leaves behind is what a list of elementary changes
makes of the world (`evaluate_replay`). -/
namespace DynamicLisp

/-- An elementary change of the world. -/
inductive Change
  | enter
  | leave
  | bind (bindings : List (String × Datum))
  | register (type : String) (fields : List String)
  | host (h : Host)

namespace Change

/-- The world after a change. Leaving the base scope changes nothing. -/
def apply (w : World) : Change → World
  | enter => { w with environment := w.environment.enter }
  | leave => { w with environment := w.environment.exit?.getD w.environment }
  | bind bindings => { w with environment := w.environment.update bindings }
  | register type fields => { w with environment := w.environment.addStruct type fields }
  | host h => { w with host := h }

end Change

namespace World

variable {w w' : World} {cs : List Change} {type : String}

def replay (w : World) (cs : List Change) : World := cs.foldl Change.apply w

theorem replay_append (w : World) (cs ds : List Change) :
    w.replay (cs ++ ds) = (w.replay cs).replay ds := List.foldl_append

/-- The second world comes after the first one, and the struct type was not registered since. -/
def Spares (type : String) (w w' : World) : Prop :=
  ∃ cs, w' = w.replay cs ∧ ∀ fields, Change.register type fields ∉ cs

theorem Spares.refl (type : String) (w : World) : Spares type w w := ⟨[], rfl, fun _ => List.not_mem_nil⟩

/-- Only a registration changes the fields of a type. -/
theorem fields?_apply {c : Change} (h : ∀ fields, c ≠ .register type fields) :
    (c.apply w).environment.fields? type = w.environment.fields? type := by
  cases c with
  | enter => rfl
  | leave =>
    cases he : w.environment.exit? with
    | none => simp [Change.apply, he]
    | some e =>
      simp only [Change.apply, he, Option.getD_some, Environment.fields?,
        Environment.structs_exit he]
  | bind bindings =>
    simp only [Change.apply, Environment.fields?, Environment.update,
      Environment.structs_modifyInnermost]
  | register type' fields =>
    have hne : type' ≠ type := by
      rintro rfl
      exact h fields rfl
    simp only [Change.apply, Environment.fields?, Environment.addStruct, Table.find?_set,
      if_neg hne]
  | host h => rfl

theorem Spares.fields? (h : Spares type w w') :
    w'.environment.fields? type = w.environment.fields? type := by
  obtain ⟨cs, rfl, hcs⟩ := h
  induction cs generalizing w with
  | nil => rfl
  | cons c cs ih =>
    have hc : ∀ fields, c ≠ .register type fields := by
      rintro fields rfl
      exact hcs fields List.mem_cons_self
    have hrest : ∀ fields, Change.register type fields ∉ cs := fun fields hmem =>
      hcs fields (List.mem_cons_of_mem c hmem)
    exact (ih hrest).trans (fields?_apply hc)

/-- A struct type stays registered, with the fields that it had or with those of a later registration. -/
theorem fields?_replay {fields : List String} (h : w.environment.fields? type = some fields)
    (cs : List Change) : ∃ fields', (w.replay cs).environment.fields? type = some fields' ∧
      (fields' = fields ∨ Change.register type fields' ∈ cs) := by
  induction cs generalizing w fields with
  | nil => exact ⟨fields, h, .inl rfl⟩
  | cons c cs ih =>
    by_cases hc : ∃ later, c = .register type later
    · obtain ⟨later, rfl⟩ := hc
      have hlater : (Change.apply w (.register type later)).environment.fields? type = some later := by
        simp only [Change.apply, Environment.fields?, Environment.addStruct, Table.find?_set, if_true]
      obtain ⟨fields', hfields', rfl | hmem⟩ := ih hlater
      · exact ⟨fields', hfields', .inr List.mem_cons_self⟩
      · exact ⟨fields', hfields', .inr (List.mem_cons_of_mem _ hmem)⟩
    · have hsame := fields?_apply (w := w) (c := c) fun later hlater => hc ⟨later, hlater⟩
      obtain ⟨fields', hfields', hor⟩ := ih (hsame.trans h)
      exact ⟨fields', hfields', hor.imp id (List.mem_cons_of_mem c)⟩

end World

namespace Action

/-- However the action ends, the world is changed by elementary changes. -/
def Replays (α : Type) (x : Action α) : Prop := ∀ w, ∃ cs, (x w).2 = w.replay cs

theorem Replays.bind {α β : Type} {x : Action α} {f : α → Action β} (hx : Replays α x)
    (hf : ∀ a, Replays β (f a)) : Replays β (x >>= f) := by
  intro w
  obtain ⟨cs, hcs⟩ := hx w
  rcases bind_cases x f w with ⟨s, w', hstop, h⟩ | ⟨a, w', hstep, h⟩
  · rw [hstop] at hcs
    rw [h]
    exact ⟨cs, hcs⟩
  · rw [hstep] at hcs
    rw [h]
    obtain ⟨ds, hds⟩ := hf a w'
    refine ⟨cs ++ ds, hds.trans ?_⟩
    rw [World.replay_append, ← hcs]

theorem Replays.inScope {α : Type} {x : Action α} (hx : Replays α x) :
    Replays α (Action.inScope x) := by
  intro w
  obtain ⟨cs, hcs⟩ := hx { w with environment := w.environment.enter }
  refine ⟨.enter :: cs ++ [.leave], ?_⟩
  have hreplay : w.replay (.enter :: cs ++ [.leave]) =
      Change.leave.apply (x { w with environment := w.environment.enter }).2 := by
    rw [World.replay_append, hcs]
    rfl
  rw [hreplay]
  unfold Action.inScope Change.apply
  dsimp only
  split
  · rename_i e he
    simp [he]
  · rename_i he
    simp [he]

theorem replays_compositional : Compositional Replays where
  pure _ _ := ⟨[], rfl⟩
  bind := .bind
  stop _ _ := ⟨[], rfl⟩
  environment _ := ⟨[], rfl⟩
  host _ := ⟨[], rfl⟩
  modifyHost f w := ⟨[.host (f w.host)], rfl⟩
  update bindings _ := ⟨[.bind bindings], rfl⟩
  declare type fields bindings _ := ⟨[.register type fields, .bind bindings], rfl⟩
  inScope := .inScope

end Action

theorem evaluate_replay (limit : Nat) (d : Datum) (w : World) :
    ∃ cs, (evaluate limit d w).2 = w.replay cs :=
  Action.replays_compositional.evaluate limit d w

theorem evaluateAll_replay (limit : Nat) (ds : List Datum) (w : World) :
    ∃ cs, (evaluateAll (evaluate limit) ds w).2 = w.replay cs :=
  (Action.replays_compositional.relational.evaluateAll
    (fun d => ⟨rfl, Action.replays_compositional.evaluate limit d⟩) ds).2 w

/-- What a text leaves behind in a session. -/
theorem evalText_replay (limit : Nat) (text : String) (w : World) :
    ∃ cs, (Session.evalText limit text w).2 = w.replay cs :=
  Action.replays_compositional.evalText limit text w

/-- The world after texts that are evaluated one after the other, however each of them ends. -/
def Session.afterTexts (limit : Nat) (texts : List String) (w : World) : World :=
  texts.foldl (fun w text => (evalText limit text w).2) w

theorem afterTexts_replay (limit : Nat) (texts : List String) (w : World) :
    ∃ cs, Session.afterTexts limit texts w = w.replay cs := by
  induction texts generalizing w with
  | nil => exact ⟨[], rfl⟩
  | cons text texts ih =>
    obtain ⟨cs, hcs⟩ := evalText_replay limit text w
    obtain ⟨ds, hds⟩ := ih (w.replay cs)
    refine ⟨cs ++ ds, ?_⟩
    rw [World.replay_append, ← hds, ← hcs]
    rfl

end DynamicLisp
