import DynamicLisp.Proofs.Evaluation.Compositional

/-! The scope discipline of evaluation. However an evaluation ends, the scopes around the innermost
one are what they were, and the innermost one and the registry have lost no name. -/
namespace DynamicLisp

namespace Table

variable {κ α : Type} [DecidableEq κ] (t : Table κ α)

theorem isSome_find?_set (x y : κ) (a : α) :
    ((t.set x a).find? y).isSome = (decide (x = y) || (t.find? y).isSome) := by
  rw [find?_set]
  split <;> simp_all

theorem isSome_find?_update (bindings : List (κ × α)) (y : κ) (h : (t.find? y).isSome) :
    ((t.update bindings).find? y).isSome := by
  induction bindings generalizing t with
  | nil => exact h
  | cons b bindings ih => exact ih _ (by simp [isSome_find?_set, h])

end Table

namespace Environment

variable {e e' e'' : Environment}

theorem length_scopes : e.scopes.length = e.depth + 1 := by simp [scopes, depth]

theorem scopes_inj (h : e.scopes = e'.scopes) : e.inner = e'.inner ∧ e.base = e'.base := by
  have := List.append_inj' h rfl
  simp_all

theorem innermost_congr (h : e.scopes = e'.scopes) : e.innermost = e'.innermost := by
  simp only [innermost, (scopes_inj h).1, (scopes_inj h).2]

theorem tail_scopes_modifyInnermost (f : Scope → Scope) :
    (e.modifyInnermost f).scopes.tail = e.scopes.tail := by
  unfold modifyInnermost
  split <;> simp_all [scopes]

theorem innermost_modifyInnermost (f : Scope → Scope) :
    (e.modifyInnermost f).innermost = f e.innermost := by
  unfold modifyInnermost
  split <;> simp_all [innermost]

theorem structs_modifyInnermost (f : Scope → Scope) : (e.modifyInnermost f).structs = e.structs := by
  unfold modifyInnermost
  split <;> rfl

theorem structs_exit (h : e.exit? = some e') : e'.structs = e.structs := by
  unfold exit? at h
  split at h <;> cases h
  rfl

/-- A scope that has been entered can be left, and leaving it uncovers the scopes below. -/
theorem exists_exit (h : e'.scopes.tail = e.scopes) :
    ∃ e'', e'.exit? = some e'' ∧ e''.scopes = e.scopes := by
  cases hi : e'.inner with
  | nil => simp [scopes, hi] at h
  | cons s inner =>
    refine ⟨{ e' with inner := inner }, by simp [exit?, hi], ?_⟩
    rw [← h]
    simp [scopes, hi]

/-- The second environment comes from the first by binding names in the innermost scope and by
registering struct types. -/
structure Framed (e e' : Environment) : Prop where
  outer : e'.scopes.tail = e.scopes.tail
  names (x : String) : (e.innermost.find? x).isSome → (e'.innermost.find? x).isSome
  types (t : String) : (e.fields? t).isSome → (e'.fields? t).isSome

namespace Framed

theorem refl (e : Environment) : Framed e e := ⟨rfl, fun _ => id, fun _ => id⟩

theorem trans (h : Framed e e') (h' : Framed e' e'') : Framed e e'' :=
  ⟨h'.outer.trans h.outer, fun x hx => h'.names x (h.names x hx), fun t ht => h'.types t (h.types t ht)⟩

theorem depth_eq (h : Framed e e') : e'.depth = e.depth := by
  have := congrArg List.length h.outer
  simpa [List.length_tail, length_scopes] using this

theorem update (bindings : List (String × Datum)) : Framed e (e.update bindings) where
  outer := tail_scopes_modifyInnermost _
  names x hx := by
    rw [Environment.update, innermost_modifyInnermost]
    exact Table.isSome_find?_update _ _ _ hx
  types t ht := by rwa [fields?, Environment.update, structs_modifyInnermost]

theorem addStruct (type : String) (fields : List String) : Framed e (e.addStruct type fields) where
  outer := rfl
  names _ := id
  types t ht := by
    simp only [fields?, Environment.addStruct, Table.isSome_find?_set, Bool.or_eq_true]
    exact .inr ht

/-- What happens in a scope of its own is not seen in the scopes once it is left. -/
theorem exit (h : Framed e.enter e') :
    ∃ e'', e'.exit? = some e'' ∧ e''.scopes = e.scopes ∧ Framed e e'' := by
  obtain ⟨e'', he, hs⟩ := exists_exit (e := e) h.outer
  refine ⟨e'', he, hs, by rw [hs], fun x hx => ?_, fun t ht => ?_⟩
  · rwa [innermost_congr hs]
  · rw [fields?, structs_exit he]
    exact h.types t ht

end Framed

end Environment

/-- The world in which a new scope has been entered. -/
def World.enter (w : World) : World := { w with environment := w.environment.enter }

/-- The world with the scopes of another one. -/
def World.withScopesOf (w w₀ : World) : World :=
  ⟨⟨w₀.environment.inner, w₀.environment.base, w.environment.structs⟩, w.host⟩

/-- A result that does not report the base scope to have been left. -/
def KeepsBase {α : Type} (r : Except Stop α) : Prop := r ≠ .error .noScope

theorem KeepsBase.ok {α : Type} (a : α) : KeepsBase (.ok a) := by
  intro h
  cases h

namespace Action

/-- The action keeps the scope discipline, however it ends. -/
def Frames (α : Type) (x : Action α) : Prop :=
  ∀ w, w.environment.Framed (x w).2.environment ∧ KeepsBase (x w).1

theorem framed_bind {α β : Type} {x : Action α} {f : α → Action β} {w : World}
    (hx : w.environment.Framed (x w).2.environment ∧ KeepsBase (x w).1)
    (hf : ∀ a w', x w = (.ok a, w') → w.environment.Framed w'.environment →
      w'.environment.Framed (f a w').2.environment ∧ KeepsBase (f a w').1) :
    w.environment.Framed ((x >>= f) w).2.environment ∧ KeepsBase ((x >>= f) w).1 := by
  obtain ⟨hw, hr⟩ := hx
  rcases bind_cases x f w with ⟨s, w', hstop, h⟩ | ⟨a, w', hstep, h⟩
  · rw [hstop] at hw hr
    rw [h]
    exact ⟨hw, fun hscope => hr (by cases hscope; rfl)⟩
  · rw [hstep] at hw
    rw [h]
    obtain ⟨hw', hr'⟩ := hf a w' hstep hw
    exact ⟨hw.trans hw', hr'⟩

theorem inScope_of_exit {α : Type} {x : Action α} {w : World} {e : Environment}
    (h : (x w.enter).2.environment.exit? = some e) :
    Action.inScope x w = ((x w.enter).1, ⟨e, (x w.enter).2.host⟩) := by
  unfold World.enter at h ⊢
  simp only [Action.inScope, h]

/-- What a scope of its own comes to, if the action keeps to it: the scopes around it are back, and
all else is what the action has made of it. -/
theorem inScope_eq {α : Type} {x : Action α} {w : World}
    (h : w.enter.environment.Framed (x w.enter).2.environment) :
    ∃ e, Action.inScope x w = ((x w.enter).1, ⟨e, (x w.enter).2.host⟩) ∧
      e.scopes = w.environment.scopes ∧ e.structs = (x w.enter).2.environment.structs ∧
      w.environment.Framed e := by
  obtain ⟨e, he, hscopes, hframed⟩ := Environment.Framed.exit h
  exact ⟨e, inScope_of_exit he, hscopes, Environment.structs_exit he, hframed⟩

theorem inScope_apply {α : Type} {x : Action α} {w : World}
    (h : w.enter.environment.Framed (x w.enter).2.environment) :
    Action.inScope x w = ((x w.enter).1, (x w.enter).2.withScopesOf w) := by
  obtain ⟨e, he, hscopes, hstructs, -⟩ := inScope_eq h
  obtain ⟨hinner, hbase⟩ := Environment.scopes_inj hscopes
  rw [he, World.withScopesOf, ← hinner, ← hbase, ← hstructs]

theorem framed_inScope {α : Type} {x : Action α} {w : World}
    (hx : w.enter.environment.Framed (x w.enter).2.environment ∧ KeepsBase (x w.enter).1) :
    w.environment.Framed (Action.inScope x w).2.environment ∧
      KeepsBase (Action.inScope x w).1 := by
  obtain ⟨hw, hr⟩ := hx
  obtain ⟨e, he, -, -, hframed⟩ := inScope_eq hw
  rw [he]
  exact ⟨hframed, hr⟩

/-- Run anywhere above the scopes, the action keeps the scope discipline. -/
def FramesAbove (scopes : List Scope) (α : Type) (x : Action α) : Prop :=
  ∀ w, scopes <:+ w.environment.scopes.tail →
    w.environment.Framed (x w).2.environment ∧ KeepsBase (x w).1

theorem framesAbove_compositional (scopes : List Scope) : Compositional (FramesAbove scopes) where
  pure a w _ := ⟨.refl _, .ok a⟩
  bind hx hf w hw := framed_bind (hx w hw) fun a w' _ hframed => hf a w' (hframed.outer ▸ hw)
  stop h w _ := ⟨.refl _, fun he => by cases he; exact h rfl⟩
  environment w _ := ⟨.refl _, .ok _⟩
  host w _ := ⟨.refl _, .ok _⟩
  modifyHost f w _ := ⟨.refl _, .ok _⟩
  update bindings w _ := ⟨.update bindings, .ok _⟩
  declare type fields bindings w _ := ⟨.trans (.addStruct type fields) (.update bindings), .ok _⟩
  inScope hx w hw := framed_inScope (hx w.enter (hw.trans (List.tail_suffix _)))

/-- Every stack of scopes is above none. -/
theorem frames_eq_framesAbove : Frames = FramesAbove [] := by
  funext α x
  simp only [Frames, FramesAbove, List.nil_suffix, true_imp_iff]

theorem frames_compositional : Compositional Frames :=
  frames_eq_framesAbove ▸ framesAbove_compositional []

end Action

/-- Evaluation leaves the stack of scopes as deep as it was, every scope below the innermost one as
it was, no name of the innermost scope unbound and no struct type unregistered, whether it ends in a
value or stops; and it never leaves the base scope. -/
theorem evaluate_frame (limit : Nat) (d : Datum) (w : World) :
    (evaluate limit d w).2.environment.depth = w.environment.depth ∧
    (evaluate limit d w).2.environment.scopes.tail = w.environment.scopes.tail ∧
    (∀ x, (w.environment.innermost.find? x).isSome →
      ((evaluate limit d w).2.environment.innermost.find? x).isSome) ∧
    (∀ t, (w.environment.fields? t).isSome →
      ((evaluate limit d w).2.environment.fields? t).isSome) ∧
    (evaluate limit d w).1 ≠ .error .noScope := by
  obtain ⟨h, hr⟩ := Action.frames_compositional.evaluate limit d w
  exact ⟨h.depth_eq, h.outer, h.names, h.types, hr⟩

end DynamicLisp
