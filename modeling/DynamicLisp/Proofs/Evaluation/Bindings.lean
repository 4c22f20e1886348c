import DynamicLisp.Proofs.Evaluation.StructOperators

/-! What bindings do to an environment: the innermost scope has the names bound, the last binding of a
name being the one that counts, and all else is as it was (`bindsOnly_update`). -/
namespace DynamicLisp

namespace Table

variable {κ α : Type} [DecidableEq κ] {t : Table κ α} {x : κ} {a : α} {bindings : List (κ × α)}

/-- A name that is bound has the value of one of its bindings. -/
theorem exists_find?_update (h : x ∈ bindings.map Prod.fst) :
    ∃ a, (x, a) ∈ bindings ∧ (t.update bindings).find? x = some a := by
  induction bindings generalizing t with
  | nil => cases h
  | cons b bindings ih =>
    by_cases hrest : x ∈ bindings.map Prod.fst
    · obtain ⟨a, ha, hfind⟩ := ih (t := t.set b.1 b.2) hrest
      exact ⟨a, List.mem_cons_of_mem b ha, hfind⟩
    · obtain rfl : x = b.1 := (List.mem_cons.1 h).resolve_right hrest
      refine ⟨b.2, List.mem_cons_self, (find?_update_of_not_mem (t := t.set b.1 b.2) hrest).trans ?_⟩
      rw [find?_set, if_pos rfl]

/-- If all bindings of a name are to one value, the name has that value. -/
theorem find?_update_of_forall (h : x ∈ bindings.map Prod.fst)
    (hall : ∀ b, (x, b) ∈ bindings → b = a) : (t.update bindings).find? x = some a := by
  obtain ⟨b, hb, hfind⟩ := exists_find?_update (t := t) h
  rw [hfind, hall b hb]

theorem update_append (t : Table κ α) (bindings bindings' : List (κ × α)) :
    t.update (bindings ++ bindings') = (t.update bindings).update bindings' := List.foldl_append

theorem find?_update_concat (t : Table κ α) (bindings : List (κ × α)) (x : κ) (a : α) :
    (t.update (bindings ++ [(x, a)])).find? x = some a := by
  have hlast : t.update (bindings ++ [(x, a)]) = (t.update bindings).set x a := List.foldl_append
  rw [hlast, find?_set, if_pos rfl]

end Table

namespace Environment

/-- Of all bindings only those of these names in the innermost scope may be other ones, and there the
names are bound. -/
structure BindsOnly (names : String → Prop) (e e' : Environment) : Prop where
  outer : e'.scopes.tail = e.scopes.tail
  bound (x : String) : names x → (e'.innermost.find? x).isSome
  others (x : String) : ¬ names x → e'.innermost.find? x = e.innermost.find? x

theorem find?_innermost_define (e : Environment) (x y : String) (d : Datum) :
    (e.define x d).innermost.find? y = if x = y then some d else e.innermost.find? y := by
  rw [define, innermost_modifyInnermost, Table.find?_set]

theorem bindsOnly_update (e : Environment) (bindings : List (String × Datum)) :
    e.BindsOnly (· ∈ bindings.map Prod.fst) (e.update bindings) where
  outer := tail_scopes_modifyInnermost _
  bound x hx := by
    obtain ⟨d, -, hfind⟩ := Table.exists_find?_update (t := e.innermost) hx
    rw [update, innermost_modifyInnermost, hfind]
    rfl
  others x hx := by
    rw [update, innermost_modifyInnermost]
    exact Table.find?_update_of_not_mem hx

theorem bindsOnly_define (e : Environment) (x : String) (d : Datum) :
    e.BindsOnly (· = x) (e.define x d) := by
  have hnames : (· = x) = (· ∈ [(x, d)].map Prod.fst) := by
    funext y
    simp
  rw [hnames]
  exact bindsOnly_update e [(x, d)]

end Environment

end DynamicLisp
