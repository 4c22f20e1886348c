import DynamicLisp.Proofs.Evaluation.StructOperators
import DynamicLisp.Session.Basic

/-! Instances that were made before their type was declared again. An accessor looks the place of its
field up in the current declaration, and the only check is that of the number of fields
(`access_held_iff`). -/
namespace DynamicLisp.SpecialForm

variable {type field : String} {fields layout : List String} {values : List Datum} {v : Datum}

/-- An instance with these fields and values holds the value for the field. -/
def HeldFor (fields : List String) (values : List Datum) (field : String) (v : Datum) : Prop :=
  ∃ i : Nat, fields[i]? = some field ∧ values[i]? = some v

/-- Whoever looks the place of the field up in the other layout finds a value that is held for it. No
value is found if the layouts differ in length or the other one lacks the field. -/
def ReadsThrough (layout fields : List String) (values : List Datum) (field : String) : Prop :=
  layout.length = fields.length → field ∈ layout →
    ∃ v, values[layout.idxOf field]? = some v ∧ HeldFor fields values field v

/-- The other layout has the field where these fields have it, as far as it can be taken for theirs. -/
def InPlace (layout fields : List String) (field : String) : Prop :=
  layout.length = fields.length → field ∈ layout → fields[layout.idxOf field]? = some field

/-- Fields of one declaration are in place, also when a name comes twice. -/
theorem InPlace.refl (fields : List String) (field : String) : InPlace fields fields field := by
  intro _ hmem
  rw [List.getElem?_eq_getElem (List.idxOf_lt_length_of_mem hmem), List.getElem_idxOf]

/-- The layouts through which a field is read right for all values are those that have it in place. -/
theorem inPlace_iff : InPlace layout fields field ↔
    ∀ values : List Datum, values.length = fields.length →
      ReadsThrough layout fields values field := by
  constructor
  · intro h values hvalues hlength hmem
    have hindex : layout.idxOf field < values.length := by
      rw [hvalues, ← hlength]
      exact List.idxOf_lt_length_of_mem hmem
    have hvalue := List.getElem?_eq_getElem hindex
    exact ⟨_, hvalue, _, h hlength hmem, hvalue⟩
  · intro h hlength hmem
    -- values that tell the field from all others
    let values := fields.map fun x => Datum.bool (x == field)
    obtain ⟨v, hv, i, hfield, hi⟩ := h values (List.length_map _) hlength hmem
    rw [List.getElem?_map, Option.map_eq_some_iff] at hv hi
    obtain ⟨x, hx, rfl⟩ := hv
    obtain ⟨y, hy, hxy⟩ := hi
    obtain rfl : field = y := Option.some.inj (hfield.symm.trans hy)
    obtain rfl : x = field := by simpa using hxy
    exact hx

theorem fieldOf_ok_iff : fieldOf type field layout values = .ok v ↔
    field ∈ layout ∧ values.length = layout.length ∧ values[layout.idxOf field]? = some v := by
  unfold fieldOf
  split
  · rename_i hmem
    split
    · rename_i hlength
      have hindex : layout.idxOf field < values.length := by
        rw [hlength]
        exact List.idxOf_lt_length_of_mem hmem
      simp [hmem, hlength, List.getElem?_eq_getElem hindex]
    · rename_i hlength
      simp [hlength]
  · rename_i hmem
    simp [hmem]

/-- An accessor that gives nothing but what the instance holds for its field. -/
theorem fieldOf_held_iff (type : String) (hlength : values.length = fields.length) :
    (∀ v, fieldOf type field layout values = .ok v → HeldFor fields values field v) ↔
      ReadsThrough layout fields values field := by
  constructor
  · intro h hlayout hmem
    have hindex : layout.idxOf field < values.length := by
      rw [hlength, ← hlayout]
      exact List.idxOf_lt_length_of_mem hmem
    have hvalue := List.getElem?_eq_getElem hindex
    exact ⟨_, hvalue, h _ (fieldOf_ok_iff.2 ⟨hmem, hlength.trans hlayout.symm, hvalue⟩)⟩
  · intro h v hv
    obtain ⟨hmem, hlayout, hvalue⟩ := fieldOf_ok_iff.1 hv
    obtain ⟨u, hu, hheld⟩ := h (hlayout.symm.trans hlength) hmem
    obtain rfl : u = v := Option.some.inj (hu.symm.trans hvalue)
    exact hheld

/-- Whether an accessor gives what the instance holds for its field is decided by the fields that the
type has when the operand has been evaluated. These are its first ones or those of a later
registration. -/
theorem access_struct_iff {limit : Nat} {accessor e : Datum} {w u u₁ : World} {cs : List Change}
    (hfields : w.environment.fields? type = some fields) (hlength : values.length = fields.length)
    (haccessor : evaluate limit accessor u = (.ok (.special (.access type field)), u₁))
    (he : evaluate limit e u₁ = (.ok (.struct type values), w.replay cs)) :
    ∃ layout, (w.replay cs).environment.fields? type = some layout ∧
      (layout = fields ∨ Change.register type layout ∈ cs) ∧
      ((∀ v u₃, evaluate (limit + 1) (.list [accessor, e]) u = (.ok v, u₃) →
          HeldFor fields values field v) ↔ ReadsThrough layout fields values field) := by
  obtain ⟨layout, hlayout, hregistered⟩ := World.fields?_replay hfields cs
  have hread : evaluate (limit + 1) (.list [accessor, e]) u =
      ((fieldOf type field layout values).mapError .error, w.replay cs) := by
    rw [evaluate_form haccessor]
    exact runAccess_struct he hlayout
  refine ⟨layout, hlayout, hregistered, ?_⟩
  rw [← fieldOf_held_iff type hlength, hread]
  constructor
  · intro h v hv
    exact h v (w.replay cs) (by rw [hv]; rfl)
  · intro h v u₃ hv
    cases hfield : fieldOf type field layout values with
    | error e =>
      rw [hfield] at hv
      cases hv
    | ok u =>
      rw [hfield] at hv
      cases hv
      exact h _ hfield

/-- An instance that a constructor made while its type had some fields, and any later state in which
an accessor for a field of the type is applied to it. Where this gives a value, it is one that the
instance holds for that field exactly if the field is read right through the fields that the type has
by then. It is if no registration in between has moved the field. -/
theorem access_held_iff {limit : Nat} {head s : Datum} {es : List Datum} {w w₀ w₁ : World}
    (hhead : evaluate limit head w = (.ok (.special (.make type)), w₀))
    (hmake : evaluate (limit + 1) (.list (head :: es)) w = (.ok s, w₁)) :
    ∃ fields values, w₀.environment.fields? type = some fields ∧
      evaluateAll (evaluate limit) es w₀ = (.ok values, w₁) ∧ values.length = fields.length ∧
      s = .struct type values ∧
      ∀ (cs : List Change) (limit : Nat) (accessor e : Datum) (field : String) (u u₁ u₂ : World),
        evaluate limit accessor u = (.ok (.special (.access type field)), u₁) →
        evaluate limit e u₁ = (.ok s, u₂) → u₂ = w₀.replay cs →
        ∃ layout, u₂.environment.fields? type = some layout ∧
          ((∀ v u₃, evaluate (limit + 1) (.list [accessor, e]) u = (.ok v, u₃) →
              HeldFor fields values field v) ↔ ReadsThrough layout fields values field) ∧
          ((∀ later, Change.register type later ∈ cs → InPlace later fields field) →
            ReadsThrough layout fields values field) := by
  rw [evaluate_form hhead] at hmake
  obtain ⟨fields, values, hfields, hcount, hvalues, rfl⟩ := runMake_ok hmake
  have hlength : values.length = fields.length := (length_of_evaluateAll hvalues).trans hcount
  refine ⟨fields, values, hfields, hvalues, hlength, rfl, ?_⟩
  rintro cs limit accessor e field u u₁ _ haccessor he rfl
  obtain ⟨layout, hlayout, hregistered, hexact⟩ := access_struct_iff hfields hlength haccessor he
  refine ⟨layout, hlayout, hexact, fun hkept => ?_⟩
  have hplace : InPlace layout fields field := by
    rcases hregistered with rfl | hmem
    · exact .refl _ _
    · exact hkept layout hmem
  exact inPlace_iff.1 hplace values hlength

/-- A later declaration that gives the second field a new name leaves the first one readable. -/
theorem access_held_renamed :
    let w : World := ⟨declared "P" ["x", "y"] .empty, default⟩
    let p : Datum := .struct "P" [.string "a", .string "b"]
    let u := w.replay [.bind [("p", p)], .register "P" ["x", "z"]]
    evaluate 2 (.list [.name "make-P", .string "a", .string "b"]) w = (.ok p, w) ∧
      evaluate 2 (.list [.name "P-x", .name "p"]) u = (.ok (.string "a"), u) ∧
      HeldFor ["x", "y"] [.string "a", .string "b"] "x" (.string "a") := by
  intro w p u
  have hhead : evaluate 1 (.name "make-P") w = (.ok (.special (.make "P")), w) := rfl
  have hmake : evaluate 2 (.list [.name "make-P", .string "a", .string "b"]) w = (.ok p, w) := rfl
  obtain ⟨fields, values, hfields, hvalues, _, _, hlater⟩ := access_held_iff hhead hmake
  cases hfields
  cases hvalues
  have haccessor : evaluate 1 (.name "P-x") u = (.ok (.special (.access "P" "x")), u) := rfl
  obtain ⟨_, _, hexact, hkept⟩ := hlater [.bind [("p", p)], .register "P" ["x", "z"]] 1
    (.name "P-x") (.name "p") "x" u u u haccessor rfl rfl
  have hread : evaluate 2 (.list [.name "P-x", .name "p"]) u = (.ok (.string "a"), u) := rfl
  have hplace : ∀ later, Change.register "P" later ∈ [.bind [("p", p)], .register "P" ["x", "z"]] →
      InPlace later ["x", "y"] "x" := by
    rintro later hmem
    obtain rfl : later = ["x", "z"] := by simpa using hmem
    exact fun _ _ => rfl
  exact ⟨hmake, hread, hexact.2 (hkept hplace) _ _ hread⟩

/-- In a session: an instance is made, texts are evaluated one after the other, however each of them
ends, and then an accessor is applied to the instance. It gives what the instance holds for the field
exactly if the field is read right through the fields of the type by then, and it does if these are
still the fields that the instance was made with. -/
theorem access_held_session {limit limit' : Nat} {head s accessor e : Datum} {es : List Datum}
    {w w₀ w₁ u₁ u₂ : World} (texts : List String)
    (hhead : evaluate limit head w = (.ok (.special (.make type)), w₀))
    (hmake : evaluate (limit + 1) (.list (head :: es)) w = (.ok s, w₁))
    (haccessor : evaluate limit' accessor (Session.afterTexts limit texts w₁) =
      (.ok (.special (.access type field)), u₁))
    (he : evaluate limit' e u₁ = (.ok s, u₂)) :
    ∃ fields values layout, w₀.environment.fields? type = some fields ∧ s = .struct type values ∧
      u₂.environment.fields? type = some layout ∧
      ((∀ v u₃, evaluate (limit' + 1) (.list [accessor, e]) (Session.afterTexts limit texts w₁) =
          (.ok v, u₃) → HeldFor fields values field v) ↔ ReadsThrough layout fields values field) ∧
      (layout = fields → ReadsThrough layout fields values field) := by
  rw [evaluate_form hhead] at hmake
  obtain ⟨fields, values, hfields, hcount, hvalues, rfl⟩ := runMake_ok hmake
  have hlength : values.length = fields.length := (length_of_evaluateAll hvalues).trans hcount
  -- what happens from the call of the constructor to that of the accessor, as one history
  obtain ⟨cs, hcs⟩ := evaluateAll_replay limit es w₀
  obtain ⟨cs₁, hcs₁⟩ := afterTexts_replay limit texts w₁
  obtain ⟨cs₂, hcs₂⟩ := evaluate_replay limit' accessor (Session.afterTexts limit texts w₁)
  obtain ⟨cs₃, hcs₃⟩ := evaluate_replay limit' e u₁
  have hu₂ : u₂ = w₀.replay (cs ++ cs₁ ++ cs₂ ++ cs₃) := by
    rw [hvalues] at hcs
    rw [haccessor] at hcs₂
    rw [he] at hcs₃
    rw [World.replay_append, World.replay_append, World.replay_append, ← hcs, ← hcs₁, ← hcs₂, ← hcs₃]
  subst hu₂
  obtain ⟨layout, hlayout, -, hexact⟩ := access_struct_iff hfields hlength haccessor he
  refine ⟨fields, values, layout, hfields, rfl, hlayout, hexact, ?_⟩
  rintro rfl
  exact inPlace_iff.1 (.refl _ _) values hlength

/-- A later declaration that swaps the fields makes the accessor of one of them read the other. -/
theorem access_swapped :
    let program : List Datum :=
      [.list [.name "define-struct", .name "P", .list [.name "x", .name "y"]],
        .list [.name "define", .name "p", .list [.name "make-P", .string "a", .string "b"]],
        .list [.name "define-struct", .name "P", .list [.name "y", .name "x"]],
        .list [.name "P-x", .name "p"]]
    (Session.evalExprs 4 .empty program ⟨standardEnvironment, default⟩).1 = .ok (.string "b") ∧
      ¬ HeldFor ["x", "y"] [.string "a", .string "b"] "x" (.string "b") := by
  intro program
  refine ⟨rfl, ?_⟩
  rintro ⟨i, hfield, hvalue⟩
  match i with
  | 0 => simp at hvalue
  | 1 => simp at hfield
  | _ + 2 => simp at hfield

end DynamicLisp.SpecialForm
