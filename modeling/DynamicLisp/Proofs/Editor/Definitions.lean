import DynamicLisp.Editor.Index
import DynamicLisp.Proofs.Editor.Location
import DynamicLisp.Proofs.Evaluation.ReservedWords
import DynamicLisp.Proofs.Evaluation.StructDeclaration
import DynamicLisp.Proofs.Reader.Occurrence

/-! The definitions that the index of a document has. The scanner goes over tokens and knows nothing of
nesting, but it meets every form that stands anywhere in the expressions of a text, and takes from it
what the reader has there (`index_definitions`). -/
namespace DynamicLisp.Editor

/-! ### What the index is made of -/

/-- The tokens behind each opening bracket. -/
def behindOpenings : List Placed → List (List Placed)
  | [] => []
  | ⟨.opening _, _⟩ :: ps => ps :: behindOpenings ps
  | _ :: ps => behindOpenings ps

/-- The struct type that a form declares which starts before these tokens. -/
def formStruct? (cs : List Char) : List Placed → Option (String × Position × List String)
  | ⟨.atom head, _⟩ :: rest =>
    if head = "define-struct".toList then declared? cs rest else none
  | _ => none

/-- The definitions that come with a form which starts before these tokens. -/
def formDefinitions (cs : List Char) : List Placed → List Definition
  | ⟨.atom head, n⟩ :: rest =>
    if head = "define".toList then defined cs rest
    else match formStruct? cs (⟨.atom head, n⟩ :: rest) with
      | some (type, p, fields) => structDefinitions type p fields
      | none => []
  | _ => []

variable {cs : List Char} {ps rest : List Placed} {d : Definition} {j k : Nat} {x : Index}

theorem mem_behindOpenings :
    rest ∈ behindOpenings ps ↔ ∃ j b n, ps.drop j = ⟨.opening b, n⟩ :: rest := by
  induction ps with
  | nil => simp [behindOpenings]
  | cons p ps ih =>
    have hdrop : (∃ j b n, (p :: ps).drop j = ⟨.opening b, n⟩ :: rest) ↔
        (∃ b n, p = ⟨.opening b, n⟩ ∧ ps = rest) ∨
          ∃ j b n, ps.drop j = ⟨.opening b, n⟩ :: rest := by
      constructor
      · rintro ⟨_ | j, b, n, h⟩
        · exact .inl ⟨b, n, List.cons.inj h⟩
        · exact .inr ⟨j, b, n, h⟩
      · rintro (⟨b, n, rfl, rfl⟩ | ⟨j, b, n, h⟩)
        · exact ⟨0, b, n, rfl⟩
        · exact ⟨j + 1, b, n, h⟩
    rw [hdrop, ← ih]
    obtain ⟨t, n⟩ := p
    cases t <;> simp [behindOpenings, eq_comm]

theorem addForm_eq (cs : List Char) (x : Index) (ps : List Placed) : x.addForm cs ps =
    { x with
      symbols := x.symbols.update ((formDefinitions cs ps).map fun d => (d.name, d))
      structs := x.structs.update
        ((formStruct? cs ps).toList.map fun (type, _, fields) => (type, fields)) } := by
  match ps with
  | [] => rfl
  | ⟨.atom head, n⟩ :: rest =>
    simp only [Index.addForm, formDefinitions, formStruct?]
    by_cases hdefine : head = "define".toList
    · have hother : head ≠ "define-struct".toList := by rw [hdefine]; decide
      rw [if_pos hdefine, if_pos hdefine, if_neg hother]
      rfl
    · rw [if_neg hdefine, if_neg hdefine]
      by_cases hstruct : head = "define-struct".toList
      · rw [if_pos hstruct, if_pos hstruct]
        cases declared? cs rest <;> rfl
      · rw [if_neg hstruct, if_neg hstruct]
        rfl
  | ⟨.quote, _⟩ :: _ | ⟨.opening _, _⟩ :: _ | ⟨.closing _, _⟩ :: _ | ⟨.string _, _⟩ :: _ => rfl

theorem addTokens_tables (cs : List Char) (x : Index) (ps : List Placed) :
    (x.addTokens cs ps).symbols = x.symbols.update
      (((behindOpenings ps).flatMap (formDefinitions cs)).map fun d => (d.name, d)) ∧
    (x.addTokens cs ps).structs = x.structs.update
      (((behindOpenings ps).flatMap fun rest => (formStruct? cs rest).toList).map
        fun (type, _, fields) => (type, fields)) := by
  induction ps generalizing x with
  | nil => exact ⟨rfl, rfl⟩
  | cons p ps ih =>
    obtain ⟨t, n⟩ := p
    cases t with
    | opening b =>
      simp only [Index.addTokens, behindOpenings, List.flatMap_cons, List.map_append,
        Table.update_append, addForm_eq]
      exact ih _
    | _ => exact ih _

theorem formDefinitions_of_struct {type : String} {p : Position} {fields : List String}
    (h : formStruct? cs rest = some (type, p, fields)) :
    formDefinitions cs rest = structDefinitions type p fields := by
  match rest, h with
  | ⟨.atom head, n⟩ :: rest, h =>
    have hother : head ≠ "define".toList := by
      rintro rfl
      cases h
    rw [formDefinitions, if_neg hother, h]

/-- The definitions that the scanner meets at the token with so many before it. Only at an opening
bracket there can be some. -/
def definitionsAt (cs : List Char) (j : Nat) : List Definition :=
  match (scan cs).drop j with
  | ⟨.opening _, _⟩ :: rest => formDefinitions cs rest
  | _ => []

/-- The scanner meets the struct type there. -/
def Registers (cs : List Char) (j : Nat) (type : String) (fields : List String) : Prop :=
  ∃ b n rest p, (scan cs).drop j = ⟨.opening b, n⟩ :: rest ∧
    formStruct? cs rest = some (type, p, fields)

theorem mem_definitionsAt : d ∈ definitionsAt cs j ↔
    ∃ b n rest, (scan cs).drop j = ⟨.opening b, n⟩ :: rest ∧ d ∈ formDefinitions cs rest := by
  unfold definitionsAt
  split <;> simp_all

theorem lt_of_mem_definitionsAt (h : d ∈ definitionsAt cs j) : j < (scan cs).length := by
  obtain ⟨b, n, rest, hdrop, -⟩ := mem_definitionsAt.1 h
  have hlength := congrArg List.length hdrop
  rw [List.length_drop, List.length_cons] at hlength
  omega

theorem mem_definitions :
    d ∈ (behindOpenings (scan cs)).flatMap (formDefinitions cs) ↔ ∃ j, d ∈ definitionsAt cs j := by
  simp only [List.mem_flatMap, mem_behindOpenings, mem_definitionsAt]
  constructor
  · rintro ⟨rest, ⟨j, b, n, hdrop⟩, hd⟩
    exact ⟨j, b, n, rest, hdrop, hd⟩
  · rintro ⟨j, b, n, rest, hdrop, hd⟩
    exact ⟨rest, ⟨j, b, n, hdrop⟩, hd⟩

theorem Registers.exists_definition {type : String} {fields : List String}
    (h : Registers cs j type fields) : ∃ d ∈ definitionsAt cs j, d.name = type := by
  obtain ⟨b, n, rest, p, hdrop, hstruct⟩ := h
  refine ⟨⟨type, .struct, p, some (shape type fields)⟩,
    mem_definitionsAt.2 ⟨b, n, rest, hdrop, ?_⟩, rfl⟩
  rw [formDefinitions_of_struct hstruct]
  exact List.mem_cons_self

theorem Registers.fields_eq {type : String} {fields fields' : List String}
    (h : Registers cs j type fields) (h' : Registers cs j type fields') : fields = fields' := by
  obtain ⟨b, n, rest, p, hdrop, hstruct⟩ := h
  obtain ⟨b', n', rest', p', hdrop', hstruct'⟩ := h'
  cases hdrop.symm.trans hdrop'
  cases hstruct.symm.trans hstruct'
  rfl

theorem symbols_ofChars (cs : List Char) : (Index.ofChars cs).symbols = Table.empty.update
    (((behindOpenings (scan cs)).flatMap (formDefinitions cs)).map fun d => (d.name, d)) :=
  (addTokens_tables cs .empty (scan cs)).1

/-- A definition that has been met has its name in the index. -/
theorem mem_names (h : d ∈ definitionsAt cs j) :
    d.name ∈ (((behindOpenings (scan cs)).flatMap (formDefinitions cs)).map
      fun d => (d.name, d)).map Prod.fst := by
  rw [List.map_map, List.mem_map]
  exact ⟨d, mem_definitions.2 ⟨j, h⟩, rfl⟩

theorem isSome_symbols (h : d ∈ definitionsAt cs j) :
    ((Index.ofChars cs).symbols.find? d.name).isSome := by
  obtain ⟨d', -, hfind⟩ := Table.exists_find?_update (t := .empty) (mem_names h)
  rw [symbols_ofChars, hfind]
  rfl

/-- An entry is a definition that has been met. -/
theorem exists_definitionsAt {key : String} (h : (Index.ofChars cs).symbols.find? key = some d) :
    d.name = key ∧ ∃ j, d ∈ definitionsAt cs j := by
  rw [symbols_ofChars] at h
  by_cases hmem : key ∈ (((behindOpenings (scan cs)).flatMap (formDefinitions cs)).map
      fun d => (d.name, d)).map Prod.fst
  · obtain ⟨d', hd', hfind⟩ := Table.exists_find?_update (t := .empty) hmem
    obtain rfl : d = d' := Option.some.inj (h.symm.trans hfind)
    obtain ⟨d', hmet, hpair⟩ := List.mem_map.1 hd'
    obtain ⟨hname, rfl⟩ := Prod.mk.inj hpair
    exact ⟨hname, mem_definitions.1 hmet⟩
  · rw [Table.find?_update_of_not_mem hmem] at h
    cases h

/-- If no other definition of the name has been met, the index has this one. -/
theorem find?_symbols (h : d ∈ definitionsAt cs j)
    (hall : ∀ j', ∀ d' ∈ definitionsAt cs j', d'.name = d.name → d' = d) :
    (Index.ofChars cs).symbols.find? d.name = some d := by
  obtain ⟨d', hfind⟩ := Option.isSome_iff_exists.1 (isSome_symbols h)
  obtain ⟨hname, j', hmet⟩ := exists_definitionsAt hfind
  rw [hfind, hall j' d' hmet hname]

theorem Registers.find?_structs {type : String} {fields : List String} (h : Registers cs j type fields)
    (hall : ∀ j' fields', Registers cs j' type fields' → fields' = fields) :
    (Index.ofChars cs).structs.find? type = some fields := by
  have hmem {t : String} {fs : List String} :
      (t, fs) ∈ (((behindOpenings (scan cs)).flatMap fun rest => (formStruct? cs rest).toList).map
        fun (type, _, fields) => (type, fields)) ↔ ∃ j, Registers cs j t fs := by
    simp only [List.mem_map, List.mem_flatMap, mem_behindOpenings, Option.mem_toList, Registers]
    constructor
    · rintro ⟨⟨t, p, fs⟩, ⟨rest, ⟨j, b, n, hdrop⟩, hstruct⟩, ⟨⟩⟩
      exact ⟨j, b, n, rest, p, hdrop, hstruct⟩
    · rintro ⟨j, b, n, rest, p, hdrop, hstruct⟩
      exact ⟨(t, p, fs), ⟨rest, ⟨j, b, n, hdrop⟩, hstruct⟩, rfl⟩
  have hstructs := (addTokens_tables cs .empty (scan cs)).2
  refine (congrArg (·.find? type) hstructs).trans ?_
  refine Table.find?_update_of_forall (List.mem_map.2 ⟨_, hmem.2 ⟨j, h⟩, rfl⟩) fun fs hfs => ?_
  obtain ⟨j', hj'⟩ := hmem.1 hfs
  exact hall j' fs hj'

/-! ### Forms that define names -/

/-- A form that defines names, by what stands in it. -/
inductive Form
  | var (x : Symbol) (rest : List Datum)
  | function (f : Symbol) (params : List Symbol) (bodies : List Datum)
  | struct (type : Symbol) (fields : List Symbol)

namespace Form

def items : Form → List Datum
  | var x rest => .name "define" :: .symbol x :: rest
  | function f params bodies => .name "define" :: .list (.symbol f :: params.map .symbol) :: bodies
  | struct type fields => [.name "define-struct", .symbol type, .list (fields.map .symbol)]

/-- The name behind the word that makes the form a definition. -/
def name : Form → Symbol
  | var x _ => x
  | function f _ _ => f
  | struct type _ => type

/-- The number of tokens of the form before that name. -/
def offset : Form → Nat
  | function .. => 3
  | var .. | struct .. => 2

/-- The keys that the form has in the index, with the kinds of their entries. -/
def keys : Form → List (String × DefinitionKind)
  | var x _ => [(x.text, .var)]
  | function f _ _ => [(f.text, .function)]
  | struct type fields =>
    [(type.text, .struct), ("make-" ++ type.text, .constructor), (type.text ++ "?", .predicate)] ++
      fields.map fun field => (type.text ++ "-" ++ field.text, .accessor)

/-- What the index is to show beside a key. -/
def detail (form : Form) (kind : DefinitionKind) (key : String) : Option String :=
  match form, kind with
  | var .., _ => none
  | function _ params _, _ => some (shape key (params.map Symbol.text))
  | struct .., .predicate | struct .., .accessor => some (shape key ["v"])
  | struct _ fields, _ => some (shape key (fields.map Symbol.text))

/-- The entry of a key, if the name of the form stands at the position. -/
def entry (form : Form) (p : Position) (key : String × DefinitionKind) : Definition :=
  ⟨key.1, key.2, p, form.detail key.2 key.1⟩

end Form

theorem takeWhile_symbols (ss : List Symbol) (b : Bracket) (ts : List Token) :
    ((ss.map fun s => Token.atom s.text.toList) ++ .closing b :: ts).takeWhile (!·.isClosing) =
      ss.map fun s => Token.atom s.text.toList := by
  have hatoms : ∀ t ∈ ss.map fun s => Token.atom s.text.toList, (!t.isClosing) = true := by
    simp [Token.isClosing]
  rw [List.takeWhile_append_of_pos hatoms]
  simp [Token.isClosing]

theorem exists_placed {t : Token} {ts : List Token} (h : ps.map (·.token) = t :: ts) :
    ∃ n qs, ps = ⟨t, n⟩ :: qs ∧ qs.map (·.token) = ts := by
  obtain ⟨⟨t', n⟩, qs, rfl, rfl, hqs⟩ := List.map_eq_cons_iff.1 h
  exact ⟨n, qs, rfl, hqs⟩

/-- A word in front of other expressions in a list. -/
theorem exists_word {ts : List Token} {word : String} {ds : List Datum}
    (h : Expression ts (.list (.name word :: ds))) : ∃ b us,
      ts = .opening b :: .atom word.toList :: (us ++ [.closing b]) ∧ Sequence us ds := by
  obtain ⟨b, us, rfl, hitems⟩ := h.exists_sequence
  obtain ⟨vs, us, rfl, hword, hds⟩ := hitems.exists_cons
  rw [hword.symbol_tokens]
  exact ⟨b, us, rfl, hds⟩

theorem exists_symbols {ts : List Token} (ss : List Symbol) {ds : List Datum}
    (h : Sequence ts (.list (ss.map .symbol) :: ds)) : ∃ b us,
      ts = .opening b :: ((ss.map fun s => Token.atom s.text.toList) ++ .closing b :: us) := by
  obtain ⟨vs, us, rfl, hlist, -⟩ := h.exists_cons
  obtain ⟨b, vs, rfl, hss⟩ := hlist.exists_sequence
  rw [hss.symbol_tokens]
  exact ⟨b, us, by simp⟩

theorem texts_upToClosing (ss : List Symbol) {b : Bracket} {ts : List Token}
    (h : ps.map (·.token) = (ss.map fun s => Token.atom s.text.toList) ++ .closing b :: ts) :
    (upToClosing ps).map (fun t => String.ofList t.text) = ss.map Symbol.text ∧
      (upToClosing ps).filterMap Token.name? = ss.map Symbol.text := by
  rw [upToClosing, h, takeWhile_symbols]
  simp [Token.text, Token.name?, List.filterMap_map, Function.comp_def]

/-- What the scanner takes from a form is what the reader has there. -/
theorem Form.scanned (cs : List Char) {form : Form} {ts after : List Token}
    (h : Expression ts (.list form.items)) (hps : ps.map (·.token) = ts ++ after) :
    ∃ b n rest start, ps = ⟨.opening b, n⟩ :: rest ∧
      ps[form.offset]? = some ⟨.atom form.name.text.toList, start⟩ ∧
      formDefinitions cs rest = form.keys.map (form.entry (Position.ofOffset cs start)) ∧
      ∀ type fields, form = .struct type fields → formStruct? cs rest =
        some (type.text, Position.ofOffset cs start, fields.map Symbol.text) := by
  cases form with
  | var x ds =>
    obtain ⟨b, us, rfl, hds⟩ := exists_word h
    obtain ⟨vs, us, rfl, hx, -⟩ := hds.exists_cons
    rw [hx.symbol_tokens] at hps
    obtain ⟨n, ps₁, rfl, hps₁⟩ := exists_placed hps
    obtain ⟨m, ps₂, rfl, hps₂⟩ := exists_placed hps₁
    obtain ⟨start, ps₃, rfl, -⟩ := exists_placed hps₂
    refine ⟨b, n, _, start, rfl, rfl, ?_, nofun⟩
    rw [formDefinitions, if_pos rfl, defined, String.ofList_toList]
    rfl
  | function f params bodies =>
    obtain ⟨b, us, rfl, hds⟩ := exists_word h
    obtain ⟨b', us, rfl⟩ := exists_symbols (f :: params) hds
    obtain ⟨n, ps₁, rfl, hps₁⟩ := exists_placed hps
    obtain ⟨m, ps₂, rfl, hps₂⟩ := exists_placed hps₁
    obtain ⟨m', ps₃, rfl, hps₃⟩ := exists_placed hps₂
    obtain ⟨start, ps₄, rfl, hps₄⟩ := exists_placed hps₃
    refine ⟨b, n, _, start, rfl, rfl, ?_, nofun⟩
    have hparams := (texts_upToClosing params (b := b') (by simpa using hps₄)).1
    rw [formDefinitions, if_pos rfl, defined, String.ofList_toList, hparams]
    rfl
  | struct type fields =>
    obtain ⟨b, us, rfl, hds⟩ := exists_word h
    obtain ⟨vs, us, rfl, htype, hds⟩ := hds.exists_cons
    obtain ⟨b', us, rfl⟩ := exists_symbols fields hds
    rw [htype.symbol_tokens] at hps
    obtain ⟨n, ps₁, rfl, hps₁⟩ := exists_placed hps
    obtain ⟨m, ps₂, rfl, hps₂⟩ := exists_placed hps₁
    obtain ⟨start, ps₃, rfl, hps₃⟩ := exists_placed hps₂
    obtain ⟨m', ps₄, rfl, hps₄⟩ := exists_placed hps₃
    have hfields := (texts_upToClosing fields (b := b') (by simpa using hps₄)).2
    have hstruct : formStruct? cs (⟨.atom "define-struct".toList, m⟩ ::
        ⟨.atom type.text.toList, start⟩ :: ⟨.opening b', m'⟩ :: ps₄) =
        some (type.text, Position.ofOffset cs start, fields.map Symbol.text) := by
      rw [formStruct?, if_pos rfl, declared?, String.ofList_toList, hfields]
    refine ⟨b, n, _, start, rfl, rfl, ?_, ?_⟩
    · rw [formDefinitions_of_struct hstruct]
      simp [structDefinitions, keys, entry, detail]
    · rintro _ _ ⟨⟩
      exact hstruct

/-! ### What the forms bind -/

namespace Form

/-- The names that the form is there to bind. -/
def Bound : Form → String → Prop
  | var x _ => (· = x.name)
  | function f _ _ => (· = f.name)
  | struct type fields => SpecialForm.OperatorName type.name (fields.map Symbol.name)

/-- The expression for the value that is bound, if there is one. -/
def value? : Form → Option Datum
  | var _ [value] => some value
  | function _ params (body :: bodies) => some (.list [.name "lambda", .list (params.map .symbol),
      SpecialForm.bodyOf (body :: bodies)])
  | _ => none

/-- No name that is to be bound has the variadic mark. -/
def Unmarked : Form → Prop
  | var x _ => x.variadic = false
  | function f _ _ => f.variadic = false
  | struct type fields => type.variadic = false ∧ ∀ field ∈ fields, field.variadic = false

end Form

/-- What an evaluation comes to that binds these names itself, and does nothing else but to evaluate an
expression before that. -/
inductive Binds (names : String → Prop) (value? : Option Datum) (w : World) :
    Except Stop Datum × World → Prop
  | fails (s : Stop) : Binds names value? w (.error s, w)
  | stops {limit : Nat} {value : Datum} {s : Stop} {w₁ : World} : value? = some value →
    evaluate limit value w = (.error s, w₁) → Binds names value? w (.error s, w₁)
  | evaluated {limit : Nat} {value v : Datum} {w₁ : World} {e : Environment} :
    value? = some value → evaluate limit value w = (.ok v, w₁) →
    w₁.environment.BindsOnly names e → Binds names value? w (.ok .empty, { w₁ with environment := e })
  | declared {e : Environment} : w.environment.BindsOnly names e →
    Binds names value? w (.ok .empty, { w with environment := e })

theorem binds_define {w : World} (hdefine : w.environment.resolve "define" = .ok (.special .define))
    {target : Datum} {bodies : List Datum} {name : String} {value? : Option Datum}
    (hform : ∀ s value, SpecialForm.definition? target bodies = some (s, value) →
      s.name = name ∧ value? = some value) (limit : Nat) :
    Binds (· = name) value? w (evaluate limit (.list (.name "define" :: target :: bodies)) w) := by
  obtain ⟨s, hrun⟩ | ⟨k, s, value, hvalue, -, hrun⟩ :=
    SpecialForm.evaluate_define hdefine limit target bodies
  · rw [hrun]
    exact .fails s
  · obtain ⟨rfl, hvalue⟩ := hform s value hvalue
    obtain ⟨stop, w₁, heval, hbind⟩ | ⟨v, w₁, heval, hbind⟩ := Action.bind_cases (evaluate k value)
      (fun d => do Action.define s.name d; return Datum.empty) w
    · rw [hrun, hbind]
      exact .stops hvalue heval
    · rw [hrun, hbind]
      exact .evaluated hvalue heval (Environment.bindsOnly_define _ _ _)

theorem binds_struct {w : World}
    (hstruct : w.environment.resolve "define-struct" = .ok (.special .defineStruct))
    (type : Symbol) (fields : List Symbol) (limit : Nat) :
    Binds (SpecialForm.OperatorName type.name (fields.map Symbol.name)) none w
      (evaluate limit (.list (Form.struct type fields).items) w) := by
  match limit with
  | 0 | 1 => exact .fails .runaway
  | limit + 2 =>
    have hform : evaluate (limit + 2) (.list (Form.struct type fields).items) w =
        SpecialForm.runDefineStruct [.symbol type, .list (fields.map .symbol)] w :=
      SpecialForm.evaluate_call (f := .defineStruct) hstruct
    rw [hform]
    by_cases hfields : fields = []
    · subst hfields
      exact .fails _
    · rw [SpecialForm.runDefineStruct_eq (SpecialForm.structDeclaration_identifiers type hfields)]
      exact .declared (SpecialForm.declares_declared _ _ _).bindings

/-- A form binds the names that it is there to bind, and nothing else. -/
theorem Form.binds (form : Form) {w : World}
    (hdefine : w.environment.resolve "define" = .ok (.special .define))
    (hstruct : w.environment.resolve "define-struct" = .ok (.special .defineStruct)) (limit : Nat) :
    Binds form.Bound form.value? w (evaluate limit (.list form.items) w) := by
  cases form with
  | var x ds =>
    refine binds_define hdefine (fun s value h => ?_) limit
    match ds, h with
    | [_], rfl => exact ⟨rfl, rfl⟩
  | function f params bodies =>
    refine binds_define hdefine (fun s value h => ?_) limit
    match bodies, h with
    | body :: bodies, rfl => exact ⟨rfl, rfl⟩
  | struct type fields => exact binds_struct hstruct type fields limit

theorem Form.mem_keys_of_bound {form : Form} {x : String} (hform : form.Unmarked)
    (hx : form.Bound x) : ∃ kind, (x, kind) ∈ form.keys := by
  cases form with
  | var s ds =>
    obtain rfl : x = s.name := hx
    exact ⟨.var, by simp [keys, Symbol.text_of_unmarked hform]⟩
  | function s params bodies =>
    obtain rfl : x = s.name := hx
    exact ⟨.function, by simp [keys, Symbol.text_of_unmarked hform]⟩
  | struct type fields =>
    obtain ⟨htype, hfields⟩ := hform
    have htexts : fields.map Symbol.name = fields.map Symbol.text :=
      List.map_congr_left fun field hfield => (Symbol.text_of_unmarked (hfields field hfield)).symm
    change SpecialForm.OperatorName _ _ _ at hx
    rw [htexts, ← Symbol.text_of_unmarked htype] at hx
    rcases hx with rfl | ⟨_, hfield, rfl⟩ | rfl
    · exact ⟨.predicate, by simp [keys]⟩
    · obtain ⟨field, hmem, rfl⟩ := List.mem_map.1 hfield
      exact ⟨.accessor, List.mem_append_right _ (List.mem_map.2 ⟨field, hmem, rfl⟩)⟩
    · exact ⟨.constructor, by simp [keys]⟩

/-! ### Forms in texts -/

/-- What the scanner meets where a form stands in a text. -/
theorem definitionsAt_form {text : String} {ds : List Datum} {form : Form}
    (hread : read text = .ok ds) (hform : Starts ds k (.list form.items)) :
    ∃ place p, (Cursor.places text.toList)[k + form.offset]? = some place ∧
      place.token = .atom form.name.text.toList ∧
      p.Locates form.name.text.toList place.start text.toList ∧
      definitionsAt text.toList k = form.keys.map (form.entry p) ∧
      ∀ type fields, form = .struct type fields →
        Registers text.toList k type.text (fields.map Symbol.text) := by
  obtain ⟨hplaces, hs⟩ := places_of_read hread
  obtain ⟨before, ts, after, htokens, rfl, he⟩ := hform.exists_stretch hs
  have hps : ((scan text.toList).drop before.length).map (·.token) = ts ++ after := by
    rw [List.map_drop, htokens, List.drop_left]
  obtain ⟨b, n, rest, start, hdrop, hname, hdefinitions, hstruct⟩ :=
    Form.scanned text.toList he hps
  have hplace : (Cursor.places text.toList)[before.length + form.offset]? =
      some (Placed.place ⟨.atom form.name.text.toList, start⟩) := by
    rw [List.getElem?_drop] at hname
    rw [← hplaces, List.getElem?_map, hname]
    rfl
  refine ⟨_, Position.ofOffset text.toList start, hplace, rfl, ?_, ?_, ?_⟩
  · exact locates_of_place (List.mem_of_getElem? hplace)
  · rw [definitionsAt, hdrop]
    exact hdefinitions
  · intro type fields hform
    exact ⟨b, n, rest, _, hdrop, hstruct type fields hform⟩

theorem exists_starts {ds : List Datum} {d : Datum} (h : d ∈ ds) : ∃ k, Starts ds k d := by
  induction ds with
  | nil => cases h
  | cons d' ds ih =>
    rcases List.mem_cons.1 h with rfl | h
    · exact ⟨0, .here d ds⟩
    · obtain ⟨k, hk⟩ := ih h
      exact ⟨_, .later d' hk⟩

/-- In the index of a text that can be read, every form that defines names has its keys, wherever it
stands in the expressions of the text. If a key is met with nothing else in the text, its entry has the
kind and the shape that the form gives it, and the position of the name in the form; and a struct type
has its fields. So all is there that forms at the top of the text bind, if no name has the variadic
mark. -/
theorem index_definitions {text : String} {ds : List Datum} (hread : read text = .ok ds) :
    let cs := text.toList
    let x := Index.ofText text
    (∀ (form : Form) (k : Nat), Starts ds k (.list form.items) →
      ∃ place p, (Cursor.places cs)[k + form.offset]? = some place ∧
        place.token = .atom form.name.text.toList ∧
        p.Locates form.name.text.toList place.start cs ∧
        (∀ key ∈ form.keys, (x.symbols.find? key.1).isSome ∧
          ((∀ j, ∀ d ∈ definitionsAt cs j, d.name = key.1 → j = k ∧ d.kind = key.2) →
            x.symbols.find? key.1 = some (form.entry p key))) ∧
        ∀ type fields, form = .struct type fields →
          (∀ j, ∀ d ∈ definitionsAt cs j, d.name = type.text → j = k) →
            x.structs.find? type.text = some (fields.map Symbol.text)) ∧
    ∀ form : Form, .list form.items ∈ ds → form.Unmarked →
      (∀ limit (w : World), w.environment.resolve "define" = .ok (.special .define) →
        w.environment.resolve "define-struct" = .ok (.special .defineStruct) →
          Binds form.Bound form.value? w (evaluate limit (.list form.items) w)) ∧
      ∀ y, form.Bound y → (x.symbols.find? y).isSome := by
  intro cs x
  have hkeys (form : Form) (k : Nat) (hform : Starts ds k (.list form.items)) :
      ∀ key ∈ form.keys, (x.symbols.find? key.1).isSome := by
    obtain ⟨_, p, -, -, -, hdefinitions, -⟩ := definitionsAt_form hread hform
    intro key hkey
    have hmem : form.entry p key ∈ definitionsAt cs k :=
      hdefinitions ▸ List.mem_map_of_mem hkey
    exact isSome_symbols hmem
  refine ⟨fun form k hform => ?_, fun form hmem hmarks =>
    ⟨fun limit w hdefine hstruct => form.binds hdefine hstruct limit, fun y hy => ?_⟩⟩
  · obtain ⟨place, p, hplace, htoken, hlocates, hdefinitions, hstruct⟩ :=
      definitionsAt_form hread hform
    refine ⟨place, p, hplace, htoken, hlocates, fun key hkey => ⟨hkeys form k hform key hkey, ?_⟩, ?_⟩
    · intro hall
      have hmem : form.entry p key ∈ definitionsAt cs k :=
        hdefinitions ▸ List.mem_map_of_mem hkey
      refine find?_symbols hmem fun j d hd hname => ?_
      obtain ⟨rfl, hkind⟩ := hall j d hd hname
      rw [hdefinitions] at hd
      obtain ⟨key', -, rfl⟩ := List.mem_map.1 hd
      obtain rfl : key' = key := Prod.ext hname hkind
      rfl
    · rintro type fields rfl hall
      have hregisters := hstruct type fields rfl
      refine hregisters.find?_structs fun j fields' hregisters' => ?_
      obtain ⟨d, hd, hname⟩ := hregisters'.exists_definition
      obtain rfl := hall j d hd hname
      exact hregisters'.fields_eq hregisters
  · obtain ⟨k, hk⟩ := exists_starts hmem
    obtain ⟨kind, hkey⟩ := Form.mem_keys_of_bound hmarks hy
    exact hkeys form k hk _ hkey

/-- A struct type in square brackets, quoted in the body of a function on the line before. -/
theorem index_definitions_quoted :
    let text := "(define (f x)\n '[define-struct P (a)])"
    let struct : Form := .struct ⟨"P", false⟩ [⟨"a", false⟩]
    let function : Form := .function ⟨"f", false⟩ [⟨"x", false⟩] [.quote (.list struct.items)]
    let x := Index.ofText text
    read text = .ok [.list function.items] ∧
    (∃ p, x.symbols.find? "f" = some ⟨"f", .function, p, some "(f x)"⟩ ∧
      p.Locates "f".toList 9 text.toList) ∧
    (∃ p, x.symbols.find? "P-a" = some ⟨"P-a", .accessor, p, some "(P-a v)"⟩ ∧
      p.Locates "P".toList 31 text.toList) ∧
    x.structs.find? "P" = some ["a"] ∧ (x.symbols.find? "f").isSome := by
  intro text struct function x
  have htokens : Cursor.ofText text = ⟨[.opening .round, .atom "define".toList, .opening .round,
    .atom ['f'], .atom ['x'], .closing .round, .quote, .opening .square,
    .atom "define-struct".toList, .atom ['P'], .opening .round, .atom ['a'], .closing .round,
    .closing .square, .closing .round], none⟩ := by decide +kernel
  have hread : read text = .ok [.list function.items] := by
    rw [read_eq_ok, ofCursor_eq_iff, htokens]
    have hdefine : Expression [.atom "define".toList] (.name "define") := .atom rfl
    have hf : Expression [.atom ['f']] (.name "f") := .atom rfl
    have hx : Expression [.atom ['x']] (.name "x") := .atom rfl
    have hstruct : Expression [.opening .square, .atom "define-struct".toList, .atom ['P'],
        .opening .round, .atom ['a'], .closing .round, .closing .square] (.list struct.items) :=
      .list .square (.cons (.atom rfl) (.cons (.atom rfl)
        (.cons (.list .round (.cons (.atom rfl) .nil)) .nil)))
    have hfunction := Expression.list .round (.cons hdefine (.cons
      (.list .round (.cons hf (.cons hx .nil))) (.cons (.quote hstruct) .nil)))
    exact ⟨rfl, .cons hfunction .nil⟩
  have honly : ∀ j < (scan text.toList).length, ∀ d ∈ definitionsAt text.toList j,
      (d.name = "f" → j = 0 ∧ d.kind = .function) ∧
      (d.name = "P-a" → j = 7 ∧ d.kind = .accessor) ∧ (d.name = "P" → j = 7) := by
    decide +kernel
  have honly (j : Nat) (d : Definition) (hd : d ∈ definitionsAt text.toList j) :=
    honly j (lt_of_mem_definitionsAt hd) d hd
  obtain ⟨hall, htop⟩ := index_definitions hread
  obtain ⟨place, p, hplace, -, hp, hkeys, -⟩ := hall function 0 (.here _ _)
  obtain ⟨place', p', hplace', -, hp', hkeys', hfields⟩ := hall struct 7
    (.item [] (.later _ (.later _ (.quoted [] (.here _ _)))))
  have hstart : (Cursor.places text.toList)[3]? = some ⟨.atom ['f'], 9, 10⟩ := by decide +kernel
  have hstart' : (Cursor.places text.toList)[9]? = some ⟨.atom ['P'], 31, 32⟩ := by decide +kernel
  cases hstart.symm.trans hplace
  cases hstart'.symm.trans hplace'
  refine ⟨hread, ⟨p, ?_, hp⟩, ⟨p', ?_, hp'⟩, ?_, ?_⟩
  · exact (hkeys ("f", .function) (by decide)).2 fun j d hd => (honly j d hd).1
  · exact (hkeys' ("P-a", .accessor) (by decide)).2 fun j d hd => (honly j d hd).2.1
  · exact hfields _ _ rfl fun j d hd => (honly j d hd).2.2
  · exact (htop function List.mem_cons_self rfl).2 "f" rfl

end DynamicLisp.Editor
