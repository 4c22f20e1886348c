import DynamicLisp.Proofs.Datum.WellFormed
import DynamicLisp.Proofs.Evaluation.Invariant
import DynamicLisp.Proofs.Session.Step

/-! Well-formed values in every scope, throughout a session (`reached_wellFormed`). -/
namespace DynamicLisp

namespace Table

variable {κ α : Type} [DecidableEq κ] {t : Table κ α} {x : κ} {a : α} {b : κ × α}

theorem mem_of_find? (h : t.find? x = some a) : (x, a) ∈ t.entries := by
  obtain ⟨before, after, hentries, _⟩ := List.lookup_eq_some_iff.1 h
  simp [hentries]

theorem mem_set (h : b ∈ (t.set x a).entries) : b.2 = a ∨ b ∈ t.entries := by
  have hmem (es : List (κ × α)) (h : b ∈ setIn x a es) : b.2 = a ∨ b ∈ es := by
    induction es with
    | nil => grind [setIn]
    | cons e es ih => grind [setIn]
  exact hmem t.entries h

theorem mem_update {bindings : List (κ × α)} (h : b ∈ (t.update bindings).entries) :
    (∃ c ∈ bindings, b.2 = c.2) ∨ b ∈ t.entries := by
  induction bindings generalizing t with
  | nil => exact .inr h
  | cons c bindings ih =>
    rcases ih (t := t.set c.1 c.2) h with ⟨c', hc', hb⟩ | hb
    · exact .inl ⟨c', List.mem_cons_of_mem _ hc', hb⟩
    · rcases mem_set hb with hb | hb
      · exact .inl ⟨c, List.mem_cons_self, hb⟩
      · exact .inr hb

end Table

namespace Environment

variable {e f g : Environment} {x : String} {d : Datum}

theorem innermost_mem_scopes (e : Environment) : e.innermost ∈ e.scopes := by
  obtain ⟨inner, base, structs⟩ := e
  cases inner <;> simp [innermost, scopes]

theorem mem_scopes_modifyInnermost {u : Scope → Scope} {s : Scope}
    (h : s ∈ (e.modifyInnermost u).scopes) : s = u e.innermost ∨ s ∈ e.scopes := by
  obtain ⟨inner, base, structs⟩ := e
  cases inner with
  | nil => exact .inl (List.mem_singleton.1 h)
  | cons s' inner => exact (List.mem_cons.1 h).imp id (List.mem_cons_of_mem _)

theorem mem_scopes_of_exit (h : f.exit? = some g) {s : Scope} (hs : s ∈ g.scopes) :
    s ∈ f.scopes := by
  obtain ⟨inner, base, structs⟩ := f
  cases inner with
  | nil => cases h
  | cons s' inner =>
    cases h
    exact List.mem_cons_of_mem _ hs

theorem exists_scope_of_lookupIn {inner : List Scope} {base : Scope}
    (h : lookupIn inner base x = some d) : ∃ s ∈ inner ++ [base], s.find? x = some d := by
  unfold lookupIn at h
  split at h
  · rename_i hfound
    cases h
    obtain ⟨s, hs, hx⟩ := List.exists_of_findSome?_eq_some hfound
    exact ⟨s, List.mem_append_left _ hs, hx⟩
  · exact ⟨base, by simp, h⟩

/-- What an identifier stands for is bound in some scope. -/
theorem exists_scope_of_resolve (h : e.resolve x = .ok d) :
    ∃ s ∈ e.scopes, ∃ y, s.find? y = some d := by
  have hsuper {y : String} (h : e.getSuper? y = some d) : ∃ s ∈ e.scopes, s.find? y = some d := by
    obtain ⟨s, hs, hy⟩ := exists_scope_of_lookupIn h
    refine ⟨s, ?_, hy⟩
    rcases List.mem_append.1 hs with hs | hs
    · exact List.mem_append_left _ (List.mem_of_mem_tail hs)
    · exact List.mem_append_right _ hs
  unfold resolve at h
  split at h
  · rename_i y _
    cases hfound : e.getSuper? y <;> rw [hfound] at h <;> cases h
    obtain ⟨s, hs, hy⟩ := hsuper hfound
    exact ⟨s, hs, y, hy⟩
  · cases hfound : e.get? x <;> rw [hfound] at h <;> cases h
    obtain ⟨s, hs, hx⟩ := exists_scope_of_lookupIn hfound
    exact ⟨s, hs, x, hx⟩

theorem knows_of_structs (h : e.structs = f.structs) : e.Knows = f.Knows := by
  funext type
  rw [Knows, Knows, fields?, fields?, h]

/-- Every value that is bound in some scope is well formed. -/
def WellFormed (e : Environment) : Prop :=
  ∀ s ∈ e.scopes, ∀ b ∈ s.entries, b.2.WellFormed e.Knows

namespace WellFormed

theorem resolve (h : e.WellFormed) (hd : e.resolve x = .ok d) : d.WellFormed e.Knows := by
  obtain ⟨s, hs, y, hy⟩ := exists_scope_of_resolve hd
  exact h s hs _ (Table.mem_of_find? hy)

theorem enter (h : e.WellFormed) : e.enter.WellFormed :=
  List.forall_mem_cons.2 ⟨List.forall_mem_nil _, h⟩

theorem exit (h : f.WellFormed) (hg : f.exit? = some g) : g.WellFormed := by
  intro s hs
  rw [knows_of_structs (structs_exit hg)]
  exact h s (mem_scopes_of_exit hg hs)

theorem update (h : e.WellFormed) (bindings : List (String × Datum))
    (hbindings : ∀ b ∈ bindings, b.2.WellFormed e.Knows) : (e.update bindings).WellFormed := by
  intro s hs b hb
  rw [Environment.update, knows_of_structs (structs_modifyInnermost _)]
  rcases mem_scopes_modifyInnermost hs with rfl | hs
  · rcases Table.mem_update hb with ⟨c, hc, hbc⟩ | hb
    · rw [hbc]
      exact hbindings c hc
    · exact h _ e.innermost_mem_scopes b hb
  · exact h s hs b hb

/-- The operators of a struct type are well formed from its declaration on. -/
theorem declared (h : e.WellFormed) (type : String) (fields : List String) :
    (SpecialForm.declared type fields e).WellFormed := by
  have htypes := (Framed.addStruct (e := e) type fields).types
  have hadd : (e.addStruct type fields).WellFormed := fun s hs b hb => (h s hs b hb).mono htypes
  refine hadd.update _ (List.forall_mem_map.2 fun f hf => .special fun type' fields' hf' => ?_)
  have hsame : type' = type := by
    simp only [SpecialForm.mem_structOperators] at hf hf'
    aesop
  rw [hsame, Knows, fields?, addStruct, Table.find?_set, if_pos rfl]
  rfl

theorem standard : standardEnvironment.WellFormed := by
  have hempty : Environment.empty.WellFormed := by
    intro s hs
    rw [List.mem_singleton.1 hs]
    exact List.forall_mem_nil _
  refine hempty.update _ ?_
  simp only [standardBindings, List.forall_mem_append, List.forall_mem_map]
  refine ⟨⟨?_, fun f hf => .special fun type fields hoperator => ?_⟩, fun f _ => .intrinsic f⟩
  · have hvalue : ∀ d ∈ standardConstants.map Prod.snd, d.WellFormed Environment.empty.Knows := by
      simp only [standardConstants, List.map_cons, List.map_nil, List.forall_mem_cons]
      exact ⟨.list (List.forall_mem_nil _), .number _, .number _, .number _, .number _, .string _,
        .string _, List.forall_mem_nil _⟩
    exact fun b hb => hvalue b.2 (List.mem_map_of_mem hb)
  · simp only [SpecialForm.mem_structOperators] at hoperator
    simp only [SpecialForm.standard] at hf
    aesop

end WellFormed

end Environment

open Datum (IsCode)

/-- Well-formed values in every scope. -/
def Invariant.wellFormed : Invariant where
  Sound := Environment.WellFormed
  Value := Datum.WellFormed
  Code := IsCode
  Declares _ _ _ := True
  Stops := Stop.Ordinary
  mono hknown hd := hd.mono hknown
  values known := {
    bool := .bool
    number := .number
    string := .string
    list := Datum.wellFormed_list
    read := fun hd => (isCode_of_read hd).toValue }
  closure := .closure
  body := by
    rintro _ _ _ _ ⟨⟩
    assumption
  instance_iff := by
    intro known type fields hknown
    refine ⟨.struct hknown, ?_⟩
    rintro ⟨⟩
    assumption
  registered := by
    rintro known f type fields hf hoperator
    cases hf with
    | special hf => exact .inl (hf type fields hoperator)
  symbol := .symbol
  items := Datum.isCode_list
  quoted := by
    intro known d hd
    cases hd with
    | quote hd => exact hd.toValue
  literal := by
    intro known d hd hsymbol hlist hquote
    cases hd with
    | bool b => exact .bool b
    | number x => exact .number x
    | string s => exact .string s
    | symbol s => exact (hsymbol s rfl).elim
    | list => exact (hlist _ rfl).elim
    | quote => exact (hquote _ rfl).elim
  read := isCode_of_read
  expr hd := hd.toExpr.monoError fun e he => by
    obtain ⟨f, rfl⟩ := he
    exact ⟨nofun, nofun⟩
  ordinary := id
  resolve := Environment.WellFormed.resolve
  enter := Environment.WellFormed.enter
  exit _ hf _ hg := hf.exit hg
  update h _ := h.update _
  define {_ x d} h _ hd := h.update [(x, d)] (List.forall_mem_singleton.2 hd)
  declare h _ := h.declared _ _

theorem wellFormed_keeps (limit : Nat) : Invariant.wellFormed.Keeps (evaluate limit) :=
  Invariant.wellFormed.evaluate (fun _ _ _ => trivial) limit

/-! ### Applications -/

/-- The closure that an intrinsic applies in the end: `apply` hands its arguments on to a closure, or
to another intrinsic. -/
inductive Intrinsic.Applies : Intrinsic → List Datum → Datum → Prop
  | closure (params : List String) (variadic : Bool) (body : Datum) (args : List Datum) :
    Applies .apply [.closure params variadic body, .list args] (.closure params variadic body)
  | apply {f : Intrinsic} {args : List Datum} {closure : Datum} :
    Applies f args closure → Applies .apply [.intrinsic f, .list args] closure

/-- The expression is a form that applies a variadic closure without parameters, itself or through
`apply`. No parameter of such a closure can take the arguments that are left. -/
def AppliesWithoutLast (d : Datum) (w : World) : Prop :=
  ∃ limit head exprs v args body w₁ w₂, d = .list (head :: exprs) ∧
    evaluate limit head w = (.ok v, w₁) ∧ evaluateAll (evaluate limit) exprs w₁ = (.ok args, w₂) ∧
    (v = .closure [] true body ∨ ∃ f, v = .intrinsic f ∧ f.Applies args (.closure [] true body))

variable {known : String → Prop} {body d : Datum} {args : List Datum} {w : World}

theorem not_wellFormed_withoutLast : ¬ (Datum.closure [] true body).WellFormed known := by
  intro h
  cases h with
  | closure hparams _ => exact hparams rfl rfl

theorem Intrinsic.Applies.wellFormed {f : Intrinsic} {closure : Datum} (h : f.Applies args closure)
    (hargs : ∀ a ∈ args, a.WellFormed known) : closure.WellFormed known := by
  induction h with
  | closure => exact hargs _ List.mem_cons_self
  | apply _ ih => exact ih (Datum.wellFormed_list.1 (hargs _ (by simp)))

theorem not_appliesWithoutLast (hd : IsCode d) (hw : w.environment.WellFormed) :
    ¬ AppliesWithoutLast d w := by
  rintro ⟨limit, head, exprs, v, args, body, w₁, w₂, rfl, hv, hargs, happlies⟩
  obtain ⟨hhead, hexprs⟩ := List.forall_mem_cons.1 (Datum.isCode_list.1 hd)
  obtain ⟨hframed₁, hw₁, hvalue⟩ := wellFormed_keeps limit head w hhead hw
  rw [hv] at hw₁ hvalue
  obtain ⟨-, -, hvalues⟩ := Invariant.evaluateAll (wellFormed_keeps limit) hw₁ exprs hexprs
  rw [hargs] at hvalues
  rcases happlies with rfl | ⟨f, rfl, hf⟩
  · exact not_wellFormed_withoutLast hvalue
  · exact not_wellFormed_withoutLast (hf.wellFormed hvalues)

/-- What must not be come to: a value that is not well formed, bound in some scope, or the application
of a variadic closure without parameters. -/
def Corrupt (d : Datum) (w : World) : Prop :=
  ¬ w.environment.WellFormed ∨ AppliesWithoutLast d w

theorem not_encountersIn_corrupt (hw : w.environment.WellFormed) (limit : Nat) (ds : List Datum)
    (hds : ∀ d ∈ ds, IsCode d) : ¬ EncountersIn (moments Corrupt) limit ds w := by
  have huntil : Invariant.wellFormed.Keeps (evaluateUntil (moments Corrupt) limit) := by
    refine Invariant.wellFormed.evaluateUntil (fun _ _ _ _ _ _ _ _ _ _ => trivial) ?_ limit
    intro d w hd hw hcorrupt
    rcases moments_iff.1 hcorrupt with h | h
    · exact (h hw).elim
    · exact (not_appliesWithoutLast hd hw h).elim
  have hscope : ¬ Stop.Ordinary .noScope := fun h => h.1 rfl
  exact Invariant.not_encountersIn (wellFormed_keeps limit) huntil hscope hw ds hds

/-! ### Sessions -/

theorem Host.isCode_expressions (h : Host) (file : Option Path) : ∀ d ∈ h.expressions file, IsCode d := by
  unfold Host.expressions
  cases file.map h.files.read with
  | none => exact List.forall_mem_nil _
  | some read =>
    cases read with
    | error e => exact List.forall_mem_nil _
    | ok text =>
      have hexprs : (readChars text).toOption.getD [] ⊆ (Script.ofChars text).exprs := by
        rw [readChars, Script.whole]
        cases (Script.ofChars text).fault <;> simp [Except.toOption]
      exact fun d hd => isCode_of_read (hexprs hd)

/-- The operations of a session evaluate what has been read. -/
theorem Session.Step.isCode {limit : Nat} {ds : List Datum} {w' : World}
    (h : Session.Step limit ds w w') : ∀ d ∈ ds, IsCode d := by
  cases h with
  | library | load => exact Host.isCode_expressions _ _
  | text | request => exact fun _ hd => isCode_of_read hd

/-- Between the operations of a session every value in every scope is well formed. At no moment of an
operation is there a value in a scope that is not, or is a variadic closure without parameters applied.
The results of texts and files are well formed, and none of them fails because a struct type is not
registered. -/
theorem reached_wellFormed (hw : Session.Reached w) :
    w.environment.WellFormed ∧
    (∀ limit ds w', Session.Step limit ds w w' → ¬ EncountersIn (moments Corrupt) limit ds w) ∧
    (∀ limit text,
      Gives Stop.Ordinary (·.WellFormed (Session.evalText limit text w).2.environment.Knows)
        (Session.evalText limit text w).1) ∧
    (∀ limit name,
      Gives Stop.Ordinary (·.WellFormed (Session.load limit name w).2.environment.Knows)
        (Session.load limit name w).1) ∧
    ∀ limit library host,
      Gives Stop.Ordinary (fun _ => True) (Session.start limit library host).1 := by
  have hsound : w.environment.WellFormed :=
    Invariant.reached wellFormed_keeps Environment.WellFormed.standard hw
  refine ⟨hsound, fun limit ds _ hstep => not_encountersIn_corrupt hsound limit ds hstep.isCode,
    fun limit text => ?_, fun limit name => ?_, fun limit library host => ?_⟩
  · exact (Invariant.evalText (wellFormed_keeps limit) hsound text).result
  · exact (Invariant.load (wellFormed_keeps limit) hsound name).result
  · cases library with
    | false => trivial
    | true =>
      have hstart : (⟨standardEnvironment, host⟩ : World).environment.WellFormed :=
        Environment.WellFormed.standard
      exact (Invariant.loadLibrary (wellFormed_keeps limit) hstart).result

/-- An instance of a type that was declared by an earlier text, in a list. -/
theorem reached_wellFormed_instance :
    let w := (Session.evalText 9 "(define-struct p (x))" (Session.start 9 false default).2).2
    let ended := Session.evalText 9 "(list 'a (make-p ''()))" w
    Session.Reached w ∧ ∃ d, ended.1 = .ok d ∧ d.display = "(a (make-p ()))" ∧
      d.WellFormed ended.2.environment.Knows := by
  intro w ended
  have hw : Session.Reached w := .text 9 _ (.start 9 false default)
  have hdisplay : ended.1.map Datum.display = .ok "(a (make-p ()))" := by decide +kernel
  have hresult := (reached_wellFormed hw).2.2.1 9 "(list 'a (make-p ''()))"
  cases hended : ended.1 with
  | error s =>
    rw [hended] at hdisplay
    cases hdisplay
  | ok d =>
    rw [hended] at hdisplay
    refine ⟨hw, d, rfl, Except.ok.inj hdisplay, ?_⟩
    have hgives : Gives Stop.Ordinary (·.WellFormed ended.2.environment.Knows) ended.1 := hresult
    rwa [hended] at hgives

end DynamicLisp
