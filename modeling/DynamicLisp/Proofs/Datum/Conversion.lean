import DynamicLisp.Proofs.Datum.Sameness
import DynamicLisp.Proofs.Datum.WellFormed

/-! Quotations and nil marks taken off an expression, one at a time and in any order, until none is
left; and what becomes of a value that is made into an expression. -/
namespace DynamicLisp.Datum

open Relation (ReflTransGen)

theorem sizeOf_quoted_lt (d : Datum) : sizeOf d < sizeOf (quote d) := by
  rw [quote.sizeOf_spec]
  omega

/-- Induction on the structure of data, with the bodies of closures left alone. -/
@[elab_as_elim]
theorem induction {motive : Datum → Prop} (bool : ∀ b, motive (.bool b))
    (number : ∀ x, motive (.number x)) (string : ∀ s, motive (.string s))
    (symbol : ∀ s, motive (.symbol s))
    (list : ∀ items, (∀ d ∈ items, motive d) → motive (.list items))
    (quote : ∀ d, motive d → motive (.quote d)) (nil : motive .nil)
    (closure : ∀ params variadic body, motive (.closure params variadic body))
    (intrinsic : ∀ f, motive (.intrinsic f)) (special : ∀ f, motive (.special f))
    (struct : ∀ type fields, (∀ d ∈ fields, motive d) → motive (.struct type fields))
    (d : Datum) : motive d := by
  induction hsize : sizeOf d using Nat.strongRecOn generalizing d with
  | _ n ih =>
    subst hsize
    cases d with
    | bool b => exact bool b
    | number x => exact number x
    | string s => exact string s
    | symbol s => exact symbol s
    | list items => exact list items fun d hd => ih _ (sizeOf_item_lt hd) d rfl
    | quote d => exact quote d (ih _ (sizeOf_quoted_lt d) d rfl)
    | nil => exact nil
    | closure params variadic body => exact closure params variadic body
    | intrinsic f => exact intrinsic f
    | special f => exact special f
    | struct type fields => exact struct type fields fun d hd => ih _ (sizeOf_field_lt hd) d rfl

variable {d e v : Datum} {ds : List Datum}

/-- Expressions as they are read, with nil marks. -/
inductive Tree : Datum → Prop
  | bool (b : Bool) : Tree (.bool b)
  | number (x : Float) : Tree (.number x)
  | string (s : String) : Tree (.string s)
  | symbol (s : Symbol) : Tree (.symbol s)
  | list {ds : List Datum} : (∀ d ∈ ds, Tree d) → Tree (.list ds)
  | quote {d : Datum} : Tree d → Tree (.quote d)
  | nil : Tree .nil

theorem IsCode.tree (h : IsCode d) : Tree d := by
  induction h with
  | bool b => exact .bool b
  | number x => exact .number x
  | string s => exact .string s
  | symbol s => exact .symbol s
  | list _ ih => exact .list ih
  | quote _ ih => exact .quote ih

/-- No quotation and no nil mark occurs in it. -/
def Unmarked (d : Datum) : Prop := ∀ o, Occurs o d → o ≠ .nil ∧ ∀ q, o ≠ .quote q

theorem unmarked_list : Unmarked (.list ds) ↔ ∀ d ∈ ds, Unmarked d := by
  refine ⟨fun h d hd o ho => h o (.item hd ho), fun h o ho => ?_⟩
  cases ho with
  | self => exact ⟨nofun, nofun⟩
  | item hd ho => exact h _ hd o ho

theorem unmarked_struct {type : String} :
    Unmarked (.struct type ds) ↔ ∀ d ∈ ds, Unmarked d := by
  refine ⟨fun h d hd o ho => h o (.field hd ho), fun h o ho => ?_⟩
  cases ho with
  | self => exact ⟨nofun, nofun⟩
  | field hd ho => exact h _ hd o ho

theorem Unmarked.leaf (hlist : ∀ ds, d ≠ .list ds) (hstruct : ∀ type ds, d ≠ .struct type ds)
    (hnil : d ≠ .nil) (hquote : ∀ q, d ≠ .quote q) : Unmarked d := by
  intro o ho
  cases ho with
  | self => exact ⟨hnil, hquote⟩
  | item => exact absurd rfl (hlist _)
  | field => exact absurd rfl (hstruct _ _)

theorem WellFormed.unmarked {known : String → Prop} (h : WellFormed known v) : Unmarked v := by
  induction h with
  | list _ ih => exact unmarked_list.2 ih
  | struct _ _ ih => exact unmarked_struct.2 ih
  | _ => exact .leaf nofun nofun nofun nofun

/-! ### Quotations and nil marks taken off -/

/-- One quotation is taken off an expression, at whatever depth, or one nil mark in it becomes the
empty list. -/
inductive Removes : Datum → Datum → Prop
  | quote (d : Datum) : Removes (.quote d) d
  | nil : Removes .nil .empty
  | inside {d d' : Datum} : Removes d d' → Removes (.quote d) (.quote d')
  | item {d d' : Datum} {before after : List Datum} : Removes d d' →
    Removes (.list (before ++ d :: after)) (.list (before ++ d' :: after))

/-- What is left of an expression when no more can be taken off. -/
def Strips (e d : Datum) : Prop := ReflTransGen Removes e d ∧ Unmarked d

theorem Removes.toValue_eq (h : Removes e d) : e.toValue = d.toValue := by
  induction h with
  | quote d => rfl
  | nil => rfl
  | inside _ ih => exact ih
  | item _ ih =>
    simp only [toValue, toValues_eq_map, List.map_append, List.map_cons, ih]

theorem toValue_eq_of_removed (h : ReflTransGen Removes e d) : e.toValue = d.toValue := by
  induction h with
  | refl => rfl
  | tail _ hstep ih => exact ih.trans hstep.toValue_eq

theorem Unmarked.toValue_eq (h : Unmarked d) : d.toValue = d := by
  induction d using Datum.induction with
  | list items ih =>
    have hitems : items.map Datum.toValue = items.map id :=
      List.map_congr_left fun d hd => ih d hd (unmarked_list.1 h d hd)
    rw [Datum.toValue, toValues_eq_map, hitems, List.map_id]
  | quote d => exact absurd rfl ((h _ (.self _)).2 d)
  | nil => exact absurd rfl (h _ (.self _)).1
  | _ => rfl

/-- The items of a list are stripped one after the other. -/
theorem removed_items (before : List Datum) (h : ∀ d ∈ ds, ReflTransGen Removes d d.toValue) :
    ReflTransGen Removes (.list (before ++ ds)) (.list (before ++ ds.map toValue)) := by
  induction ds generalizing before with
  | nil => exact .refl
  | cons d ds ih =>
    obtain ⟨hd, hds⟩ := List.forall_mem_cons.1 h
    have hfirst : ReflTransGen Removes (.list (before ++ d :: ds))
        (.list (before ++ d.toValue :: ds)) :=
      hd.lift (fun d => Datum.list (before ++ d :: ds)) fun _ _ => Removes.item
    have hrest := ih (before ++ [d.toValue]) hds
    rw [List.append_assoc, List.append_assoc] at hrest
    exact hfirst.trans hrest

theorem Tree.removed (h : Tree e) : ReflTransGen Removes e e.toValue := by
  induction h with
  | list _ ih =>
    rw [Datum.toValue, toValues_eq_map]
    exact removed_items [] ih
  | quote _ ih => exact .head (.quote _) ih
  | nil => exact .single .nil
  | bool | number | string | symbol => exact .refl

theorem Tree.wellFormed_toValue (h : Tree e) (known : String → Prop) :
    WellFormed known e.toValue := by
  induction h with
  | list _ ih =>
    rw [Datum.toValue, toValues_eq_map]
    exact .list (List.forall_mem_map.2 ih)
  | quote _ ih => exact ih
  | nil => exact .list (List.forall_mem_nil _)
  | bool b => exact .bool b
  | number x => exact .number x
  | string s => exact .string s
  | symbol s => exact .symbol s

theorem Tree.unmarked_toValue (h : Tree e) : Unmarked e.toValue :=
  (h.wellFormed_toValue fun _ => False).unmarked

/-- In whatever order quotations and nil marks are taken off, the value of the expression is left. -/
theorem Tree.strips_iff (h : Tree e) : Strips e d ↔ d = e.toValue := by
  constructor
  · rintro ⟨hremoved, hunmarked⟩
    rw [toValue_eq_of_removed hremoved, hunmarked.toValue_eq]
  · rintro rfl
    exact ⟨h.removed, h.unmarked_toValue⟩

theorem toExprs_of_fixed (h : ∀ d ∈ ds, d.toExpr = .ok d) : toExprs ds = .ok ds := by
  induction ds with
  | nil => rfl
  | cons d ds ih =>
    obtain ⟨hd, hds⟩ := List.forall_mem_cons.1 h
    rw [toExprs, hd, ih hds]
    rfl

theorem Tree.toExpr_toValue (h : Tree e) : e.toValue.toExpr = .ok e.toValue := by
  induction h with
  | list _ ih =>
    rw [Datum.toValue, toValues_eq_map, Datum.toExpr, toExprs_of_fixed (List.forall_mem_map.2 ih)]
    rfl
  | quote _ ih => exact ih
  | _ => rfl

/-! ### Values made into expressions -/

mutual

/-- A value and what occurs in it, from left to right. Nothing occurs in a closure. -/
def occurrences : Datum → List Datum
  | list items => list items :: occurrencesOf items
  | struct type fields => struct type fields :: occurrencesOf fields
  | d => [d]

def occurrencesOf : List Datum → List Datum
  | [] => []
  | d :: ds => occurrences d ++ occurrencesOf ds

end

theorem mem_occurrencesOf : d ∈ occurrencesOf ds ↔ ∃ item ∈ ds, d ∈ item.occurrences := by
  induction ds with
  | nil => simp [occurrencesOf]
  | cons item ds ih => rw [occurrencesOf, List.mem_append, ih, List.exists_mem_cons_iff]

theorem occurs_of_mem (h : d ∈ v.occurrences) : Occurs d v := by
  induction v using Datum.induction with
  | list items ih =>
    rcases List.mem_cons.1 h with rfl | h
    · exact .self _
    · obtain ⟨item, hitem, h⟩ := mem_occurrencesOf.1 h
      exact .item hitem (ih item hitem h)
  | struct type fields ih =>
    rcases List.mem_cons.1 h with rfl | h
    · exact .self _
    · obtain ⟨value, hvalue, h⟩ := mem_occurrencesOf.1 h
      exact .field hvalue (ih value hvalue h)
  | _ =>
    rw [List.mem_singleton.1 h]
    exact .self _

theorem Occurs.mem (h : Occurs d v) : d ∈ v.occurrences := by
  induction h with
  | self => cases d <;> exact List.mem_cons_self
  | item hitem _ ih => exact List.mem_cons_of_mem _ (mem_occurrencesOf.2 ⟨_, hitem, ih⟩)
  | field hvalue _ ih => exact List.mem_cons_of_mem _ (mem_occurrencesOf.2 ⟨_, hvalue, ih⟩)

theorem mem_occurrences : d ∈ v.occurrences ↔ Occurs d v := ⟨occurs_of_mem, Occurs.mem⟩

/-- The name of a native operator. -/
def nativeName? : Datum → Option String
  | intrinsic f => some f.name
  | special f => some f.name
  | _ => none

/-- The name of the first native operator that occurs in a value. -/
def firstNative? (v : Datum) : Option String := v.occurrences.findSome? nativeName?

/-- The conversion fails because of the operator of that name, or goes through if there is none. -/
def DecidedBy {α : Type} (name? : Option String) (r : Except LispError α) : Prop :=
  match name? with
  | some name => r = .error (.noSource name)
  | none => ∃ a, r = .ok a

section

variable {α β : Type} {o p : Option String} {r : Except LispError α}

theorem DecidedBy.bind {f : α → Except LispError β} (h : DecidedBy o r)
    (hf : ∀ a, DecidedBy p (f a)) : DecidedBy (o.or p) (r >>= f) := by
  cases o with
  | some name =>
    rw [h]
    rfl
  | none =>
    obtain ⟨a, rfl⟩ := h
    exact hf a

theorem DecidedBy.map (h : DecidedBy o r) (f : α → β) : DecidedBy o (do return f (← r)) := by
  have hbind := h.bind (p := none) (f := fun a => pure (f a)) fun a => ⟨f a, rfl⟩
  rwa [Option.or_none] at hbind

end

mutual

theorem decided_toExpr : (v : Datum) → DecidedBy v.firstNative? v.toExpr
  | list items => (decided_toExprs items).map list
  | struct type fields => (decided_toExprs fields).map fun ds => list (name ("make-" ++ type) :: ds)
  | bool _ | number _ | string _ | symbol _ | quote _ | nil | closure .. => ⟨_, rfl⟩
  | intrinsic _ | special _ => rfl

theorem decided_toExprs : (ds : List Datum) →
    DecidedBy ((occurrencesOf ds).findSome? nativeName?) (toExprs ds)
  | [] => ⟨_, rfl⟩
  | d :: ds => by
    rw [occurrencesOf, List.findSome?_append]
    exact (decided_toExpr d).bind fun a => (decided_toExprs ds).map (a :: ·)

end

theorem toExpr_error_iff {err : LispError} :
    v.toExpr = .error err ↔ ∃ name, v.firstNative? = some name ∧ err = .noSource name := by
  have hdecided := decided_toExpr v
  cases hname : v.firstNative? with
  | none =>
    rw [hname] at hdecided
    obtain ⟨d, hd⟩ := hdecided
    rw [hd]
    exact ⟨nofun, nofun⟩
  | some name =>
    rw [hname] at hdecided
    rw [hdecided]
    constructor
    · rintro ⟨⟩
      exact ⟨name, rfl, rfl⟩
    · rintro ⟨_, ⟨⟩, rfl⟩
      rfl

/-- A conversion that does not go through is stopped by a native operator that occurs in the value. -/
theorem toExpr_fails_iff :
    (∃ err, v.toExpr = .error err) ↔ ∃ d name, Occurs d v ∧ d.nativeName? = some name := by
  constructor
  · rintro ⟨err, h⟩
    obtain ⟨name, hfirst, -⟩ := toExpr_error_iff.1 h
    obtain ⟨d, hd, hname⟩ := List.exists_of_findSome?_eq_some hfirst
    exact ⟨d, name, mem_occurrences.1 hd, hname⟩
  · rintro ⟨d, name, hd, hname⟩
    cases hfirst : v.firstNative? with
    | none =>
      have hnone := List.findSome?_eq_none_iff.1 hfirst d (mem_occurrences.2 hd)
      rw [hname] at hnone
      cases hnone
    | some first => exact ⟨_, toExpr_error_iff.2 ⟨first, hfirst, rfl⟩⟩

/-- Expressions without instances and closures in them, but for what the lambda forms of some closures
have for their bodies. -/
inductive Spelled (closures : Datum → Prop) : Datum → Prop
  | bool (b : Bool) : Spelled closures (.bool b)
  | number (x : Float) : Spelled closures (.number x)
  | string (s : String) : Spelled closures (.string s)
  | symbol (s : Symbol) : Spelled closures (.symbol s)
  | list {ds : List Datum} : (∀ d ∈ ds, Spelled closures d) → Spelled closures (.list ds)
  | lambda {params : List String} {variadic : Bool} {body : Datum} :
    closures (.closure params variadic body) →
      Spelled closures (.list [.name "lambda", .list (paramSymbols params variadic), body])

theorem spelled_toExpr {closures : Datum → Prop} (hmarks : Unmarked v)
    (hclosures : ∀ c, Occurs c v → closures c) :
    Gives (fun _ => True) (Spelled closures) v.toExpr := by
  induction v using Datum.induction with
  | bool b => exact .bool b
  | number x => exact .number x
  | string s => exact .string s
  | symbol s => exact .symbol s
  | list items ih =>
    have hitems : ∀ d ∈ items, Gives (fun _ => True) (Spelled closures) d.toExpr := fun d hd =>
      ih d hd (unmarked_list.1 hmarks d hd) fun c hc => hclosures c (.item hd hc)
    rw [Datum.toExpr, toExprs_eq_mapM]
    exact .bind (.mapM hitems) fun _ => .list
  | struct type fields ih =>
    have hfields : ∀ d ∈ fields, Gives (fun _ => True) (Spelled closures) d.toExpr := fun d hd =>
      ih d hd (unmarked_struct.1 hmarks d hd) fun c hc => hclosures c (.field hd hc)
    rw [Datum.toExpr, toExprs_eq_mapM]
    exact .bind (.mapM hfields) fun _ hds => .list (List.forall_mem_cons.2 ⟨.symbol _, hds⟩)
  | closure params variadic body => exact .lambda (hclosures _ (.self _))
  | intrinsic f => trivial
  | special f => trivial
  | quote d => exact absurd rfl ((hmarks _ (.self _)).2 d)
  | nil => exact absurd rfl (hmarks _ (.self _)).1

end DynamicLisp.Datum
