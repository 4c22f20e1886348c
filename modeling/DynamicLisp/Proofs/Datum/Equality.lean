import DynamicLisp.Evaluation.Operator
import Mathlib.Logic.Relation
import Mathlib.Order.Basic

/-! The comparison of values as a recursion: which comparisons it asks for, when it has an end, and
what happens if its sides are swapped (`equality_laws`). -/
namespace DynamicLisp

open Float.Model (UnpackedFloat)

/-! ### Numbers -/

namespace Number

theorem magnitude_swap (e f : Int) (m n : Nat) :
    (compare e f).then (compare m n) = ((compare f e).then (compare n m)).swap := by
  rw [Ordering.swap_then, ← Std.OrientedCmp.eq_swap, ← Std.OrientedCmp.eq_swap]

theorem compare_swap (x y : UnpackedFloat) :
    UnpackedFloat.compare y x = (UnpackedFloat.compare x y).map Ordering.swap := by
  cases x with
  | notANumber => cases y <;> rfl
  | infinity s =>
    cases y with
    | infinity t => cases s <;> cases t <;> rfl
    | _ => cases s <;> rfl
  | zero s =>
    cases y with
    | infinity t | finite t => cases t <;> rfl
    | _ => rfl
  | finite s m e =>
    cases y with
    | notANumber => rfl
    | infinity t => cases t <;> rfl
    | zero => cases s <;> rfl
    | finite t n f =>
      have hswap := magnitude_swap f e n m
      cases s with
      | positive =>
        cases t with
        | positive => exact congrArg some hswap
        | negative => rfl
      | negative =>
        cases t with
        | positive => rfl
        | negative => exact congrArg (some ∘ Ordering.swap) hswap

theorem beq_comm (x y : Float) : (x == y) = (y == x) := by
  change (UnpackedFloat.compare _ _ == _) = (UnpackedFloat.compare _ _ == _)
  rw [compare_swap y.toModel.unpack]
  rcases UnpackedFloat.compare y.toModel.unpack x.toModel.unpack with _ | _ | _ | _ <;> rfl

end Number

namespace Datum

variable {a b : Datum} {as bs : List Datum} {p q : Datum × Datum}

/-! ### The comparisons that a comparison asks for -/

/-- Item by item, up to the first difference. -/
inductive AsksItems : List Datum → List Datum → Datum × Datum → Prop
  | here {a b : Datum} {as bs : List Datum} : AsksItems (a :: as) (b :: bs) (a, b)
  | there {a b : Datum} {as bs : List Datum} {p : Datum × Datum} :
      a.equal? b = some true → AsksItems as bs p → AsksItems (a :: as) (b :: bs) p

/-- A comparison of the first pair calls for one of the second pair. A struct with a symbol on its
right is handed back to where it came from. -/
inductive Asks : Datum × Datum → Datum × Datum → Prop
  | list {as bs : List Datum} {p : Datum × Datum} :
      as.length = bs.length → AsksItems as bs p → Asks (.list as, .list bs) p
  | struct {type : String} {as bs : List Datum} {p : Datum × Datum} :
      as.length = bs.length → AsksItems as bs p → Asks (.struct type as, .struct type bs) p
  | again {type : String} {fields : List Datum} {s : Symbol} :
      Asks (.struct type fields, .symbol s) (.struct type fields, .symbol s)

/-- A struct, and a symbol on its right. -/
def StructAndSymbol (p : Datum × Datum) : Prop :=
  ∃ type fields s, p = (.struct type fields, .symbol s)

/-- The comparison comes to a struct with a symbol on its right. -/
def Returns (p : Datum × Datum) : Prop := ∃ q, Relation.ReflTransGen Asks p q ∧ StructAndSymbol q

/-- Both sides are smaller. -/
def Smaller (p q : Datum × Datum) : Prop := sizeOf p.1 < sizeOf q.1 ∧ sizeOf p.2 < sizeOf q.2

theorem AsksItems.smaller (h : AsksItems as bs p) :
    sizeOf p.1 < sizeOf as ∧ sizeOf p.2 < sizeOf bs := by
  induction h with
  | here =>
    simp only [List.cons.sizeOf_spec]
    omega
  | there _ _ ih =>
    simp only [List.cons.sizeOf_spec]
    omega

/-- Every comparison that is asked for is of smaller values, but for the one that asks for itself. -/
theorem Asks.smaller (h : Asks p q) : Smaller q p ∨ StructAndSymbol p ∧ q = p := by
  cases h with
  | list _ h =>
    have hsize := h.smaller
    refine .inl ⟨?_, ?_⟩
    · simp only [list.sizeOf_spec]
      omega
    · simp only [list.sizeOf_spec]
      omega
  | struct _ h =>
    have hsize := h.smaller
    refine .inl ⟨?_, ?_⟩
    · simp only [struct.sizeOf_spec]
      omega
    · simp only [struct.sizeOf_spec]
      omega
  | again => exact .inr ⟨⟨_, _, _, rfl⟩, rfl⟩

theorem AsksItems.isSome (h : AsksItems as bs p) (hall : (allEqual? as bs).isSome) :
    (p.1.equal? p.2).isSome := by
  induction h with
  | @here a b as bs =>
    cases hab : a.equal? b with
    | none =>
      rw [allEqual?, hab] at hall
      cases hall
    | some r => rfl
  | there hab _ ih =>
    rw [allEqual?, hab] at hall
    exact ih hall

theorem exists_asksItems (h : allEqual? as bs = none) :
    ∃ p, AsksItems as bs p ∧ p.1.equal? p.2 = none := by
  induction as generalizing bs with
  | nil => cases h
  | cons a as ih =>
    cases bs with
    | nil => cases h
    | cons b bs =>
      rw [allEqual?] at h
      split at h
      · rename_i hab
        obtain ⟨p, hp, hnone⟩ := ih h
        exact ⟨p, .there hab hp, hnone⟩
      · exact ⟨(a, b), .here, h⟩

/-- A comparison with an end asks only for comparisons with an end. -/
theorem Asks.isSome (h : Asks p q) (hp : (p.1.equal? p.2).isSome) : (q.1.equal? q.2).isSome := by
  cases h with
  | list hlength h =>
    rw [equal?, if_pos hlength] at hp
    exact h.isSome hp
  | struct hlength h =>
    rw [equal?, if_pos ⟨rfl, hlength⟩] at hp
    exact h.isSome hp
  | again => cases hp

/-- One without an end asks for another one without an end. -/
theorem exists_asks (h : p.1.equal? p.2 = none) :
    StructAndSymbol p ∨ ∃ q, Asks p q ∧ Smaller q p ∧ q.1.equal? q.2 = none := by
  obtain ⟨a, b⟩ := p
  have hsmaller {q : Datum × Datum} (hq : Asks (a, b) q) (hnone : q.1.equal? q.2 = none) :
      StructAndSymbol (a, b) ∨ ∃ q, Asks (a, b) q ∧ Smaller q (a, b) ∧ q.1.equal? q.2 = none := by
    rcases hq.smaller with hsize | ⟨hstuck, _⟩
    · exact .inr ⟨q, hq, hsize, hnone⟩
    · exact .inl hstuck
  dsimp only at h
  unfold equal? at h
  split at h
  all_goals try cases h
  · split at h
    · rename_i as bs hlength
      obtain ⟨q, hq, hnone⟩ := exists_asksItems h
      exact hsmaller (.list hlength hq) hnone
    · cases h
  · split at h
    · rename_i t as u bs hsame
      obtain ⟨rfl, hlength⟩ := hsame
      obtain ⟨q, hq, hnone⟩ := exists_asksItems h
      exact hsmaller (.struct hlength hq) hnone
    · cases h
  · exact .inl ⟨_, _, _, rfl⟩

theorem Returns.of_asks (h : Asks p q) (hq : Returns q) : Returns p := by
  obtain ⟨r, hr, hstuck⟩ := hq
  exact ⟨r, .head h hr, hstuck⟩

theorem equal?_eq_none_iff : p.1.equal? p.2 = none ↔ Returns p := by
  constructor
  · intro h
    induction hsize : sizeOf p.1 using Nat.strongRecOn generalizing p with
    | _ n ih =>
      subst hsize
      rcases exists_asks h with hstuck | ⟨q, hq, hsmaller, hnone⟩
      · exact ⟨p, .refl, hstuck⟩
      · exact .of_asks hq (ih _ hsmaller.1 hnone rfl)
  · rintro ⟨q, hreach, hstuck⟩
    induction hreach using Relation.ReflTransGen.head_induction_on with
    | refl =>
      obtain ⟨type, fields, s, rfl⟩ := hstuck
      rfl
    | head hasks _ ih =>
      by_contra hsome
      have hnext := hasks.isSome (Option.isSome_iff_ne_none.2 hsome)
      rw [ih] at hnext
      cases hnext

/-- The recursion has an end exactly if it does not come to a struct with a symbol on its right. -/
theorem acc_asks_iff : Acc (fun q p => Asks p q) p ↔ ¬ Returns p := by
  constructor
  · intro h
    induction h with
    | intro p _ ih =>
      rintro ⟨q, hreach, hstuck⟩
      rcases Relation.ReflTransGen.cases_head hreach with rfl | ⟨r, hr, hrest⟩
      · obtain ⟨type, fields, s, rfl⟩ := hstuck
        exact ih _ .again ⟨_, .refl, _, _, _, rfl⟩
      · exact ih r hr ⟨q, hrest, hstuck⟩
  · intro h
    induction hsize : sizeOf p.1 using Nat.strongRecOn generalizing p with
    | _ n ih =>
      subst hsize
      refine .intro p fun q hq => ?_
      rcases hq.smaller with hsmaller | ⟨hstuck, _⟩
      · exact ih _ hsmaller.1 (fun hreturns => h (.of_asks hq hreturns)) rfl
      · exact (h ⟨p, .refl, hstuck⟩).elim

/-! ### Swapping the sides -/

/-- What a comparison gives and what it gives with its sides swapped: the same, or no end one way and
no equality the other way. -/
inductive Swapped : Option Bool → Option Bool → Prop
  | same (r : Bool) : Swapped (some r) (some r)
  | left : Swapped none (some false)
  | right : Swapped (some false) none

theorem Swapped.eq_true {r : Option Bool} (h : Swapped (some true) r) : r = some true := by
  cases h
  rfl

theorem Swapped.eq_false {r : Option Bool} (h : Swapped none r) : r = some false := by
  cases h
  rfl

theorem equal?_swapped (a b : Datum) : Swapped (a.equal? b) (b.equal? a) := by
  apply equal?.induct (fun a b => Swapped (a.equal? b) (b.equal? a))
    (fun as bs => Swapped (allEqual? as bs) (allEqual? bs as))
  case case1 =>
    intro x y
    rw [equal?, equal?, Bool.beq_comm]
    exact .same _
  case case2 =>
    intro x y
    rw [equal?, equal?, Number.beq_comm]
    exact .same _
  case case3 | case4 =>
    intro x y
    rw [equal?, equal?, BEq.comm]
    exact .same _
  case case5 =>
    intro as bs hlength ih
    rw [equal?, equal?, if_pos hlength, if_pos hlength.symm]
    exact ih
  case case6 =>
    intro as bs hlength
    rw [equal?, equal?, if_neg hlength, if_neg (Ne.symm hlength)]
    exact .same false
  case case7 =>
    rintro t as u bs ⟨rfl, hlength⟩ ih
    rw [equal?, equal?, if_pos ⟨rfl, hlength⟩, if_pos ⟨rfl, hlength.symm⟩]
    exact ih
  case case8 =>
    intro t as u bs hunlike
    rw [equal?, equal?, if_neg hunlike, if_neg (fun h => hunlike ⟨h.1.symm, h.2.symm⟩)]
    exact .same false
  case case9 =>
    intro type fields s
    exact .left
  case case10 =>
    intro x y hbool hnumber hstring hsymbol hlist hstruct hmixed
    rw [equal?.eq_8 x y hbool hnumber hstring hsymbol hlist hstruct hmixed]
    unfold equal?
    split
    · exact (hbool _ _ rfl rfl).elim
    · exact (hnumber _ _ rfl rfl).elim
    · exact (hstring _ _ rfl rfl).elim
    · exact (hsymbol _ _ rfl rfl).elim
    · exact (hlist _ _ rfl rfl).elim
    · exact (hstruct _ _ _ _ rfl rfl).elim
    · exact .right
    · exact .same false
  case case11 =>
    intro a as b bs hab ihead itail
    rw [hab] at ihead
    rw [allEqual?, allEqual?, hab, ihead.eq_true]
    exact itail
  case case12 =>
    intro a as b bs hab ihead
    rw [allEqual?, allEqual?]
    generalize a.equal? b = r at hab ihead
    generalize b.equal? a = r' at ihead
    cases ihead with
    | same r =>
      cases r with
      | true => exact (hab rfl).elim
      | false => exact .same false
    | left => exact .left
    | right => exact .right
  case case13 =>
    intro as bs hshort
    cases as with
    | nil => cases bs <;> exact .same true
    | cons a as =>
      cases bs with
      | nil => exact .same true
      | cons b bs => exact (hshort a as b bs rfl rfl).elim

/-! ### The laws -/

theorem run_equal (a b : Datum) : Operator.equal.run [a, b] =
    (a.equal? b).elim (.error .endless) fun r => .ok (.bool r) := by
  have htwo : (liftM (Arguments.two [a, b]) : Except Stop (Datum × Datum)) = .ok (a, b) := rfl
  rw [Operator.run, htwo]
  cases h : a.equal? b with
  | none =>
    simp only [bind, Except.bind, h]
    rfl
  | some r =>
    simp only [bind, Except.bind, h]
    rfl

/-- A comparison asks only for comparisons of smaller values, but for that of a struct with a symbol
on its right, which asks for itself. It has an end exactly if it does not come to such a pair. With
its sides swapped it gives the same, unless it comes to such a pair in one of the two orders: then
it gives false in the other one. The operator is what the comparison is. -/
theorem equality_laws (a b : Datum) :
    (∀ p q, Asks p q → Smaller q p ∨ StructAndSymbol p ∧ q = p) ∧
    (Acc (fun q p => Asks p q) (a, b) ↔ ¬ Returns (a, b)) ∧
    ((∃ r, a.equal? b = some r ∧ Operator.equal.run [a, b] = .ok (.bool r)) ↔ ¬ Returns (a, b)) ∧
    (Operator.equal.run [a, b] = .error .endless ↔ Returns (a, b)) ∧
    (a.equal? b = b.equal? a ↔ ¬ Returns (a, b) ∧ ¬ Returns (b, a)) ∧
    (Returns (a, b) → b.equal? a = some false) := by
  have hnone : a.equal? b = none ↔ Returns (a, b) := equal?_eq_none_iff (p := (a, b))
  have hnone' : b.equal? a = none ↔ Returns (b, a) := equal?_eq_none_iff (p := (b, a))
  refine ⟨fun p q h => h.smaller, acc_asks_iff, ?_, ?_, ?_, ?_⟩
  · rw [← hnone, run_equal]
    cases a.equal? b <;> simp
  · rw [← hnone, run_equal]
    cases a.equal? b <;> simp
  · rw [← hnone, ← hnone']
    have hswapped := equal?_swapped a b
    generalize a.equal? b = r at hswapped
    generalize b.equal? a = r' at hswapped
    cases hswapped <;> simp
  · rw [← hnone]
    have hswapped := equal?_swapped a b
    intro h
    rw [h] at hswapped
    exact hswapped.eq_false

/-- A struct and a symbol cannot be compared in this order. -/
theorem struct_symbol_unending :
    let a := Datum.struct "P" []
    let b := Datum.name "x"
    a.equal? b = none ∧ b.equal? a = some false ∧
      Operator.equal.run [a, b] = .error .endless ∧ Asks (a, b) (a, b) :=
  ⟨rfl, rfl, rfl, .again⟩

end Datum

end DynamicLisp
