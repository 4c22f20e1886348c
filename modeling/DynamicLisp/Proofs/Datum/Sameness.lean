import DynamicLisp.Proofs.Datum.Equality
import DynamicLisp.Proofs.Number.Comparison

/-! Equality of values as a matter of their structure. Values compare as equal if they are built in the
same way from the same leaves, but for the sign of zero. That is symmetric and transitive, and holds
of a value and itself unless something occurs in it that is equal to nothing
(`equality_structural`). -/
namespace DynamicLisp.Datum

variable {a b c d : Datum} {as bs : List Datum}

/-- Built in the same way from the same booleans, strings and symbols, and from numbers that are the
same but for the sign of zero. -/
inductive Same : Datum → Datum → Prop
  | bool (b : Bool) : Same (.bool b) (.bool b)
  | number {x y : Float} : x.isNaN = false → Number.dropZeroSign x = Number.dropZeroSign y →
    Same (.number x) (.number y)
  | string (s : String) : Same (.string s) (.string s)
  | symbol (s : Symbol) : Same (.symbol s) (.symbol s)
  | list {as bs : List Datum} : as.length = bs.length →
    (∀ (i : Nat) (ha : i < as.length) (hb : i < bs.length), Same as[i] bs[i]) →
      Same (.list as) (.list bs)
  | struct {type : String} {as bs : List Datum} : as.length = bs.length →
    (∀ (i : Nat) (ha : i < as.length) (hb : i < bs.length), Same as[i] bs[i]) →
      Same (.struct type as) (.struct type bs)

/-- The first value is the second one or occurs in it, as an item of a list or in a field of a
struct. -/
inductive Occurs : Datum → Datum → Prop
  | self (d : Datum) : Occurs d d
  | item {d item : Datum} {items : List Datum} : item ∈ items → Occurs d item →
    Occurs d (.list items)
  | field {d value : Datum} {type : String} {fields : List Datum} : value ∈ fields →
    Occurs d value → Occurs d (.struct type fields)

/-- What is equal to nothing, not even to itself. -/
inductive Incomparable : Datum → Prop
  | closure (params : List String) (variadic : Bool) (body : Datum) :
    Incomparable (.closure params variadic body)
  | intrinsic (f : Intrinsic) : Incomparable (.intrinsic f)
  | special (f : SpecialForm) : Incomparable (.special f)
  | notANumber {x : Float} : x.isNaN = true → Incomparable (.number x)
  | quote (d : Datum) : Incomparable (.quote d)
  | nil : Incomparable .nil

theorem sizeOf_item_lt (h : d ∈ as) : sizeOf d < sizeOf (list as) := by
  have hlt := List.sizeOf_lt_of_mem h
  rw [list.sizeOf_spec]
  omega

theorem sizeOf_field_lt {type : String} (h : d ∈ as) : sizeOf d < sizeOf (struct type as) := by
  have hlt := List.sizeOf_lt_of_mem h
  rw [struct.sizeOf_spec]
  omega

/-! ### The comparison -/

theorem allEqual?_eq_true (hlength : as.length = bs.length) : allEqual? as bs = some true ↔
    ∀ (i : Nat) (ha : i < as.length) (hb : i < bs.length), as[i].equal? bs[i] = some true := by
  induction as generalizing bs with
  | nil => exact ⟨fun _ i ha => absurd ha (Nat.not_lt_zero i), fun _ => rfl⟩
  | cons a as ih =>
    cases bs with
    | nil => cases hlength
    | cons b bs =>
      have htail := ih (Nat.succ.inj hlength)
      constructor
      · intro h i ha hb
        rw [allEqual?] at h
        split at h
        · rename_i hab
          cases i with
          | zero => exact hab
          | succ i => exact htail.1 h i (Nat.lt_of_succ_lt_succ ha) (Nat.lt_of_succ_lt_succ hb)
        · rename_i hab
          exact (hab h).elim
      · intro h
        have hhead : a.equal? b = some true := h 0 (Nat.zero_lt_succ _) (Nat.zero_lt_succ _)
        rw [allEqual?, hhead]
        refine htail.2 fun i ha hb => ?_
        exact h (i + 1) (Nat.succ_lt_succ ha) (Nat.succ_lt_succ hb)

theorem Same.equal? (h : Same a b) : a.equal? b = some true := by
  induction h with
  | bool b => rw [Datum.equal?, beq_self_eq_true]
  | number hx hxy => rw [Datum.equal?, Number.beq_iff.2 ⟨hx, hxy⟩]
  | string s => rw [Datum.equal?, beq_self_eq_true]
  | symbol s => rw [Datum.equal?, beq_self_eq_true]
  | list hlength _ ih =>
    rw [Datum.equal?, if_pos hlength]
    exact (allEqual?_eq_true hlength).2 ih
  | struct hlength _ ih =>
    rw [Datum.equal?, if_pos ⟨rfl, hlength⟩]
    exact (allEqual?_eq_true hlength).2 ih

theorem same_of_equal? (h : a.equal? b = some true) : Same a b := by
  induction hsize : sizeOf a using Nat.strongRecOn generalizing a b with
  | _ n ih =>
    subst hsize
    unfold equal? at h
    split at h
    case h_1 => exact eq_of_beq (Option.some.inj h) ▸ .bool _
    case h_2 =>
      obtain ⟨hx, hxy⟩ := Number.beq_iff.1 (Option.some.inj h)
      exact .number hx hxy
    case h_3 => exact eq_of_beq (Option.some.inj h) ▸ .string _
    case h_4 => exact eq_of_beq (Option.some.inj h) ▸ .symbol _
    case h_5 as bs =>
      split at h
      · rename_i hlength
        have hitems := (allEqual?_eq_true hlength).1 h
        exact .list hlength fun i ha hb =>
          ih _ (sizeOf_item_lt (List.getElem_mem ha)) (hitems i ha hb) rfl
      · cases h
    case h_6 t as u bs =>
      split at h
      · rename_i hsame
        obtain ⟨rfl, hlength⟩ := hsame
        have hfields := (allEqual?_eq_true hlength).1 h
        exact .struct hlength fun i ha hb =>
          ih _ (sizeOf_field_lt (List.getElem_mem ha)) (hfields i ha hb) rfl
      · cases h
    case h_7 | h_8 => cases h

theorem equal?_eq_true : a.equal? b = some true ↔ Same a b := ⟨same_of_equal?, Same.equal?⟩

/-! ### The laws -/

theorem Same.symm (h : Same a b) : Same b a := by
  have hswapped := equal?_swapped a b
  rw [h.equal?] at hswapped
  exact same_of_equal? hswapped.eq_true

theorem Same.trans (h : Same a b) (h' : Same b c) : Same a c := by
  induction h generalizing c with
  | bool b => exact h'
  | number hx hxy =>
    cases h' with
    | number _ hyz => exact .number hx (hxy.trans hyz)
  | string s => exact h'
  | symbol s => exact h'
  | list hlength _ ih =>
    cases h' with
    | list hlength' hitems =>
      refine .list (hlength.trans hlength') fun i ha hc => ?_
      have hb := hlength ▸ ha
      exact ih i ha hb (hitems i hb hc)
  | struct hlength _ ih =>
    cases h' with
    | struct hlength' hfields =>
      refine .struct (hlength.trans hlength') fun i ha hc => ?_
      have hb := hlength ▸ ha
      exact ih i ha hb (hfields i hb hc)

theorem Same.not_incomparable (h : Same a b) (hd : Occurs d a) : ¬ Incomparable d := by
  induction h with
  | bool | string | symbol =>
    cases hd
    exact nofun
  | number hx _ =>
    cases hd
    rintro (_ | _ | _ | hnan)
    rw [hx] at hnan
    cases hnan
  | list hlength _ ih =>
    cases hd with
    | self => exact nofun
    | item hmem hd =>
      obtain ⟨i, hi, rfl⟩ := List.getElem_of_mem hmem
      exact ih i hi (hlength ▸ hi) hd
  | struct hlength _ ih =>
    cases hd with
    | self => exact nofun
    | field hmem hd =>
      obtain ⟨i, hi, rfl⟩ := List.getElem_of_mem hmem
      exact ih i hi (hlength ▸ hi) hd

theorem same_self (h : ∀ d, Occurs d a → ¬ Incomparable d) : Same a a := by
  induction hsize : sizeOf a using Nat.strongRecOn generalizing a with
  | _ n ih =>
    subst hsize
    have hself := h a (.self a)
    cases a with
    | bool b => exact .bool b
    | number x =>
      exact .number (Bool.eq_false_iff.2 fun hx => hself (.notANumber hx)) rfl
    | string s => exact .string s
    | symbol s => exact .symbol s
    | list items =>
      refine .list rfl fun i hi _ => ih _ (sizeOf_item_lt (List.getElem_mem hi)) (fun d hd => ?_) rfl
      exact h d (.item (List.getElem_mem hi) hd)
    | struct type fields =>
      refine .struct rfl fun i hi _ => ih _ (sizeOf_field_lt (List.getElem_mem hi)) (fun d hd => ?_) rfl
      exact h d (.field (List.getElem_mem hi) hd)
    | quote d => exact (hself (.quote d)).elim
    | nil => exact (hself .nil).elim
    | closure params variadic body => exact (hself (.closure params variadic body)).elim
    | intrinsic f => exact (hself (.intrinsic f)).elim
    | special f => exact (hself (.special f)).elim

theorem Same.kind?_eq (h : Same a b) : a.kind? = b.kind? := by
  cases h <;> rfl

/-- Values compare as equal exactly if they are built in the same way from the same leaves, but for the
sign of zero; then they are of one kind. If one value is equal to another, the other one is equal to
it, and what that one is equal to, the first one is equal to as well. A value is equal to itself exactly
if no function, no quotation, no nil marker and no NaN occurs in it. -/
theorem equality_structural (a b c : Datum) :
    (a.equal? b = some true ↔ Same a b) ∧
    (a.equal? b = some true → a.kind? = b.kind?) ∧
    (a.equal? b = some true → b.equal? a = some true) ∧
    (a.equal? b = some true → b.equal? c = some true → a.equal? c = some true) ∧
    (a.equal? a = some true ↔ ∀ d, Occurs d a → ¬ Incomparable d) := by
  have hself : a.equal? a = some true ↔ ∀ d, Occurs d a → ¬ Incomparable d :=
    equal?_eq_true.trans ⟨fun h _ => h.not_incomparable, same_self⟩
  refine ⟨equal?_eq_true, fun h => ?_, fun h => ?_, fun h h' => ?_, hself⟩
  · exact (same_of_equal? h).kind?_eq
  · exact (same_of_equal? h).symm.equal?
  · exact ((same_of_equal? h).trans (same_of_equal? h')).equal?

end DynamicLisp.Datum
