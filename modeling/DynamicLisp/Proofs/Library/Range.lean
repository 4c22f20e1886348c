import DynamicLisp.Proofs.Library.Lists
import DynamicLisp.Proofs.Number.Exact

/-! The library's `range` is exact on integers that are not too large (`range_integers`). Every integer
is found by adding one to the one before, which is exact as long as the result is not too large. -/
namespace DynamicLisp.Library

open Number (IsInteger)

/-- The names that the definition of `range` uses. -/
def rangeVocabulary : List Word :=
  [.form .conditional, .operator (.compare .greaterEqual), .empty, .operator .cons, .operator .add,
    .function .range]

theorem rangeVocabulary_shared :
    ∀ v ∈ rangeVocabulary, superName? v.name = none ∧ ¬ OwnName v.name := by
  decide +kernel

variable {x y : Float} {a b : Int} {n : Nat}

/-- What `+` makes of a number and one. -/
def successor (x : Float) : Float := 0.0 + x + 1.0

theorem isInteger_successor (hx : IsInteger x a) (ha : a.natAbs ≤ 2 ^ 53)
    (ha' : (a + 1).natAbs ≤ 2 ^ 53) : IsInteger (successor x) (a + 1) := by
  have hzero : IsInteger 0.0 0 := by decide +kernel
  have hone : IsInteger 1.0 1 := by decide +kernel
  have hsum := hzero.add hx (by rwa [Int.zero_add])
  rw [Int.zero_add] at hsum
  exact hsum.add hone ha'

/-- As many numbers, each the successor of the one before. -/
def countFrom : Float → Nat → List Float
  | _, 0 => []
  | x, n + 1 => x :: countFrom (successor x) n

theorem intRange_of_lt (h : a < b) : Int.range a b = a :: Int.range (a + 1) b := by
  have hlength : (b - a).toNat = (b - (a + 1)).toNat + 1 := by omega
  rw [Int.range, hlength, List.range_succ_eq_map, List.map_cons, List.map_map, Int.range]
  congr 1
  · exact Int.add_zero a
  · refine List.map_congr_left fun i _ => ?_
    rw [Function.comp_apply, Nat.cast_succ]
    omega

/-- The numbers counted are the integers up to the bound. -/
theorem forall₂_countFrom (hx : IsInteger x a) (ha : a.natAbs ≤ 2 ^ 53) (hb : b.natAbs ≤ 2 ^ 53)
    (hn : (b - a).toNat = n) : List.Forall₂ IsInteger (countFrom x n) (Int.range a b) := by
  induction n generalizing x a with
  | zero =>
    rw [Int.range, hn]
    exact .nil
  | succ n ih =>
    rw [intRange_of_lt (by omega)]
    exact .cons hx (ih (isInteger_successor hx ha (by omega)) (by omega) (by omega))

variable {I : Environment → Prop} {extra : List Scope} {k : Nat}

theorem lifts_number (x : Float) (hk : 0 < k) :
    Lifts I extra (evaluate k (.number x)) (pure (.number x)) := by
  obtain ⟨k, rfl⟩ := Nat.exists_eq_add_one.2 hk
  exact .of_pure fun _ _ => rfl

section

variable (hI : ∀ e, I e → ∀ v ∈ rangeVocabulary, e.resolve v.name = .ok v.value)
include hI

theorem finds_rangeWord (hextra : Auxiliary extra) (v : Word) (hv : v ∈ rangeVocabulary) :
    Finds I extra v.name v.value := finds_shared rangeVocabulary_shared hI hextra v hv

theorem lifts_isReached (hextra : Auxiliary extra) (hfrom : Finds I extra "lib/from" (.number x))
    (hto : Finds I extra "lib/to" (.number y)) (hk : 2 ≤ k) :
    Lifts I extra (evaluate k (form ">=" [.name "lib/from", .name "lib/to"]))
      (pure (.bool (decide (y ≤ x)))) := by
  obtain ⟨k, rfl⟩ : ∃ j, k = j + 1 := ⟨k - 1, by omega⟩
  have hhead := finds_rangeWord hI hextra (.operator (.compare .greaterEqual)) (by decide)
  have hk' : 0 < k := by omega
  exact lifts_binary (o := .compare .greaterEqual) hhead hk' (lifts_name hfrom hk')
    (lifts_name hto hk') rfl

theorem lifts_successor (hextra : Auxiliary extra) (hfrom : Finds I extra "lib/from" (.number x))
    (hk : 2 ≤ k) :
    Lifts I extra (evaluate k (form "+" [.name "lib/from", .number 1.0]))
      (pure (.number (successor x))) := by
  obtain ⟨k, rfl⟩ : ∃ j, k = j + 1 := ⟨k - 1, by omega⟩
  have hhead := finds_rangeWord hI hextra (.operator .add) (by decide)
  have hk' : 0 < k := by omega
  exact lifts_binary (o := .add) hhead hk' (lifts_name hfrom hk') (lifts_number 1.0 hk') rfl

theorem does_range (hx : IsInteger x a) (hy : IsInteger y b) (ha : a.natAbs ≤ 2 ^ 53)
    (hb : b.natAbs ≤ 2 ^ 53) (hn : (b - a).toNat = n) :
    Does I (3 * n + 3) Function.range.value [.number x, .number y]
      (pure (.list ((countFrom x n).map .number))) := by
  -- Every number takes three levels: those of the `if`, of the `cons` and of the next call.
  induction n generalizing x a with
  | zero =>
    intro k hk extra hextra
    obtain ⟨k, rfl⟩ : ∃ j, k = j + 1 := ⟨k - 1, by omega⟩
    have hin := hextra.frame [.number x, .number y] Function.range.ownName_params
    have htest := lifts_isReached hI (k := k) hin (.here rfl rfl) (.here rfl rfl) (by omega)
    have hreached : y ≤ x := (hy.le_iff hx).2 (by omega)
    rw [decide_eq_true hreached] at htest
    refine .applyClosure rfl ?_
    refine lifts_conditional (finds_rangeWord hI hin (.form .conditional) (by decide)) (by omega)
      htest ?_
    exact lifts_name (finds_rangeWord hI hin .empty (by decide)) (by omega)
  | succ n ih =>
    intro k hk extra hextra
    obtain ⟨k, rfl⟩ : ∃ j, k = j + 3 := ⟨k - 3, by omega⟩
    have hin := hextra.frame [.number x, .number y] Function.range.ownName_params
    have hfrom : Finds I (frame Function.range.params [.number x, .number y] :: extra) "lib/from"
      (.number x) := .here rfl rfl
    have hto : Finds I (frame Function.range.params [.number x, .number y] :: extra) "lib/to"
      (.number y) := .here rfl rfl
    have htest := lifts_isReached hI (k := k + 2) hin hfrom hto (by omega)
    have hahead : ¬ y ≤ x := mt (hy.le_iff hx).1 (by omega)
    rw [decide_eq_false hahead] at htest
    have hrest := ih (isInteger_successor hx ha (by omega)) (by omega) (by omega) k (by omega) _ hin
    have hcall : Lifts I (frame Function.range.params [.number x, .number y] :: extra)
        (evaluate (k + 1)
          (form "range" [form "+" [.name "lib/from", .number 1.0], .name "lib/to"]))
        (pure (.list ((countFrom (successor x) n).map .number))) := by
      refine lifts_call (finds_rangeWord hI hin (.function .range) (by decide)) rfl (by omega) ?_
      refine lifts_argument (lifts_successor hI hin hfrom (by omega)) ?_
      exact lifts_argument (lifts_name hto (by omega)) (lifts_arguments hrest)
    refine .applyClosure rfl ?_
    refine lifts_conditional (finds_rangeWord hI hin (.form .conditional) (by decide)) (by omega)
      htest ?_
    have hhead := finds_rangeWord hI hin (.operator .cons) (by decide)
    exact lifts_binary (o := .cons) hhead (by omega) (lifts_name hfrom (by omega)) hcall rfl

end

variable {w : World}

/-- Let the names that `range` uses be in force. Integers that are not too large are doubles. Called
with such numbers, `range` gives, with enough levels, the integers from the first one up to the second
one and without it, in their order, and does nothing else. -/
theorem range_integers (hforce : ∀ v ∈ rangeVocabulary, w.environment.resolve v.name = .ok v.value)
    (ha : a.natAbs ≤ 2 ^ 53) (hb : b.natAbs ≤ 2 ^ 53) :
    (∃ x, IsInteger x a) ∧ (∃ y, IsInteger y b) ∧ ∀ x y, IsInteger x a → IsInteger y b →
      ∃ items, List.Forall₂ IsInteger items (Int.range a b) ∧
        ∀ m es w₀, w₀.environment.resolve "range" = .ok Function.range.value →
          evaluateAll (evaluate m) es w₀ = (.ok [.number x, .number y], w) →
            ∀ limit, 3 * (b - a).toNat + m + 5 ≤ limit →
              evaluate limit (form "range" es) w₀ = (.ok (.list (items.map .number)), w) := by
  refine ⟨Number.exists_isInteger ha, Number.exists_isInteger hb, fun x y hx hy => ?_⟩
  refine ⟨countFrom x (b - a).toNat, forall₂_countFrom hx ha hb rfl, ?_⟩
  intro m es w₀ hrange hargs limit hlimit
  have hI (e : Environment) (he : e = w.environment) :
      ∀ v ∈ rangeVocabulary, e.resolve v.name = .ok v.value := he ▸ hforce
  have hdoes := does_range hI hx hy ha hb rfl
  exact hdoes.call rfl nofun hrange hargs (by omega)

/-- Below the greatest integer that `range` is exact on. -/
theorem range_integers_loaded :
    let w : World := ⟨loaded, default⟩
    (∀ v ∈ rangeVocabulary, w.environment.resolve v.name = .ok v.value) ∧
      (2 ^ 53 - 2 : Int).natAbs ≤ 2 ^ 53 ∧ (2 ^ 53 : Int).natAbs ≤ 2 ^ 53 ∧
      IsInteger 9007199254740990.0 (2 ^ 53 - 2) ∧ IsInteger 9007199254740992.0 (2 ^ 53) ∧
      ∃ items, List.Forall₂ IsInteger items [2 ^ 53 - 2, 2 ^ 53 - 1] ∧
        ∀ limit, 12 ≤ limit →
          evaluate limit (form "range" [.number 9007199254740990.0, .number 9007199254740992.0]) w =
            (.ok (.list (items.map .number)), w) := by
  intro w
  have hforce : ∀ v ∈ rangeVocabulary, w.environment.resolve v.name = .ok v.value := by
    simp only [rangeVocabulary, List.forall_mem_cons]
    exact ⟨rfl, rfl, rfl, rfl, rfl, rfl, List.forall_mem_nil _⟩
  have hx : IsInteger 9007199254740990.0 (2 ^ 53 - 2) := by decide +kernel
  have hy : IsInteger 9007199254740992.0 (2 ^ 53) := by decide +kernel
  have ha : (2 ^ 53 - 2 : Int).natAbs ≤ 2 ^ 53 := by decide
  have hb : (2 ^ 53 : Int).natAbs ≤ 2 ^ 53 := by decide
  obtain ⟨items, hitems, hcalls⟩ := (range_integers hforce ha hb).2.2 _ _ hx hy
  exact ⟨hforce, ha, hb, hx, hy, items, hitems, hcalls 1 _ w rfl rfl⟩

end DynamicLisp.Library
