import DynamicLisp.Evaluation.Intrinsic
import DynamicLisp.Proofs.Datum.Equality

/-! How operators stop. All but two of them stop with nothing but a failure of the program
(`Operator.run_stops`). -/
namespace DynamicLisp

/-- A natural number whose Fibonacci number is beyond the greatest double. -/
def FibonacciOverflows (x : Float) : Prop :=
  Number.isNatural x = true ∧
    Number.isFinite (Number.ofNat (Number.fibonacci (Number.wholePart x))) = false

/-- A result that, if it is not a value, is a failure of the program. -/
def FailsOnly {α : Type} (r : Except Stop α) : Prop := ∀ s, r = .error s → ∃ e, s = .error e

namespace FailsOnly

variable {α β : Type}

theorem ok (a : α) : FailsOnly (.ok a) := by
  intro s h
  cases h

theorem lift (r : Except LispError α) : FailsOnly (liftM r : Except Stop α) := by
  intro s h
  cases r with
  | ok a => cases h
  | error e =>
    cases h
    exact ⟨e, rfl⟩

theorem bind {r : Except Stop α} {f : α → Except Stop β} (hr : FailsOnly r)
    (hf : ∀ a, FailsOnly (f a)) : FailsOnly (r >>= f) := by
  cases r with
  | ok a => exact hf a
  | error s =>
    intro t h
    cases h
    exact hr s rfl

/-- A checked operator that computes its result without further checks. -/
theorem lift_map (r : Except LispError α) (f : α → β) :
    FailsOnly (do return f (← (liftM r : Except Stop α))) :=
  bind (lift r) fun _ => ok _

end FailsOnly

namespace Operator

theorem failsOnly {o : Operator} (hfibonacci : o ≠ .fibonacci) (hequal : o ≠ .equal)
    (args : List Datum) : FailsOnly (o.run args) := by
  cases o with
  | fibonacci => exact (hfibonacci rfl).elim
  | equal => exact (hequal rfl).elim
  | list | begin | concat => exact .ok _
  | cons => exact .bind (.lift _) fun _ => .bind (.lift _) fun _ => .ok _
  | len => exact .bind (.lift _) fun _ => .bind (.lift _) fun _ => .ok _
  | not => exact .bind (.lift _) fun _ => .bind (.lift _) fun _ => .ok _
  | nth | parse => exact .lift _
  | _ => exact .lift_map _ _

variable {args : List Datum} {s : Stop}

theorem run_fibonacci (x : Float) : Operator.fibonacci.run [.number x] =
    if Number.isNatural x = true then
      let r := Number.ofNat (Number.fibonacci (Number.wholePart x))
      if Number.isFinite r = true then .ok (.number r) else .error .overflow
    else .error (.error (.notNatural (Number.toText x))) := by
  change ((if Number.isNatural x = true then
    let r := Number.ofNat (Number.fibonacci (Number.wholePart x))
    if Number.isFinite r = true then pure r else throw Stop.overflow
    else throw (Stop.error (.notNatural (Number.toText x)))) >>= fun r => pure (Datum.number r)) = _
  dsimp only
  split
  · split <;> rfl
  · rfl

theorem fibonacci_stops (h : Operator.fibonacci.run args = .error s) : (∃ e, s = .error e) ∨
    s = .overflow ∧ ∃ x, args = [.number x] ∧ FibonacciOverflows x := by
  rcases args with _ | ⟨d, _ | ⟨e, args⟩⟩
  · cases h
    exact .inl ⟨_, rfl⟩
  · cases d with
    | number x =>
      rw [run_fibonacci] at h
      dsimp only at h
      split at h
      · rename_i hnatural
        split at h
        · cases h
        · rename_i hfinite
          cases h
          exact .inr ⟨rfl, x, rfl, hnatural, Bool.eq_false_iff.2 hfinite⟩
      · cases h
        exact .inl ⟨_, rfl⟩
    | _ =>
      cases h
      exact .inl ⟨_, rfl⟩
  · cases h
    exact .inl ⟨_, rfl⟩

theorem equal_stops (h : Operator.equal.run args = .error s) : (∃ e, s = .error e) ∨
    s = .endless ∧ ∃ a b, args = [a, b] ∧ Datum.Returns (a, b) := by
  rcases args with _ | ⟨a, _ | ⟨b, _ | ⟨c, args⟩⟩⟩
  · cases h
    exact .inl ⟨_, rfl⟩
  · cases h
    exact .inl ⟨_, rfl⟩
  · rw [Datum.run_equal] at h
    cases hab : a.equal? b with
    | none =>
      rw [hab] at h
      cases h
      exact .inr ⟨rfl, a, b, rfl, Datum.equal?_eq_none_iff.1 hab⟩
    | some r =>
      rw [hab] at h
      cases h
  · cases h
    exact .inl ⟨_, rfl⟩

/-- The ways in which an operator stops. -/
theorem run_stops {o : Operator} (h : o.run args = .error s) : (∃ e, s = .error e) ∨
    (s = .overflow ∧ o = .fibonacci ∧ ∃ x, args = [.number x] ∧ FibonacciOverflows x) ∨
    (s = .endless ∧ o = .equal ∧ ∃ a b, args = [a, b] ∧ Datum.Returns (a, b)) := by
  by_cases hfibonacci : o = .fibonacci
  · subst hfibonacci
    rcases fibonacci_stops h with hfail | ⟨hs, hargs⟩
    · exact .inl hfail
    · exact .inr (.inl ⟨hs, rfl, hargs⟩)
  · by_cases hequal : o = .equal
    · subst hequal
      rcases equal_stops h with hfail | ⟨hs, hargs⟩
      · exact .inl hfail
      · exact .inr (.inr ⟨hs, rfl, hargs⟩)
    · exact .inl (failsOnly hfibonacci hequal args s h)

end Operator

end DynamicLisp
