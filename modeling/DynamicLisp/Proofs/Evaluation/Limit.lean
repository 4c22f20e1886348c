import DynamicLisp.Proofs.Evaluation.Mirror

/-! Limits on the nesting of evaluations. What is done within a limit is done in the same way within a
greater one (`evaluate_mono`, `apply_mono`). -/
namespace DynamicLisp

/-- Applies a function to values. -/
def Datum.apply (ev : Evaluator) : Datum → List Datum → Action Datum
  | .closure params variadic body, args => applyClosure ev params variadic body args
  | .intrinsic f, args => f.run ev args
  | d, _ => Action.fail (.notA .function d.display)

namespace Action

variable {n m : Nat}

theorem runaway_relational :
    Relational (· = ·) (Mirrors (· = ·) (· = ·) (· = .runaway)) :=
  mirrors_relational Environment.tie_eq .eq

theorem Mirrors.eq {α : Type} {x y : Action α} (h : Mirrors (· = ·) (· = ·) (· = .runaway) α x y)
    {w : World} (hends : (x w).1 ≠ .error .runaway) : y w = x w := by
  obtain ⟨-, ⟨_, rfl, hrunaway⟩ | ⟨hr, -, hw⟩⟩ := h w w (.refl w)
  · exact (hends hrunaway).elim
  · exact Prod.ext hr.symm hw.eq.symm

/-- An evaluation beside one with a greater limit. -/
theorem evaluate_mirrors (h : n ≤ m) (d : Datum) :
    Mirrors (· = ·) (· = ·) (· = .runaway) _ (evaluate n d) (evaluate m d) := by
  induction n generalizing m d with
  | zero => exact fun _ _ _ => ⟨.refl _, .inl ⟨.runaway, rfl, rfl⟩⟩
  | succ n ih =>
    obtain ⟨k, rfl⟩ : ∃ k, m = k + 1 := ⟨m - 1, by omega⟩
    have hev := ih (Nat.le_of_succ_le_succ h)
    rw [evaluate, evaluate]
    apply runaway_relational.evaluateWith d
    · rintro s rfl w w' htied
      obtain rfl := htied.eq
      exact ⟨.refl _, .inr ⟨rfl, .refl _, htied⟩⟩
    · rintro head exprs rfl
      exact runaway_relational.form hev (fun _ => .result _) (fun o args => .result _) head exprs

end Action

variable {n m : Nat} {w : World}

theorem evaluate_mono (h : n ≤ m) {d : Datum} (hends : (evaluate n d w).1 ≠ .error .runaway) :
    evaluate m d w = evaluate n d w :=
  (Action.evaluate_mirrors h d).eq hends

theorem evaluateAll_mono (h : n ≤ m) {ds : List Datum}
    (hends : (evaluateAll (evaluate n) ds w).1 ≠ .error .runaway) :
    evaluateAll (evaluate m) ds w = evaluateAll (evaluate n) ds w :=
  (Action.runaway_relational.evaluateAll (Action.evaluate_mirrors h) ds).eq hends

theorem apply_mono (h : n ≤ m) {f : Datum} {args : List Datum}
    (hends : (f.apply (evaluate n) args w).1 ≠ .error .runaway) :
    f.apply (evaluate m) args w = f.apply (evaluate n) args w := by
  have hR := Action.runaway_relational
  have hev := Action.evaluate_mirrors h
  cases f with
  | closure params variadic body => exact (hR.applyClosure hev params variadic body args).eq hends
  | intrinsic f =>
    exact (hR.everyIntrinsic hev (fun _ => .result _) (fun o args => .result _) f args).eq hends
  | _ => rfl

end DynamicLisp
