import DynamicLisp.Proofs.Number.Word

/-! Doubles that compare as equal: the same ones, but for the sign of zero, and none of those that are
no number (`beq_iff`). -/
namespace DynamicLisp.Number

open Float.Model (Format UnpackedFloat)
open Float.Model.UnpackedFloat (packComponents pack unpack unpackSign unpackExponent unpackMantissa
  Sign)

variable {x y : Float} {b c : Bits}

theorem bitsOf_injective (h : bitsOf x = bitsOf y) : x = y := by
  obtain ⟨⟨bits, valid⟩⟩ := x
  obtain ⟨⟨bits', valid'⟩⟩ := y
  obtain rfl : bits = bits' := UInt64.toBitVec_inj.1 h
  rfl

theorem ofBitVec_injective {s t : BitVec 1} (h : Sign.ofBitVec s = Sign.ofBitVec t) : s = t := by
  obtain rfl | rfl := BitVec.eq_zero_or_eq_one s <;>
    obtain rfl | rfl := BitVec.eq_zero_or_eq_one t <;>
    first | rfl | cases h

/-- A word whose exponent field is all ones is infinity, if it is a number at all. -/
theorem unpack_of_exponent (h : unpackExponent b = -1#_) :
    unpack Format.binary64 b = .notANumber ∨ unpackMantissa b = 0#_ ∧
      unpack Format.binary64 b = .infinity (Sign.ofBitVec (unpackSign b)) := by
  rw [unpack, if_pos h]
  by_cases hm : unpackMantissa b = 0#_
  · exact .inr ⟨hm, if_pos hm⟩
  · exact .inl (if_neg hm)

theorem unpack_of_exponent_ne (h : unpackExponent b ≠ -1#_) :
    unpack Format.binary64 b ≠ .notANumber ∧ ∀ s, unpack Format.binary64 b ≠ .infinity s := by
  rw [unpack, if_neg h]
  split
  · split <;> exact ⟨nofun, nofun⟩
  · exact ⟨nofun, nofun⟩

/-- What a word stands for determines it, if that is a number. -/
theorem unpack_injective (h : unpack Format.binary64 b = unpack Format.binary64 c)
    (hnumber : unpack Format.binary64 b ≠ .notANumber) : b = c := by
  by_cases hb : unpackExponent b = -1#_
  · obtain hnone | ⟨hmantissa, hinfinity⟩ := unpack_of_exponent hb
    · exact (hnumber hnone).elim
    · have hc : unpackExponent c = -1#_ := by
        by_contra hc
        exact (unpack_of_exponent_ne hc).2 _ (h.symm.trans hinfinity)
      obtain hnone | ⟨hmantissa', hinfinity'⟩ := unpack_of_exponent hc
      · exact (hnumber (h.trans hnone)).elim
      · have hsigns := hinfinity.symm.trans (h.trans hinfinity')
        have hsign : unpackSign b = unpackSign c :=
          ofBitVec_injective (UnpackedFloat.infinity.inj hsigns)
        rw [← packComponents_fields b, ← packComponents_fields c, hsign, hb, hc, hmantissa,
          hmantissa']
  · have hc : unpackExponent c ≠ -1#_ := by
      intro hc
      obtain hnone | ⟨-, hinfinity⟩ := unpack_of_exponent hc
      · exact hnumber (h.trans hnone)
      · exact (unpack_of_exponent_ne hb).2 _ (h.trans hinfinity)
    rw [← pack_unpack hb, ← pack_unpack hc, h]

theorem compare_eq_some_eq {a b : UnpackedFloat} : UnpackedFloat.compare a b = some .eq ↔
    a ≠ .notANumber ∧ (a = b ∨ ∃ s t, a = .zero s ∧ b = .zero t) := by
  have hthen (e f : Int) (m n : Nat) :
      (compare e f).then (compare m n) = .eq ↔ e = f ∧ m = n := by
    rw [Ordering.then_eq_eq, Std.compare_eq_iff_eq, Std.compare_eq_iff_eq]
  cases a with
  | notANumber => cases b <;> simp [UnpackedFloat.compare]
  | infinity s =>
    cases b with
    | infinity t =>
      have hsame : compare s s = .eq := by cases s <;> rfl
      have hsign : compare s t = .eq ↔ s = t := by
        refine ⟨fun h => ?_, fun h => h ▸ hsame⟩
        cases s <;> cases t <;> first | rfl | cases h
      simp [UnpackedFloat.compare, hsign]
    | _ => cases s <;> simp [UnpackedFloat.compare]
  | zero s =>
    cases b with
    | infinity t | finite t => cases t <;> simp [UnpackedFloat.compare]
    | _ => simp [UnpackedFloat.compare]
  | finite s m e =>
    cases b with
    | notANumber => simp [UnpackedFloat.compare]
    | infinity t => cases t <;> simp [UnpackedFloat.compare]
    | zero => cases s <;> simp [UnpackedFloat.compare]
    | finite t n f =>
      cases s <;> cases t <;>
        simp [UnpackedFloat.compare, hthen, Ordering.swap_eq_iff_eq_swap, and_comm]

theorem isNaN_eq_false : x.isNaN = false ↔ unpack Format.binary64 (bitsOf x) ≠ .notANumber := by
  change UnpackedFloat.isNaN (unpack Format.binary64 (bitsOf x)) = false ↔ _
  cases unpack Format.binary64 (bitsOf x) <;> simp [UnpackedFloat.isNaN]

/-- There are two zeros. -/
theorem unpack_eq_zero : (∃ s, unpack Format.binary64 (bitsOf x) = .zero s) ↔ x = 0.0 ∨ x = -0.0 := by
  have hpositive : unpack Format.binary64 (bitsOf 0.0) = .zero .positive := rfl
  have hnegative : unpack Format.binary64 (bitsOf (-0.0)) = .zero .negative := rfl
  constructor
  · rintro ⟨s, h⟩
    have hnumber : unpack Format.binary64 (bitsOf x) ≠ .notANumber := by
      rw [h]
      exact nofun
    cases s with
    | positive => exact .inl (bitsOf_injective (unpack_injective (h.trans hpositive.symm) hnumber))
    | negative => exact .inr (bitsOf_injective (unpack_injective (h.trans hnegative.symm) hnumber))
  · rintro (rfl | rfl)
    · exact ⟨_, hpositive⟩
    · exact ⟨_, hnegative⟩

theorem dropZeroSign_eq_iff : dropZeroSign x = dropZeroSign y ↔
    x = y ∨ (x = 0.0 ∨ x = -0.0) ∧ (y = 0.0 ∨ y = -0.0) := by
  unfold dropZeroSign
  by_cases hx : x = -0.0 <;> by_cases hy : y = -0.0 <;> simp only [hx, hy, if_true, if_false] <;> grind

/-- Doubles compare as equal if they are numbers, and the same ones but for the sign of zero. -/
theorem beq_iff : (x == y) = true ↔ x.isNaN = false ∧ dropZeroSign x = dropZeroSign y := by
  have hcompare : (x == y) = true ↔ UnpackedFloat.compare (unpack Format.binary64 (bitsOf x))
      (unpack Format.binary64 (bitsOf y)) = some .eq := by
    change (UnpackedFloat.compare _ _ == _) = true ↔ _
    exact beq_iff_eq
  rw [hcompare, compare_eq_some_eq, ← isNaN_eq_false, dropZeroSign_eq_iff]
  refine and_congr_right fun hnumber => or_congr ?_ ?_
  · constructor
    · intro hsame
      exact bitsOf_injective (unpack_injective hsame (isNaN_eq_false.1 hnumber))
    · rintro rfl
      rfl
  · rw [← unpack_eq_zero, ← unpack_eq_zero, exists_and_exists_comm]

end DynamicLisp.Number
