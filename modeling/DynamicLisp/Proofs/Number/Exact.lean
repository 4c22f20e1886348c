import DynamicLisp.Proofs.Number.Grains
import DynamicLisp.Proofs.Number.Rounding

/-! Exact arithmetic on doubles. A sum that some double is exactly is that double
(`signedGrains_add`), and doubles are in the order of their grains (`le_iff_signedGrains`). Integers
that are not too large are doubles, and their sums are exact (`IsInteger.add`). -/
namespace DynamicLisp.Number

open Float.Model (Format UnpackedFloat totalExponent)
open Float.Model.UnpackedFloat (ExtendedMantissa Sign decreaseExponent pack roundWithAccuracy
  shiftToExponent shiftToTargetExponent unpack valid_pack)

variable {x y z : Float} {u v w : UnpackedFloat} {g k : Int} {m n : Nat} {e f : Int} {s : Sign}

/-! ### Rounding -/

theorem Canonical.targetExponent (h : Canonical m e) :
    Format.binary64.targetExponent (totalExponent m e) = e := by
  obtain ⟨hpos, hlt, hleast, hgreatest, hfull⟩ := h
  change max ((m.log2 : Int) + 1 + e - 53) (-1074) = e
  have hhigh : m.log2 < 53 := (Nat.log2_lt (Nat.ne_of_gt hpos)).2 hlt
  have hlow : 2 ^ 52 ≤ m → 52 ≤ m.log2 := (Nat.le_log2 (Nat.ne_of_gt hpos)).2
  omega

theorem totalExponent_mul (hm : 0 < m) (j : Nat) :
    totalExponent (m * 2 ^ j) (e - j) = totalExponent m e := by
  have hlog : (m * 2 ^ j).log2 = m.log2 + j := by
    have hlow := Nat.log2_self_le (Nat.ne_of_gt hm)
    have hhigh := Nat.lt_log2_self (n := m)
    rw [Nat.log2_eq_iff (Nat.ne_of_gt (Nat.mul_pos hm (Nat.two_pow_pos j))), Nat.pow_add,
      Nat.add_right_comm, Nat.pow_add]
    exact ⟨Nat.mul_le_mul_right _ hlow, Nat.mul_lt_mul_of_pos_right hhigh (Nat.two_pow_pos j)⟩
  rw [totalExponent, totalExponent, hlog]
  omega

/-- Nothing is lost if only zeros are shifted out. -/
theorem shiftRight_mul (m j : Nat) :
    (⟨m * 2 ^ j, false, false⟩ : ExtendedMantissa) >>> j = ⟨m, false, false⟩ := by
  change Nat.repeat _ j _ = _
  induction j generalizing m with
  | zero => simp [Nat.repeat]
  | succ j ih =>
    rw [Nat.repeat, Nat.pow_succ', ← Nat.mul_assoc, ih]
    simp [ExtendedMantissa.shiftRightOne]

theorem shiftToTargetExponent_mul (h : Canonical m e) (j : Nat) :
    shiftToTargetExponent Format.binary64 (m * 2 ^ j) (e - j) .exact = (⟨m, false, false⟩, e) := by
  have hshift : (e - (e - j)).toNat = j := by omega
  rw [shiftToTargetExponent, totalExponent_mul h.pos, h.targetExponent]
  simp only [shiftToExponent, hshift, Int.sub_add_cancel]
  exact congrArg (·, e) (shiftRight_mul m j)

theorem roundWithAccuracy_mul (h : Canonical m e) (j : Nat) :
    roundWithAccuracy Format.binary64 s (m * 2 ^ j) (e - j) .exact = .finite s m e h.pos := by
  have hagain := shiftToTargetExponent_mul h 0
  rw [Nat.pow_zero, Nat.mul_one, Int.natCast_zero, Int.sub_zero] at hagain
  have hrounded : ExtendedMantissa.roundedMantissa ⟨m, false, false⟩ = m := rfl
  rw [roundWithAccuracy, shiftToTargetExponent_mul h]
  simp only [hrounded, hagain]
  exact dif_neg (Nat.ne_of_gt h.pos)

/-- A number that is a double is rounded to that double. -/
theorem round_eq {m' : Nat} {e' : Int} (h : Canonical m e) (he : -1074 ≤ e')
    (heq : m' * 2 ^ (e' + 1074).toNat = m * 2 ^ (e + 1074).toNat) :
    UnpackedFloat.round Format.binary64 s m' e' = .finite s m e h.pos := by
  have hleast := h.least
  have hpos : 0 < m' := by
    refine Nat.pos_of_ne_zero fun hzero => ?_
    rw [hzero, Nat.zero_mul] at heq
    exact Nat.ne_of_lt h.grains_pos heq
  have htotal : totalExponent m' e' = totalExponent m e := by
    rw [← totalExponent_mul hpos (e' + 1074).toNat, ← totalExponent_mul h.pos (e + 1074).toNat, heq]
    congr 1
    omega
  have hmantissa : m' * 2 ^ (e' - e).toNat = m * 2 ^ (e - e').toNat := by
    refine Nat.eq_of_mul_eq_mul_right (Nat.two_pow_pos (min e e' + 1074).toNat) ?_
    rw [Nat.mul_assoc, Nat.mul_assoc, ← Nat.pow_add, ← Nat.pow_add]
    convert heq using 3 <;> omega
  have hexponent : e' - ((e' - e).toNat : Int) = e - ((e - e').toNat : Int) := by omega
  simp only [UnpackedFloat.round, decreaseExponent, htotal, h.targetExponent, Nat.shiftLeft_eq,
    hmantissa, hexponent]
  exact roundWithAccuracy_mul h _

/-! ### Sums -/

theorem apply_mul (s : Sign) (i j : Int) : s.apply (i * j) = s.apply i * j := by
  cases s
  · exact (Int.neg_mul i j).symm
  · rfl

theorem apply_apply (s : Sign) (i : Int) : s.apply (s.apply i) = i := by
  cases s
  · exact Int.neg_neg i
  · rfl

theorem normalize_apply (hm : 0 < m) :
    UnpackedFloat.normalize Format.binary64 (s.apply m) e .positive =
      UnpackedFloat.round Format.binary64 s m e := by
  cases s with
  | negative =>
    have hcompare : compare (-(m : Int)) 0 = .lt := compare_lt_iff_lt.2 (by omega)
    simp only [UnpackedFloat.normalize, Sign.apply, hcompare, Int.neg_neg, Int.toNat_natCast]
  | positive =>
    have hcompare : compare (m : Int) 0 = .gt := compare_gt_iff_gt.2 (by omega)
    simp only [UnpackedFloat.normalize, Sign.apply, hcompare, Int.toNat_natCast]

theorem hasGrains_normalize {i : Int} (h : HasGrains u g) (he : -1074 ≤ e)
    (hg : i * 2 ^ (e + 1074).toNat = g) :
    HasGrains (UnpackedFloat.normalize Format.binary64 i e .positive) g := by
  have hscale : (0 : Int) < 2 ^ (e + 1074).toNat := Int.pow_pos (by decide)
  cases h with
  | zero =>
    obtain rfl : i = 0 := (Int.mul_eq_zero.1 hg).resolve_right (Int.ne_of_gt hscale)
    exact .zero _
  | @finite s m e' h =>
    have hpos := h.grains_pos
    have hi : s.apply i * 2 ^ (e + 1074).toNat = (m * 2 ^ (e' + 1074).toNat : Nat) := by
      rw [← apply_mul, hg, apply_apply]
    obtain ⟨n, hn⟩ : ∃ n : Nat, s.apply i = n := by
      refine Int.eq_ofNat_of_zero_le (Int.le_of_lt ?_)
      exact (mul_pos_iff_of_pos_right hscale).1 (hi ▸ Int.natCast_pos.2 hpos)
    rw [hn] at hi
    have heq : n * 2 ^ (e + 1074).toNat = m * 2 ^ (e' + 1074).toNat := by exact_mod_cast hi
    have hnpos : 0 < n := Nat.pos_of_mul_pos_right (heq ▸ hpos)
    rw [← apply_apply s i, hn, normalize_apply hnpos, round_eq h he heq]
    exact .finite s h

/-- A sum that some double is exactly is that double. -/
theorem hasGrains_add (hu : HasGrains u g) (hv : HasGrains v k) (hw : HasGrains w (g + k)) :
    HasGrains (UnpackedFloat.add Format.binary64 u v) (g + k) := by
  cases hu with
  | zero s =>
    cases hv with
    | zero t => cases s <;> cases t <;> exact .zero _
    | finite t h =>
      rw [Int.zero_add]
      exact .finite t h
  | @finite s m e hm =>
    cases hv with
    | zero t =>
      rw [Int.add_zero]
      exact .finite s hm
    | @finite t n f hn =>
      have hleast := le_min hm.least hn.least
      refine hasGrains_normalize hw hleast ?_
      have hscaled (r : Sign) (i : Nat) (j : Int) (hj : min e f ≤ j) :
          r.apply (i <<< (j - min e f).toNat : Nat) * 2 ^ (min e f + 1074).toNat =
            r.apply (i * 2 ^ (j + 1074).toNat : Nat) := by
        have hplace : (j + 1074).toNat = (j - min e f).toNat + (min e f + 1074).toNat := by omega
        rw [← apply_mul, Nat.shiftLeft_eq, hplace, Nat.pow_add]
        push_cast
        rw [Int.mul_assoc]
      rw [Int.add_mul, hscaled s m e (Int.min_le_left e f), hscaled t n f (Int.min_le_right e f)]

/-- A sum that is a double is computed exactly. -/
theorem signedGrains_add (hx : isFinite x) (hy : isFinite y) (hz : isFinite z)
    (h : signedGrains z = signedGrains x + signedGrains y) :
    isFinite (x + y) ∧ signedGrains (x + y) = signedGrains x + signedGrains y := by
  have hsum := hasGrains_add (hasGrains_unpack hx) (hasGrains_unpack hy) (h ▸ hasGrains_unpack hz)
  rw [← hasGrains_iff]
  change HasGrains (unpack Format.binary64 (pack Format.binary64 (UnpackedFloat.add Format.binary64
    (unpack Format.binary64 (bitsOf x)) (unpack Format.binary64 (bitsOf y))))) _
  rwa [unpack_pack hsum]

/-! ### The order -/

theorem Canonical.grains_lt (hm : Canonical m e) (hn : Canonical n f) (h : e < f) :
    m * 2 ^ (e + 1074).toNat < n * 2 ^ (f + 1074).toNat := by
  have hleast := hm.least
  have hfull : 2 ^ 52 ≤ n := hn.full.resolve_right (by omega)
  have htwice : m < n * 2 := Nat.lt_of_lt_of_le hm.lt (by omega)
  have hplace : (f + 1074).toNat = (f + 1073).toNat + 1 := by omega
  rw [hplace, Nat.pow_succ', ← Nat.mul_assoc]
  exact mul_two_pow_lt htwice (by omega)

theorem Canonical.compare_eq (hm : Canonical m e) (hn : Canonical n f) :
    (compare e f).then (compare m n) =
      compare (m * 2 ^ (e + 1074).toNat) (n * 2 ^ (f + 1074).toNat) := by
  obtain hlt | rfl | hgt := lt_trichotomy e f
  · rw [compare_lt_iff_lt.2 hlt, compare_lt_iff_lt.2 (hm.grains_lt hn hlt)]
    rfl
  · have hmono : StrictMono (· * 2 ^ (e + 1074).toNat : Nat → Nat) :=
      fun i j hij => mul_two_pow_lt hij (Nat.le_refl _)
    have hsame : compare e e = .eq := compare_eq_iff_eq.2 rfl
    rw [hsame, ← cmp_eq_compare, ← cmp_eq_compare, hmono.cmp_map_eq m n]
    rfl
  · rw [compare_gt_iff_gt.2 hgt, compare_gt_iff_gt.2 (hn.grains_lt hm hgt)]
    rfl

/-- Doubles are in the order of their grains. -/
theorem compare_hasGrains (hu : HasGrains u g) (hv : HasGrains v k) :
    UnpackedFloat.compare u v = some (compare g k) := by
  cases hu with
  | zero s =>
    cases hv with
    | zero t => rfl
    | @finite t n f hn =>
      have hpos := hn.grains_pos
      cases t with
      | negative => exact congrArg some (compare_gt_iff_gt.2 (Int.neg_neg_of_pos (by omega))).symm
      | positive => exact congrArg some (compare_lt_iff_lt.2 (Int.natCast_pos.2 hpos)).symm
  | @finite s m e hm =>
    have hpos := hm.grains_pos
    cases hv with
    | zero t =>
      cases s with
      | negative => exact congrArg some (compare_lt_iff_lt.2 (Int.neg_neg_of_pos (by omega))).symm
      | positive => exact congrArg some (compare_gt_iff_gt.2 (Int.natCast_pos.2 hpos)).symm
    | @finite t n f hn =>
      have hpos' := hn.grains_pos
      have hcompare := hm.compare_eq hn
      have hcast : StrictMono fun i : Nat => (i : Int) := Int.natCast_strictMono
      have hneg : StrictAnti fun i : Nat => -(i : Int) := hcast.neg
      cases s with
      | negative =>
        cases t with
        | negative =>
          rw [UnpackedFloat.compare, hcompare, Nat.compare_swap, ← cmp_eq_compare,
            ← hneg.cmp_map_eq, cmp_eq_compare]
          rfl
        | positive =>
          exact congrArg some (compare_lt_iff_lt.2 (by simp only [Sign.apply]; omega)).symm
      | positive =>
        cases t with
        | negative =>
          exact congrArg some (compare_gt_iff_gt.2 (by simp only [Sign.apply]; omega)).symm
        | positive =>
          rw [UnpackedFloat.compare, hcompare, ← cmp_eq_compare, ← hcast.cmp_map_eq, cmp_eq_compare]
          rfl

theorem le_iff_signedGrains (hx : isFinite x) (hy : isFinite y) :
    x ≤ y ↔ signedGrains x ≤ signedGrains y := by
  have hcompare := compare_hasGrains (hasGrains_unpack hx) (hasGrains_unpack hy)
  change decide (Option.any (·.isLE) (UnpackedFloat.compare (unpack Format.binary64 (bitsOf x))
    (unpack Format.binary64 (bitsOf y))) = true) = true ↔ _
  rw [hcompare, decide_eq_true_iff, Option.any_some, Ordering.isLE_iff_ne_gt, ← not_lt]
  exact not_congr compare_gt_iff_gt

/-! ### Integers -/

/-- The double is an integer, and which one. -/
def IsInteger (x : Float) (i : Int) : Prop := isIntegral x ∧ truncate x = i

instance (x : Float) (i : Int) : Decidable (IsInteger x i) := inferInstanceAs (Decidable (_ ∧ _))

variable {i j : Int}

theorem whole_iff {one : Nat} (hone : 0 < one) :
    (n : Int) = i * one ↔ n % one = 0 ∧ ((n / one : Nat) : Int) = i := by
  constructor
  · intro h
    have hdvd : one ∣ n := Int.natCast_dvd_natCast.1 ⟨i, by rw [h, Int.mul_comm]⟩
    refine ⟨Nat.mod_eq_zero_of_dvd hdvd, ?_⟩
    rw [Int.natCast_div, h, Int.mul_ediv_cancel _ (by omega)]
  · rintro ⟨hmod, rfl⟩
    rw [← Int.natCast_mul, Nat.div_mul_cancel (Nat.dvd_of_mod_eq_zero hmod)]

theorem isInteger_iff : IsInteger x i ↔ isFinite x ∧ signedGrains x = i * grainsInOne := by
  simp only [IsInteger, isIntegral, truncate, wholePart, signedGrains, Bool.and_eq_true,
    beq_iff_eq, and_assoc]
  refine and_congr_right fun _ => ?_
  cases isNegative x with
  | false => exact (whole_iff grainsInOne_pos).symm
  | true =>
    have hneg (j k : Int) : -j = k ↔ j = -k := by omega
    simp only [if_true, hneg, ← Int.neg_mul]
    exact (whole_iff grainsInOne_pos).symm

/-- Integers that are not too large have a mantissa and an exponent. -/
theorem exists_canonical (hpos : 0 < n) (hle : n ≤ 2 ^ 53) :
    ∃ m e, Canonical m e ∧ m * 2 ^ (e + 1074).toNat = n * grainsInOne := by
  rw [grainsInOne_eq]
  obtain hlt | rfl := Nat.lt_or_eq_of_le hle
  · have hhigh : n.log2 < 53 := (Nat.log2_lt (Nat.ne_of_gt hpos)).2 hlt
    have hlow := Nat.mul_le_mul_right (2 ^ (52 - n.log2)) (Nat.log2_self_le (Nat.ne_of_gt hpos))
    have hup := Nat.mul_lt_mul_of_pos_right (Nat.lt_log2_self (n := n))
      (Nat.two_pow_pos (52 - n.log2))
    rw [← Nat.pow_add] at hlow hup
    refine ⟨n * 2 ^ (52 - n.log2), n.log2 - 52, ⟨?_, ?_, by omega, by omega, .inl ?_⟩, ?_⟩
    · exact Nat.mul_pos hpos (Nat.two_pow_pos _)
    · rwa [show n.log2 + 1 + (52 - n.log2) = 53 by omega] at hup
    · rwa [show n.log2 + (52 - n.log2) = 52 by omega] at hlow
    · rw [Nat.mul_assoc, ← Nat.pow_add]
      congr 2
      omega
  · refine ⟨2 ^ 52, 1, ⟨by decide, by decide, by decide, by decide, .inl (by decide)⟩, ?_⟩
    rw [← Nat.pow_add, ← Nat.pow_add]
    congr 1

theorem exists_isInteger (h : i.natAbs ≤ 2 ^ 53) : ∃ x, IsInteger x i := by
  obtain ⟨u, hu⟩ : ∃ u, HasGrains u (i * grainsInOne) := by
    obtain rfl | hne := eq_or_ne i 0
    · exact ⟨.zero .positive, by rw [Int.zero_mul]; exact .zero _⟩
    · obtain ⟨m, e, hcanonical, hm⟩ := exists_canonical (Int.natAbs_pos.2 hne) h
      obtain ⟨s, hs⟩ : ∃ s : Sign, s.apply i.natAbs = i := by
        obtain hi | hi := Int.natAbs_eq i
        · exact ⟨.positive, hi.symm⟩
        · exact ⟨.negative, hi.symm⟩
      have hhas := HasGrains.finite s hcanonical
      rw [hm, Int.natCast_mul, apply_mul, hs] at hhas
      exact ⟨_, hhas⟩
  let x : Float := ⟨⟨UInt64.ofBitVec (pack Format.binary64 u), valid_pack⟩⟩
  refine ⟨x, isInteger_iff.2 (hasGrains_iff.1 ?_)⟩
  change HasGrains (unpack Format.binary64 (pack Format.binary64 u)) _
  rwa [unpack_pack hu]

/-- Sums of integers are exact as long as they are not too large. -/
theorem IsInteger.add (hx : IsInteger x i) (hy : IsInteger y j) (h : (i + j).natAbs ≤ 2 ^ 53) :
    IsInteger (x + y) (i + j) := by
  obtain ⟨z, hz⟩ := exists_isInteger h
  obtain ⟨hxfinite, hxgrains⟩ := isInteger_iff.1 hx
  obtain ⟨hyfinite, hygrains⟩ := isInteger_iff.1 hy
  obtain ⟨hzfinite, hzgrains⟩ := isInteger_iff.1 hz
  have hsum : signedGrains z = signedGrains x + signedGrains y := by
    rw [hzgrains, hxgrains, hygrains, Int.add_mul]
  obtain ⟨hfinite, hgrains⟩ := signedGrains_add hxfinite hyfinite hzfinite hsum
  exact isInteger_iff.2 ⟨hfinite, by rw [hgrains, hxgrains, hygrains, Int.add_mul]⟩

theorem IsInteger.le_iff (hx : IsInteger x i) (hy : IsInteger y j) : x ≤ y ↔ i ≤ j := by
  obtain ⟨hxfinite, hxgrains⟩ := isInteger_iff.1 hx
  obtain ⟨hyfinite, hygrains⟩ := isInteger_iff.1 hy
  have hone : (0 : Int) < grainsInOne := Int.natCast_pos.2 grainsInOne_pos
  rw [le_iff_signedGrains hxfinite hyfinite, hxgrains, hygrains]
  exact Int.mul_le_mul_right hone

end DynamicLisp.Number
