import Mathlib
import DynamicLisp.Number.Decimal

/-! Rounding to doubles. The nearest double of a quotient depends on the value of the quotient alone,
and the nearest one of a double's own value is that double (`nearestWord_eq`). The shortest decimal
of a double is read back as that double (`toWord_shortest`). -/
namespace DynamicLisp.Number

theorem grainsInOne_eq : grainsInOne = 2 ^ 1074 := Nat.pow_eq

theorem grainsOf_eq (w : Nat) : grainsOf w =
    if w < 2 ^ 52 then w else (2 ^ 52 + w % 2 ^ 52) * 2 ^ (w / 2 ^ 52 - 1) := by
  simp only [grainsOf, Nat.pow_eq]

theorem nearestWord_eq_min (n d : Nat) : nearestWord n d =
    min infinityWord (((n * grainsInOne / d).log2 - 52) * 2 ^ 52 +
      roundQuotient (n * grainsInOne) (d * 2 ^ ((n * grainsInOne / d).log2 - 52))) := by
  simp only [nearestWord, Nat.pow_eq]

theorem grainsInOne_pos : 0 < grainsInOne := Nat.pow_pos Nat.two_pos

theorem roundQuotient_scale (n d : Nat) {k : Nat} (hk : 0 < k) :
    roundQuotient (k * n) (k * d) = roundQuotient n d := by
  have hlt : 2 * (k * (n % d)) < k * d ↔ 2 * (n % d) < d := by
    rw [Nat.mul_left_comm, Nat.mul_lt_mul_left hk]
  have hgt : k * d < 2 * (k * (n % d)) ↔ d < 2 * (n % d) := by
    rw [Nat.mul_left_comm, Nat.mul_lt_mul_left hk]
  simp only [roundQuotient, Nat.mul_div_mul_left _ _ hk, Nat.mul_mod_mul_left, hlt, hgt]

theorem roundQuotient_congr {n d n' d' : Nat} (hd : 0 < d) (hd' : 0 < d') (h : n * d' = n' * d) :
    roundQuotient n d = roundQuotient n' d' := by
  rw [← roundQuotient_scale n d hd', ← roundQuotient_scale n' d' hd, Nat.mul_comm d' n, h,
    Nat.mul_comm n' d, Nat.mul_comm d' d]

theorem div_congr {n d n' d' : Nat} (hd : 0 < d) (hd' : 0 < d') (h : n * d' = n' * d) :
    n / d = n' / d' := by
  rw [← Nat.mul_div_mul_right n d hd', ← Nat.mul_div_mul_right n' d' hd, h, Nat.mul_comm d d']

/-- The nearest double is that of the value, however it is written as a quotient. -/
theorem nearestWord_congr {n d n' d' : Nat} (hd : 0 < d) (hd' : 0 < d') (h : n * d' = n' * d) :
    nearestWord n d = nearestWord n' d' := by
  have hg : n * grainsInOne * d' = n' * grainsInOne * d := by
    rw [Nat.mul_right_comm, h, Nat.mul_right_comm]
  have hround (s : Nat) : roundQuotient (n * grainsInOne) (d * 2 ^ s) =
      roundQuotient (n' * grainsInOne) (d' * 2 ^ s) := by
    refine roundQuotient_congr (Nat.mul_pos hd (Nat.two_pow_pos s))
      (Nat.mul_pos hd' (Nat.two_pow_pos s)) ?_
    rw [← Nat.mul_assoc, hg, Nat.mul_assoc]
  simp only [nearestWord_eq_min, div_congr hd hd' hg, hround]

theorem roundQuotient_mul (n : Nat) {d : Nat} (hd : 0 < d) : roundQuotient (n * d) d = n := by
  simp [roundQuotient, Nat.mul_div_cancel _ hd, hd]

theorem log2_scaled {m e : Nat} (lo : 2 ^ 52 ≤ m) (hi : m < 2 ^ 53) :
    Nat.log2 (m * 2 ^ e) = 52 + e := by
  have hpos : 0 < m * 2 ^ e := Nat.mul_pos (by omega) (Nat.two_pow_pos e)
  rw [Nat.log2_eq_iff (Nat.ne_of_gt hpos)]
  constructor
  · rw [Nat.pow_add]
    exact Nat.mul_le_mul_right _ lo
  · rw [show 52 + e + 1 = 53 + e by omega, Nat.pow_add]
    exact Nat.mul_lt_mul_of_pos_right hi (Nat.two_pow_pos e)

/-- A word is the nearest one to its own value. -/
theorem nearestWord_grainsOf {w : Nat} (hw : w < infinityWord) :
    nearestWord (grainsOf w) grainsInOne = w := by
  have hround (g s : Nat) : roundQuotient (g * grainsInOne) (grainsInOne * 2 ^ s) =
      roundQuotient g (2 ^ s) := by
    rw [Nat.mul_comm g]
    exact roundQuotient_scale g (2 ^ s) grainsInOne_pos
  simp only [nearestWord_eq_min, Nat.mul_div_cancel _ grainsInOne_pos, hround]
  by_cases hsub : w < 2 ^ 52
  · -- Below the normal doubles a word counts its grains.
    have hg : grainsOf w = w := by rw [grainsOf_eq, if_pos hsub]
    have hlog : w.log2 - 52 = 0 := by
      by_cases hzero : w = 0
      · subst hzero
        rfl
      · have := (Nat.log2_lt hzero).2 hsub
        omega
    have hone := roundQuotient_mul w (d := 1) Nat.one_pos
    rw [Nat.mul_one] at hone
    rw [hg, hlog, Nat.pow_zero, hone]
    omega
  · have hg : grainsOf w = (2 ^ 52 + w % 2 ^ 52) * 2 ^ (w / 2 ^ 52 - 1) := by
      rw [grainsOf_eq, if_neg hsub]
    rw [hg, log2_scaled (by omega) (by omega), Nat.add_sub_cancel_left,
      roundQuotient_mul _ (Nat.two_pow_pos _)]
    omega

/-- Reading a quotient of the value of a word gives the word. -/
theorem nearestWord_eq {n d w : Nat} (hw : w < infinityWord) (hd : 0 < d)
    (h : n * grainsInOne = grainsOf w * d) : nearestWord n d = w := by
  rw [nearestWord_congr hd grainsInOne_pos h]
  exact nearestWord_grainsOf hw

theorem grainsOf_pos {w : Nat} (hw : 0 < w) : 0 < grainsOf w := by
  rw [grainsOf_eq]
  split
  · exact hw
  · exact Nat.mul_pos (by omega) (Nat.two_pow_pos _)

theorem mul_two_pow_lt {m n e k : Nat} (hm : m < n) (he : e ≤ k) : m * 2 ^ e < n * 2 ^ k :=
  calc m * 2 ^ e < n * 2 ^ e := Nat.mul_lt_mul_of_pos_right hm (Nat.two_pow_pos e)
    _ ≤ n * 2 ^ k := Nat.mul_le_mul_left n (Nat.pow_le_pow_right Nat.two_pos he)

/-- Finite doubles are below the 1024th power of two. -/
theorem grainsOf_lt {w : Nat} (hw : w < infinityWord) : grainsOf w < 2 ^ 1024 * grainsInOne := by
  have hlimit : 2 ^ 1024 * grainsInOne = 2 ^ 53 * 2 ^ 2045 := by
    rw [grainsInOne_eq, ← Nat.pow_add, ← Nat.pow_add]
  rw [hlimit, grainsOf_eq]
  split
  · have : 2 ^ 53 * 1 ≤ 2 ^ 53 * 2 ^ 2045 := Nat.mul_le_mul_left _ (Nat.two_pow_pos 2045)
    omega
  · have hexp : w / 2 ^ 52 - 1 ≤ 2045 := by
      unfold infinityWord at hw
      omega
    exact mul_two_pow_lt (by omega) hexp

namespace Decimal

/-- A decimal as a quotient of natural numbers. -/
def quotient (d : Decimal) : Nat × Nat := (d.digits * 10 ^ d.exponent.toNat, 10 ^ (-d.exponent).toNat)

theorem quotient_pos (d : Decimal) : 0 < d.quotient.2 := Nat.pow_pos (by decide)

theorem quotient_natural (n : Nat) : quotient ⟨n, 0⟩ = (n, 1) := by simp [quotient]

/-- Powers of five behind the point are halves. -/
theorem quotient_fives (n k : Nat) : quotient ⟨n * 5 ^ k, -(k : Int)⟩ = (n * 5 ^ k, 10 ^ k) := by
  simp [quotient]

theorem toWord_eq (d : Decimal) : d.toWord =
    if d.digits = 0 then 0
    else if horizon < d.point then infinityWord
    else if d.point < -horizon then 0
    else nearestWord d.quotient.1 d.quotient.2 := by
  obtain ⟨digits, _ | e⟩ := d
  · simp [toWord, quotient, point, Nat.pow_eq]
  · simp [toWord, quotient, point, Int.neg_negSucc, Nat.pow_eq]

theorem width_bounds {d : Decimal} (hd : 0 < d.digits) :
    10 ^ (d.width - 1) ≤ d.digits ∧ d.digits < 10 ^ d.width ∧ 0 < d.width := by
  have hpos : 0 < d.width := Nat.length_toDigits_pos
  refine ⟨?_, (Nat.length_toDigits_le_iff (by decide) hpos).1 (Nat.le_refl _), hpos⟩
  by_cases hone : d.width = 1
  · rw [hone]
    exact hd
  · apply Nat.le_of_not_lt
    intro hlt
    have := (Nat.length_toDigits_le_iff (by decide) (by omega : 0 < d.width - 1)).2 hlt
    unfold width at *
    omega

theorem two_pow_le_ten_pow {k : Nat} (hk : k ≤ 1200) : 2 ^ k ≤ 10 ^ 400 := by
  calc 2 ^ k ≤ 2 ^ (3 * 400) := Nat.pow_le_pow_right Nat.two_pos hk
    _ = (2 ^ 3) ^ 400 := Nat.pow_mul ..
    _ ≤ 10 ^ 400 := Nat.pow_le_pow_left (by decide) _

theorem ten_pow_pos (k : Nat) : 0 < 10 ^ k := Nat.pow_pos (by decide)

section Exact

variable {d : Decimal} {w : Nat}
  (h : d.quotient.1 * grainsInOne = grainsOf w * d.quotient.2)
include h

theorem digits_pos_of_exact (hpos : 0 < w) : 0 < d.digits := by
  apply Nat.pos_of_ne_zero
  intro hzero
  have hg := Nat.mul_pos (grainsOf_pos hpos) d.quotient_pos
  rw [← h, quotient, hzero, Nat.zero_mul, Nat.zero_mul] at hg
  exact Nat.lt_irrefl 0 hg

/-- The value of a finite double has no leading digit beyond the horizon. -/
theorem point_le_of_exact (hd : 0 < d.digits) (hw : w < infinityWord) : d.point ≤ horizon := by
  obtain ⟨hlo, _, hwidth⟩ := width_bounds hd
  have hvalue : d.digits * 10 ^ d.exponent.toNat * grainsInOne =
    grainsOf w * 10 ^ (-d.exponent).toNat := h
  apply Int.not_lt.1
  intro hlt
  unfold point horizon at hlt
  have hdigits : 10 ^ 400 * 10 ^ (-d.exponent).toNat ≤ d.digits * 10 ^ d.exponent.toNat := by
    calc 10 ^ 400 * 10 ^ (-d.exponent).toNat
        = 10 ^ (400 + (-d.exponent).toNat) := (Nat.pow_add ..).symm
      _ ≤ 10 ^ (d.width - 1 + d.exponent.toNat) := Nat.pow_le_pow_right (by decide) (by omega)
      _ = 10 ^ (d.width - 1) * 10 ^ d.exponent.toNat := Nat.pow_add ..
      _ ≤ d.digits * 10 ^ d.exponent.toNat := Nat.mul_le_mul_right _ hlo
  have hbig : 10 ^ 400 * grainsInOne * 10 ^ (-d.exponent).toNat ≤
      grainsOf w * 10 ^ (-d.exponent).toNat := by
    rw [← hvalue, Nat.mul_right_comm]
    exact Nat.mul_le_mul_right _ hdigits
  have hgrains := Nat.le_of_mul_le_mul_right hbig (ten_pow_pos _)
  have hsmall : 2 ^ 1024 * grainsInOne ≤ 10 ^ 400 * grainsInOne :=
    Nat.mul_le_mul_right _ (two_pow_le_ten_pow (by decide))
  exact Nat.lt_irrefl _ (Nat.lt_of_lt_of_le (grainsOf_lt hw) (Nat.le_trans hsmall hgrains))

/-- The value of a positive double is at least one grain. -/
theorem le_point_of_exact (hd : 0 < d.digits) (hpos : 0 < w) : -horizon ≤ d.point := by
  obtain ⟨_, hhi, _⟩ := width_bounds hd
  have hvalue : d.digits * 10 ^ d.exponent.toNat * grainsInOne =
    grainsOf w * 10 ^ (-d.exponent).toNat := h
  apply Int.not_lt.1
  intro hlt
  unfold point horizon at hlt
  have hdigits : d.digits * 10 ^ d.exponent.toNat * 10 ^ 400 < 10 ^ (-d.exponent).toNat := by
    calc d.digits * 10 ^ d.exponent.toNat * 10 ^ 400
        < 10 ^ d.width * 10 ^ d.exponent.toNat * 10 ^ 400 :=
          Nat.mul_lt_mul_of_pos_right
            (Nat.mul_lt_mul_of_pos_right hhi (ten_pow_pos _)) (ten_pow_pos _)
      _ = 10 ^ (d.width + d.exponent.toNat + 400) := by rw [Nat.pow_add, Nat.pow_add]
      _ ≤ 10 ^ (-d.exponent).toNat := Nat.pow_le_pow_right (by decide) (by omega)
  have hsmall : grainsOf w * 10 ^ 400 * 10 ^ (-d.exponent).toNat <
      grainsInOne * 10 ^ (-d.exponent).toNat := by
    rw [Nat.mul_right_comm, ← hvalue, Nat.mul_right_comm, Nat.mul_comm grainsInOne]
    exact Nat.mul_lt_mul_of_pos_right hdigits grainsInOne_pos
  have hgrains := Nat.lt_of_mul_lt_mul_right hsmall
  have hone : 1 * 10 ^ 400 ≤ grainsOf w * 10 ^ 400 := Nat.mul_le_mul_right _ (grainsOf_pos hpos)
  rw [Nat.one_mul] at hone
  exact Nat.lt_irrefl _ (Nat.lt_of_lt_of_le hgrains
    (Nat.le_trans (two_pow_le_ten_pow (by decide)) hone))

/-- A decimal that is exactly the value of a word is read back as the word. -/
theorem toWord_of_exact (hpos : 0 < w) (hw : w < infinityWord) : d.toWord = w := by
  have hd := digits_pos_of_exact h hpos
  have hhigh := point_le_of_exact h hd hw
  have hlow := le_point_of_exact h hd hpos
  rw [toWord_eq, if_neg (Nat.ne_of_gt hd), if_neg (Int.not_lt.2 hhigh),
    if_neg (Int.not_lt.2 hlow)]
  exact nearestWord_eq hw d.quotient_pos h

end Exact

/-! ### Zeros at the end of the digits -/

theorem width_mul_pow {n : Nat} (hn : 0 < n) (k : Nat) :
    (Nat.toDigits 10 (n * 10 ^ k)).length = (Nat.toDigits 10 n).length + k := by
  induction k with
  | zero => simp
  | succ k ih =>
    have hpos : 0 < n * 10 ^ k := Nat.mul_pos hn (Nat.pow_pos (by decide))
    have hnext := Nat.toDigits_append_toDigits (b := 10) (d := 0) (by decide) hpos (by decide)
    have hsame : n * 10 ^ (k + 1) = 10 * (n * 10 ^ k) + 0 := by
      rw [Nat.pow_succ, ← Nat.mul_assoc, Nat.mul_comm _ 10, Nat.add_zero]
    rw [hsame, ← hnext, List.length_append, ih, Nat.toDigits_zero]
    rfl

/-- Zeros can move between the digits and the exponent. -/
theorem toWord_shift (n k : Nat) (e : Int) : toWord ⟨n * 10 ^ k, e - k⟩ = toWord ⟨n, e⟩ := by
  by_cases hn : n = 0
  · subst hn
    simp [toWord]
  · have hpos : 0 < n := Nat.pos_of_ne_zero hn
    have hpow : n * 10 ^ k ≠ 0 := Nat.ne_of_gt (Nat.mul_pos hpos (Nat.pow_pos (by decide)))
    have hpoint : point ⟨n * 10 ^ k, e - k⟩ = point ⟨n, e⟩ := by
      simp only [point, width, width_mul_pow hpos]
      omega
    have hnearest : nearestWord (quotient ⟨n * 10 ^ k, e - k⟩).1 (quotient ⟨n * 10 ^ k, e - k⟩).2 =
        nearestWord (quotient ⟨n, e⟩).1 (quotient ⟨n, e⟩).2 := by
      apply nearestWord_congr (quotient_pos _) (quotient_pos _)
      simp only [quotient, Nat.mul_assoc, ← Nat.pow_add]
      congr 2
      omega
    rw [toWord_eq, toWord_eq, hpoint, hnearest, if_neg hpow, if_neg hn]

theorem toWord_stripUpTo (k : Nat) (d : Decimal) : (stripUpTo k d).toWord = d.toWord := by
  induction k generalizing d with
  | zero => rfl
  | succ k ih =>
    unfold stripUpTo
    split
    · rename_i h
      rw [ih, ← toWord_shift (d.digits / 10) 1 (d.exponent + 1)]
      have hdigits : d.digits / 10 * 10 ^ 1 = d.digits := by omega
      have hexponent : d.exponent + 1 - (1 : Nat) = d.exponent := by omega
      rw [hdigits, hexponent]
    · rfl

theorem toWord_strip (d : Decimal) : d.strip.toWord = d.toWord := toWord_stripUpTo d.width d

end Decimal

/-! ### The shortest digits -/

theorem roundQuotient_eq_or (n d : Nat) :
    roundQuotient n d = n / d ∨ roundQuotient n d = n / d + 1 := by
  simp only [roundQuotient]
  split
  · exact .inl rfl
  · split
    · exact .inr rfl
    · obtain h | h := Nat.mod_two_eq_zero_or_one (n / d) <;> simp [h]

theorem toWord_onGrid {w g : Nat} {e : Int} {d : Decimal} (h : onGrid? w g e = some d) :
    d.toWord = w := by
  simp only [onGrid?] at h
  split at h
  · rename_i hlow hhigh
    cases h
    obtain hr | hr := roundQuotient_eq_or (inUnits g e).1 (inUnits g e).2 <;> rw [hr]
    · exact beq_iff_eq.1 hlow
    · exact beq_iff_eq.1 hhigh
  · rename_i hlow _
    cases h
    exact beq_iff_eq.1 hlow
  · rename_i _ hhigh
    cases h
    exact beq_iff_eq.1 hhigh
  · cases h

theorem exact_eq (g : Nat) : exact g = ⟨g * 5 ^ 1074, -(1074 : Nat)⟩ := by
  simp only [exact, Nat.pow_eq]
  congr 1

theorem toWord_exact {w : Nat} (hpos : 0 < w) (hw : w < infinityWord) :
    (exact (grainsOf w)).toWord = w := by
  refine Decimal.toWord_of_exact ?_ hpos hw
  rw [exact_eq, Decimal.quotient_fives]
  dsimp only
  rw [grainsInOne_eq, Nat.mul_assoc, ← Nat.mul_pow]

/-- The digits chosen for a double are read back as the double. -/
theorem toWord_shortest {w : Nat} (hpos : 0 < w) (hw : w < infinityWord) :
    (shortest w).toWord = w := by
  unfold shortest
  dsimp only
  split
  · rename_i d hd
    obtain ⟨k, _, hk⟩ := List.exists_of_findSome?_eq_some hd
    rw [Decimal.toWord_strip]
    exact toWord_onGrid hk
  · rw [Decimal.toWord_strip]
    exact toWord_exact hpos hw

/-- A whole number that is a double is read back as the double. -/
theorem toWord_whole {w : Nat} (hw : w < infinityWord) (h : grainsOf w % grainsInOne = 0) :
    Decimal.toWord ⟨grainsOf w / grainsInOne, 0⟩ = w := by
  by_cases hzero : w = 0
  · subst hzero
    rw [show grainsOf 0 = 0 from rfl, Nat.zero_div]
    rfl
  · refine Decimal.toWord_of_exact ?_ (Nat.pos_of_ne_zero hzero) hw
    rw [Decimal.quotient_natural, Nat.mul_one, Nat.div_mul_cancel (Nat.dvd_of_mod_eq_zero h)]

end DynamicLisp.Number
