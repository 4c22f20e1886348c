import Mathlib
import DynamicLisp.Number.Arithmetic

/-! Doubles and their words. A finite double is determined by its sign and its word without sign
(`ofMagnitude_magnitude`). -/
namespace DynamicLisp.Number

open Float.Model (Format UnpackedFloat)
open Float.Model.UnpackedFloat (packComponents pack unpack unpackSign unpackExponent unpackMantissa
  Sign)

abbrev Bits : Type := BitVec Format.binary64.numBits

/-- The word of a double, as the model of doubles reads it. -/
def bitsOf (x : Float) : Bits := x.toBits.toBitVec

variable {b : Bits}

theorem toNat_unpackExponent : (unpackExponent b).toNat = b.toNat / 2 ^ 52 % 2 ^ 11 := by
  simp [unpackExponent, Nat.shiftRight_eq_div_pow]

/-- The three fields of a word make up the word. -/
theorem packComponents_fields (b : Bits) :
    packComponents Format.binary64 (Sign.ofBitVec (unpackSign b)) (unpackExponent b)
      (unpackMantissa b) = b := by
  have hsign (s : BitVec 1) : (Sign.ofBitVec s).toBitVec = s := by
    obtain rfl | rfl := BitVec.eq_zero_or_eq_one s <;> rfl
  simp only [packComponents, hsign]
  apply BitVec.eq_of_getLsbD_eq
  intro i hi
  simp only [BitVec.getLsbD_append, unpackMantissa, unpackExponent, unpackSign, BitVec.getLsbD_cast,
    BitVec.getLsbD_extractLsb]
  grind

/-- Packing a mantissa of 53 bits drops its leading bit. -/
theorem pack_normal (s : Sign) {m e : Nat} (hm : m < 2 ^ 52) (he : e < 2 ^ 11 - 1)
    (hpos : 0 < 2 ^ 52 + m) :
    pack Format.binary64 (.finite s (2 ^ 52 + m) ((e : Int) - (1023 + 52)) hpos) =
      packComponents Format.binary64 s (BitVec.ofNat _ e) (BitVec.ofNat _ m) := by
  have hlog : (2 ^ 52 + m).log2 = 52 :=
    (Nat.log2_eq_iff (Nat.ne_of_gt hpos)).2 ⟨by omega, by omega⟩
  have hexp : ((e : Int) - (1023 + 52) + Format.binary64.exponentBias +
      Format.binary64.mantissaBitsWithoutImplicit).toNat = e := by
    change ((e : Int) - (1023 + 52) + 1023 + 52).toNat = e
    omega
  have hdrop : BitVec.ofNat 52 (2 ^ 52 + m) = BitVec.ofNat 52 m := by
    apply BitVec.eq_of_toNat_eq
    simp
  simp only [pack, hexp, hlog]
  rw [if_neg (by omega), if_pos (by rfl), hdrop]

/-- A mantissa of at most 52 bits is packed as it is. -/
theorem pack_subnormal (s : Sign) {m : Nat} (hm : m < 2 ^ 52) (hpos : 0 < m) :
    pack Format.binary64 (.finite s m (-1074) hpos) =
      packComponents Format.binary64 s 0#_ (BitVec.ofNat _ m) := by
  have hlog : m.log2 < 52 := (Nat.log2_lt (Nat.ne_of_gt hpos)).2 hm
  have hexp : (-1074 + (Format.binary64.exponentBias : Int) +
      Format.binary64.mantissaBitsWithoutImplicit).toNat = 1 := rfl
  have hbits : Format.binary64.mantissaBits = 53 := rfl
  simp only [pack, hexp, hbits]
  rw [if_neg (by decide), if_neg (by omega)]

theorem toNat_leading (m : BitVec 52) : (1#1 ++ m).toNat = 2 ^ 52 + m.toNat := by
  rw [BitVec.toNat_append, Nat.or_comm]
  exact (Nat.or_two_pow_eq_add_of_lt m.isLt).trans (Nat.add_comm ..)

/-- A word whose exponent field is not all ones is what its double is packed to. -/
theorem pack_unpack (h : unpackExponent b ≠ -1#_) :
    pack Format.binary64 (unpack Format.binary64 b) = b := by
  have hmantissa : (unpackMantissa b).toNat < 2 ^ 52 := (unpackMantissa b).isLt
  have hexponent : (unpackExponent b).toNat < 2 ^ 11 := (unpackExponent b).isLt
  refine Eq.trans ?_ (packComponents_fields b)
  simp only [unpack, if_neg h]
  by_cases hzero : unpackExponent b = 0#_
  · by_cases hnone : unpackMantissa b = 0#_
    · rw [if_pos hzero, dif_pos hnone, hzero, hnone]
      rfl
    · have hpos : 0 < (unpackMantissa b).toNat := BitVec.toNat_pos_of_ne_zero hnone
      rw [if_pos hzero, dif_neg hnone, hzero]
      exact (pack_subnormal _ hmantissa hpos).trans (by rw [BitVec.ofNat_toNat, BitVec.setWidth_eq])
  · have hbelow : (unpackExponent b).toNat ≠ 2 ^ 11 - 1 := fun he => h (BitVec.eq_of_toNat_eq he)
    rw [if_neg hzero]
    have hpack := pack_normal (Sign.ofBitVec (unpackSign b)) hmantissa
      (by omega : (unpackExponent b).toNat < 2 ^ 11 - 1) (by omega)
    simp only [BitVec.ofNat_toNat, BitVec.setWidth_eq] at hpack
    rw [← hpack]
    congr 2
    exact toNat_leading _

variable {x : Float}

theorem exponent_ne_of_isFinite (h : isFinite x) : unpackExponent (bitsOf x) ≠ -1#_ := by
  intro he
  have hn := congrArg BitVec.toNat he
  rw [toNat_unpackExponent] at hn
  change x.toBits.toNat / 2 ^ 52 % 2 ^ 11 = 2047 at hn
  have hlt : x.toBits.toNat % 2 ^ 63 < infinityWord := of_decide_eq_true h
  unfold infinityWord at hlt
  omega

theorem isNaN_of_isFinite (h : isFinite x) : x.isNaN = false := by
  change UnpackedFloat.isNaN (unpack Format.binary64 (bitsOf x)) = false
  rw [unpack, if_neg (exponent_ne_of_isFinite h)]
  split
  · split <;> rfl
  · rfl

theorem ofBits_toBits (h : isFinite x) : Float.ofBits x.toBits = x := by
  have hpack := pack_unpack (exponent_ne_of_isFinite h)
  obtain ⟨⟨bits, valid⟩⟩ := x
  change Float.ofModel ⟨UInt64.ofBitVec (pack Format.binary64 (unpack Format.binary64
    bits.toBitVec)), _⟩ = _
  congr 2
  exact congrArg UInt64.ofBitVec hpack

/-- A finite double is its sign and its word without sign. -/
theorem ofMagnitude_magnitude (h : isFinite x) : ofMagnitude (isNegative x) (magnitude x) = x := by
  have hword : (if isNegative x then Nat.pow 2 63 + magnitude x else magnitude x) =
      x.toBits.toNat := by
    have := x.toBits.toNat_lt
    simp only [isNegative, magnitude, Nat.pow_eq, decide_eq_true_eq]
    split <;> omega
  rw [ofMagnitude, hword, UInt64.ofNat_toNat, ofBits_toBits h]

/-- The number without the sign of zero. -/
def dropZeroSign (x : Float) : Float := if x = -0.0 then 0.0 else x

theorem dropZeroSign_of_zero (h : magnitude x = 0) : dropZeroSign x = ofMagnitude false 0 := by
  have hfinite : isFinite x := by simp [isFinite, h, infinityWord]
  have hx := ofMagnitude_magnitude hfinite
  rw [h] at hx
  cases hn : isNegative x with
  | true =>
    have hneg : ofMagnitude true 0 = -0.0 := by decide
    rw [hn, hneg] at hx
    rw [← hx]
    decide
  | false =>
    rw [hn] at hx
    rw [← hx]
    decide

theorem dropZeroSign_of_ne_zero (h : magnitude x ≠ 0) : dropZeroSign x = x := by
  unfold dropZeroSign
  split
  · rename_i hx
    subst hx
    exact absurd (by decide) h
  · rfl

end DynamicLisp.Number
