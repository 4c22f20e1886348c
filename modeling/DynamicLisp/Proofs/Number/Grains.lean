import DynamicLisp.Proofs.Number.Comparison

/-! Finite doubles as whole numbers of grains, with a sign. The model of doubles takes a word apart
into a sign, a mantissa and an exponent, and these are as many grains as the double has
(`hasGrains_iff`). -/
namespace DynamicLisp.Number

open Float.Model (Format UnpackedFloat)
open Float.Model.UnpackedFloat (Sign pack packComponents unpack unpackSign unpackExponent
  unpackMantissa unpackSign_packComponents unpackExponent_packComponents
  unpackMantissa_packComponents)

/-- The grains of a finite double, below zero for negative ones. -/
def signedGrains (x : Float) : Int := if isNegative x then -(grains x : Int) else grains x

/-- The mantissa and the exponent of a double other than zero. Either the mantissa has all its bits or
the exponent is the least one. -/
structure Canonical (m : Nat) (e : Int) : Prop where
  pos : 0 < m
  lt : m < 2 ^ 53
  least : -1074 ≤ e
  greatest : e ≤ 971
  full : 2 ^ 52 ≤ m ∨ e = -1074

/-- An unpacked finite double, and how many grains it has. -/
inductive HasGrains : UnpackedFloat → Int → Prop
  | zero (s : Sign) : HasGrains (.zero s) 0
  | finite (s : Sign) {m : Nat} {e : Int} (h : Canonical m e) :
    HasGrains (.finite s m e h.pos) (s.apply (m * 2 ^ (e + 1074).toNat : Nat))

variable {x : Float} {u : UnpackedFloat} {g : Int} {m n : Nat} {b : Bits}

theorem Canonical.grains_pos {e : Int} (h : Canonical m e) : 0 < m * 2 ^ (e + 1074).toNat :=
  Nat.mul_pos h.pos (Nat.two_pow_pos _)

theorem toNat_unpackMantissa : (unpackMantissa b).toNat = b.toNat % 2 ^ 52 := by
  simp [unpackMantissa]

theorem ofBitVec_unpackSign :
    Sign.ofBitVec (unpackSign b) = if 2 ^ 63 ≤ b.toNat then .negative else .positive := by
  have hlt : b.toNat < 2 ^ 64 := b.isLt
  have hzero : unpackSign b = 0#1 ↔ b.toNat / 2 ^ 63 = 0 := by
    rw [← BitVec.toNat_inj]
    simp [unpackSign, Nat.shiftRight_eq_div_pow]
    omega
  rw [Sign.ofBitVec, ← ite_not]
  refine if_congr ?_ rfl rfl
  rw [hzero]
  omega

theorem grainsOf_word {e : Nat} (hm : m < 2 ^ 52) :
    grainsOf (e * 2 ^ 52 + m) = if e = 0 then m else (2 ^ 52 + m) * 2 ^ (e - 1) := by
  have hword : e * 2 ^ 52 + m < 2 ^ 52 ↔ e = 0 := by omega
  have hlow : (e * 2 ^ 52 + m) % 2 ^ 52 = m := by omega
  have hhigh : (e * 2 ^ 52 + m) / 2 ^ 52 = e := by omega
  simp only [grainsOf, Nat.pow_eq, hword, hlow, hhigh]
  refine ite_congr rfl (fun he => ?_) fun _ => rfl
  rw [he, Nat.zero_mul, Nat.zero_add]

theorem signedGrains_eq : signedGrains x =
    (Sign.ofBitVec (unpackSign (bitsOf x))).apply (grains x) := by
  rw [ofBitVec_unpackSign, signedGrains, isNegative, Nat.pow_eq]
  change (if decide (2 ^ 63 ≤ (bitsOf x).toNat) = true then _ else _) = _
  simp only [decide_eq_true_eq]
  split <;> rfl

theorem magnitude_fields (x : Float) : magnitude x =
    (unpackExponent (bitsOf x)).toNat * 2 ^ 52 + (unpackMantissa (bitsOf x)).toNat := by
  rw [toNat_unpackExponent, toNat_unpackMantissa]
  change (bitsOf x).toNat % 2 ^ 63 = _
  omega

theorem isFinite_iff : isFinite x ↔ (unpackExponent (bitsOf x)).toNat < 2047 := by
  have hmantissa : (unpackMantissa (bitsOf x)).toNat < 2 ^ 52 := (unpackMantissa (bitsOf x)).isLt
  rw [isFinite, magnitude_fields, infinityWord, decide_eq_true_iff]
  omega

theorem hasGrains_unpack (h : isFinite x) :
    HasGrains (unpack Format.binary64 (bitsOf x)) (signedGrains x) := by
  have hmantissa : (unpackMantissa (bitsOf x)).toNat < 2 ^ 52 := (unpackMantissa (bitsOf x)).isLt
  have hexponent := isFinite_iff.1 h
  rw [signedGrains_eq, grains, magnitude_fields, grainsOf_word hmantissa, unpack]
  simp only [if_neg (exponent_ne_of_isFinite h)]
  generalize Sign.ofBitVec (unpackSign (bitsOf x)) = s
  by_cases hzero : unpackExponent (bitsOf x) = 0#_
  · rw [if_pos hzero, if_pos (by rw [hzero]; rfl)]
    by_cases hnone : unpackMantissa (bitsOf x) = 0#_
    · rw [dif_pos hnone, hnone]
      cases s <;> exact .zero _
    · rw [dif_neg hnone, hzero]
      have hcanonical : Canonical (unpackMantissa (bitsOf x)).toNat (-1074) :=
        ⟨BitVec.toNat_pos_of_ne_zero hnone, by omega, by omega, by omega, .inr rfl⟩
      have hhas := HasGrains.finite s hcanonical
      rwa [show ((-1074 : Int) + 1074).toNat = 0 from rfl, Nat.pow_zero, Nat.mul_one] at hhas
  · have hpos : (unpackExponent (bitsOf x)).toNat ≠ 0 :=
      fun hnone => hzero (BitVec.eq_of_toNat_eq hnone)
    rw [if_neg hzero, if_neg hpos, ← toNat_leading]
    have hcanonical : Canonical (1#1 ++ unpackMantissa (bitsOf x)).toNat
        ((unpackExponent (bitsOf x)).toNat - (1023 + 52)) := by
      rw [toNat_leading]
      exact ⟨by omega, by omega, by omega, by omega, .inl (by omega)⟩
    have hplace : (((unpackExponent (bitsOf x)).toNat : Int) - (1023 + 52) + 1074).toNat =
      (unpackExponent (bitsOf x)).toNat - 1 := by omega
    have hhas := HasGrains.finite s hcanonical
    rwa [hplace] at hhas

theorem HasGrains.unique {g' : Int} (h : HasGrains u g) (h' : HasGrains u g') : g = g' := by
  cases h <;> cases h' <;> rfl

/-- A double has grains if it is finite. -/
theorem hasGrains_iff :
    HasGrains (unpack Format.binary64 (bitsOf x)) g ↔ isFinite x ∧ signedGrains x = g := by
  constructor
  · intro h
    have hfinite : isFinite x := by
      by_contra hinfinite
      have hlt : (unpackExponent (bitsOf x)).toNat < 2 ^ 11 := (unpackExponent (bitsOf x)).isLt
      have hall : (unpackExponent (bitsOf x)).toNat = 2047 := by
        have hge := mt isFinite_iff.2 hinfinite
        omega
      obtain hunpack | ⟨-, hunpack⟩ := unpack_of_exponent (BitVec.eq_of_toNat_eq hall)
      · rw [hunpack] at h
        cases h
      · rw [hunpack] at h
        cases h
    exact ⟨hfinite, (hasGrains_unpack hfinite).unique h⟩
  · rintro ⟨hfinite, rfl⟩
    exact hasGrains_unpack hfinite

theorem ofNat_ne {w : Nat} (hm : m < 2 ^ w) (hn : n < 2 ^ w) (hne : m ≠ n) :
    BitVec.ofNat w m ≠ BitVec.ofNat w n := by
  intro h
  have hvalue := congrArg BitVec.toNat h
  rw [BitVec.toNat_ofNat, BitVec.toNat_ofNat, Nat.mod_eq_of_lt hm, Nat.mod_eq_of_lt hn] at hvalue
  exact hne hvalue

theorem unpack_subnormal (s : Sign) (hm : m < 2 ^ 52) (hpos : 0 < m) :
    unpack Format.binary64 (packComponents Format.binary64 s 0#_ (BitVec.ofNat _ m)) =
      .finite s m (-1074) hpos := by
  have hmantissa : (BitVec.ofNat 52 m).toNat = m := Nat.mod_eq_of_lt hm
  rw [unpack]
  simp only [unpackSign_packComponents, unpackExponent_packComponents, unpackMantissa_packComponents,
    Sign.ofBitVec_toBitVec, if_true]
  rw [if_neg (by decide), dif_neg (ofNat_ne hm (by omega) (by omega)), UnpackedFloat.finite.injEq]
  exact ⟨rfl, hmantissa, rfl⟩

theorem unpack_normal (s : Sign) (hm : m < 2 ^ 52) (hn : 0 < n) (hn' : n < 2 ^ 11 - 1)
    (hpos : 0 < 2 ^ 52 + m) :
    unpack Format.binary64
      (packComponents Format.binary64 s (BitVec.ofNat _ n) (BitVec.ofNat _ m)) =
        .finite s (2 ^ 52 + m) ((n : Int) - (1023 + 52)) hpos := by
  have hmantissa : (BitVec.ofNat 52 m).toNat = m := Nat.mod_eq_of_lt hm
  have hexponent : (BitVec.ofNat 11 n).toNat = n := Nat.mod_eq_of_lt (by omega)
  have hinfinity : BitVec.ofNat 11 n ≠ -1#11 :=
    ofNat_ne (n := 2047) (by omega) (by omega) (by omega)
  rw [unpack]
  simp only [unpackSign_packComponents, unpackExponent_packComponents, unpackMantissa_packComponents,
    Sign.ofBitVec_toBitVec]
  rw [if_neg hinfinity, if_neg (ofNat_ne (by omega) (by omega) (by omega)),
    UnpackedFloat.finite.injEq]
  exact ⟨rfl, (toNat_leading _).trans (congrArg _ hmantissa),
    congrArg (fun i : Nat => (i : Int) - (1023 + 52)) hexponent⟩

/-- A double is unpacked to what it is packed from. -/
theorem unpack_pack (h : HasGrains u g) :
    unpack Format.binary64 (pack Format.binary64 u) = u := by
  cases h with
  | zero s => cases s <;> rfl
  | @finite s m e h =>
    obtain ⟨hpos, hlt, hleast, hgreatest, hfull⟩ := h
    by_cases hm : m < 2 ^ 52
    · obtain rfl : e = -1074 := by omega
      rw [pack_subnormal s hm hpos, unpack_subnormal s hm hpos]
    · obtain ⟨m, rfl⟩ := Nat.exists_eq_add_of_le (Nat.le_of_not_lt hm)
      obtain ⟨k, rfl⟩ : ∃ k : Nat, e = (k : Int) - (1023 + 52) := ⟨(e + 1075).toNat, by omega⟩
      rw [pack_normal s (by omega) (by omega), unpack_normal s (by omega) (by omega) (by omega)]

end DynamicLisp.Number
