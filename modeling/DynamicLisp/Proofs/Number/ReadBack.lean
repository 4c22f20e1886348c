import DynamicLisp.Number.Format
import DynamicLisp.Proofs.Number.Rounding
import DynamicLisp.Proofs.Number.Word
import DynamicLisp.Proofs.Reader.Numeral

/-! The text of a finite number is read back as the number, without the sign of zero
(`ofText?_toText`). -/
namespace DynamicLisp.Number

open Text (Digits digitsValue)
open Numeral (signed spell exponent?)

/-- The characters of the texts of finite numbers. -/
def IsNumberChar (c : Char) : Prop := c.isDigit = true ∨ c ∈ ['.', 'e', '+', '-']

/-- A text without sign that is read, with either sign, as the double of a word. -/
structure Writes (cs : List Char) (w : Nat) : Prop where
  reads : ∀ negative, ∃ n, Numeral.ofText? (signed negative cs) = some n ∧
    n.value = ofMagnitude negative w
  chars : ∀ c ∈ cs, IsNumberChar c

variable {whole fraction tail : List Char} {e : Int} {d : Decimal} {x : Float} {w : Nat}

/-- Zeros at the end of the digits are made up for by the exponent. -/
theorem writes_spell (hw : Digits whole) (hne : whole ≠ []) (hf : Digits fraction)
    (he : exponent? tail = some e) (htail : ∀ c ∈ tail, IsNumberChar c) (k : Nat)
    (hdigits : digitsValue (whole ++ fraction) = d.digits * 10 ^ k)
    (hexponent : e - fraction.length = d.exponent - k) :
    Writes (spell whole fraction tail) d.toWord := by
  refine ⟨fun negative => ⟨_, Numeral.ofText?_spell hw hne hf he negative, ?_⟩, ?_⟩
  · rw [Numeral.value, Numeral.decimal]
    dsimp only
    rw [hdigits, hexponent, Decimal.toWord_shift]
  · intro c hc
    rcases List.mem_append.1 hc with hc | hc
    · exact .inl (hw c hc)
    · rcases List.mem_append.1 hc with hc | hc
      · split at hc
        · cases hc
        · rcases List.mem_cons.1 hc with rfl | hc
          · exact .inr List.mem_cons_self
          · exact .inl (hf c hc)
      · exact htail c hc

/-- The same without an exponent in the text. -/
theorem writes_digits (hw : Digits whole) (hne : whole ≠ []) (hf : Digits fraction) (k : Nat)
    (hdigits : digitsValue (whole ++ fraction) = d.digits * 10 ^ k)
    (hexponent : (0 : Int) - fraction.length = d.exponent - k) :
    Writes (spell whole fraction []) d.toWord := by
  have he : exponent? [] = some 0 := rfl
  exact writes_spell hw hne hf he (List.forall_mem_nil _) k hdigits hexponent

/-- A text of digits alone. -/
theorem writes_natural (n : Nat) : Writes (Nat.repr n).toList (Decimal.toWord ⟨n, 0⟩) := by
  have h : (Nat.repr n).toList = spell (Nat.toDigits 10 n) [] [] := by simp [spell]
  rw [h]
  refine writes_digits (Text.digits_toDigits n) Nat.toDigits_ne_nil (List.forall_mem_nil _) 0 ?_
    rfl
  rw [List.append_nil, Text.digitsValue_toDigits]
  simp

@[simp] theorem toList_zeros (n : Nat) : (zeros n).toList = List.replicate n '0' := by simp [zeros]

section Plain

variable {ds : List Char} {n : Nat} (hdigits : Digits ds) (hvalue : digitsValue ds = d.digits)
  (hne : ds ≠ [])
include hdigits hvalue hne

/-- The point stands behind all digits, after zeros that fill up the places between. -/
theorem writes_plain_full (hn : (n : Int) = d.exponent + ds.length) (hlong : ds.length ≤ n) :
    Writes (plain ds n).toList d.toWord := by
  have h : (plain ds n).toList = spell (ds ++ List.replicate (n - ds.length) '0') ['0'] [] := by
    simp [plain, spell, hlong]
  rw [h]
  refine writes_digits (hdigits.append (Text.digits_replicate _)) (by simp [hne])
    (Text.digits_replicate 1) (n - ds.length + 1) ?_ ?_
  · rw [List.append_assoc, show ['0'] = List.replicate 1 '0' from rfl,
      List.replicate_append_replicate, Text.digitsValue_append_zeros _ hdigits, hvalue]
  · simp only [List.length_singleton]
    omega

/-- The point stands among the digits. -/
theorem writes_plain_among (hn : (n : Int) = d.exponent + ds.length) (hshort : ¬ ds.length ≤ n)
    (hzero : n ≠ 0) : Writes (plain ds n).toList d.toWord := by
  have hdrop : ds.drop n ≠ [] := by
    intro hnil
    exact hshort (List.drop_eq_nil_iff.1 hnil)
  have htake : ds.take n ≠ [] := by
    intro hnil
    rcases List.take_eq_nil_iff.1 hnil with hn | hnil
    · exact hzero hn
    · exact hne hnil
  have h : (plain ds n).toList = spell (ds.take n) (ds.drop n) [] := by
    simp [plain, spell, hzero, hshort, hdrop]
  rw [h]
  refine writes_digits (fun c hc => hdigits c (List.mem_of_mem_take hc)) htake
    (fun c hc => hdigits c (List.mem_of_mem_drop hc)) 0 ?_ ?_
  · rw [List.take_append_drop, hvalue]
    simp
  · rw [List.length_drop]
    omega

omit hne in
/-- Zeros stand between the point and the digits. -/
theorem writes_plain_below (hn : -(n : Int) = d.exponent + ds.length) :
    Writes (spell ['0'] (List.replicate n '0' ++ ds) []) d.toWord := by
  have hall : Digits (List.replicate n '0' ++ ds) := (Text.digits_replicate n).append hdigits
  refine writes_digits (Text.digits_replicate 1) (List.cons_ne_nil _ _) hall 0 ?_ ?_
  · calc digitsValue (['0'] ++ (List.replicate n '0' ++ ds))
        = digitsValue (List.replicate n '0' ++ ds) := Text.digitsValue_zeros_append 1 hall
      _ = d.digits := (Text.digitsValue_zeros_append n hdigits).trans hvalue
      _ = d.digits * 10 ^ 0 := by simp
  · simp only [List.length_append, List.length_replicate]
    omega

end Plain

theorem writes_plain (d : Decimal) :
    Writes (plain (Nat.toDigits 10 d.digits) d.point).toList d.toWord := by
  have hdigits := Text.digits_toDigits d.digits
  have hvalue := Text.digitsValue_toDigits d.digits
  have hne : Nat.toDigits 10 d.digits ≠ [] := Nat.toDigits_ne_nil
  have hpoint : d.point = d.exponent + (Nat.toDigits 10 d.digits).length := rfl
  generalize Nat.toDigits 10 d.digits = ds at hdigits hvalue hne hpoint ⊢
  cases hplace : d.point with
  | ofNat n =>
    have hn : (n : Int) = d.exponent + ds.length := hplace.symm.trans hpoint
    by_cases hlong : ds.length ≤ n
    · exact writes_plain_full hdigits hvalue hne hn hlong
    · by_cases hzero : n = 0
      · have h : (plain ds (.ofNat n)).toList = spell ['0'] (List.replicate 0 '0' ++ ds) [] := by
          simp [plain, spell, hzero, hne]
        rw [h]
        exact writes_plain_below hdigits hvalue (by omega)
      · exact writes_plain_among hdigits hvalue hne hn hlong hzero
  | negSucc n =>
    have hn : -((n + 1 : Nat) : Int) = d.exponent + ds.length := hplace.symm.trans hpoint
    have h : (plain ds (.negSucc n)).toList =
        spell ['0'] (List.replicate (n + 1) '0' ++ ds) [] := by
      simp [plain, spell, hne]
    rw [h]
    exact writes_plain_below hdigits hvalue hn

/-- An exponent as it is written: its letter, a sign, and at least two digits. -/
def exponentText (e : Int) : List Char :=
  'e' :: (if e < 0 then '-' else '+') ::
    (List.replicate (if e.natAbs < 10 then 1 else 0) '0' ++ Nat.toDigits 10 e.natAbs)

theorem exponent?_exponentText (e : Int) : exponent? (exponentText e) = some e := by
  have hdigits : Digits (List.replicate (if e.natAbs < 10 then 1 else 0) '0' ++
      Nat.toDigits 10 e.natAbs) :=
    (Text.digits_replicate _).append (Text.digits_toDigits _)
  have hvalue : digitsValue (List.replicate (if e.natAbs < 10 then 1 else 0) '0' ++
      Nat.toDigits 10 e.natAbs) = e.natAbs := by
    rw [Text.digitsValue_zeros_append _ (Text.digits_toDigits _), Text.digitsValue_toDigits]
  have hne : List.replicate (if e.natAbs < 10 then 1 else 0) '0' ++
      Nat.toDigits 10 e.natAbs ≠ [] := by
    simp [Nat.toDigits_ne_nil]
  unfold exponentText
  generalize List.replicate (if e.natAbs < 10 then 1 else 0) '0' ++ Nat.toDigits 10 e.natAbs = ds
    at hdigits hvalue hne ⊢
  have hall : ds.all Text.isDigit = true :=
    List.all_eq_true.2 fun c hc => Text.isDigit_of_isDigit (hdigits c hc)
  by_cases hneg : e < 0
  · simp only [hneg, if_true, exponent?, Numeral.sign, hall, hvalue, hne, true_or, ne_eq,
      not_false_eq_true, and_self]
    congr 1
    omega
  · simp only [hneg, if_false, exponent?, Numeral.sign, hall, hvalue, hne, true_or, ne_eq,
      not_false_eq_true, and_self, if_true, Bool.false_eq_true]
    congr 1
    omega

theorem exponentText_chars (e : Int) : ∀ c ∈ exponentText e, IsNumberChar c := by
  intro c hc
  rcases List.mem_cons.1 hc with rfl | hc
  · exact .inr (by decide)
  · rcases List.mem_cons.1 hc with rfl | hc
    · split
      · exact .inr (by decide)
      · exact .inr (by decide)
    · exact .inl (((Text.digits_replicate _).append (Text.digits_toDigits _)) c hc)

theorem toList_scientific (c : Char) (ds : List Char) (place : Int) :
    (scientific (c :: ds) place).toList = spell [c] ds (exponentText (place - 1)) := by
  simp only [scientific]
  generalize place - 1 = e
  have hsign : (if e < 0 then "e-" else "e+").toList = ['e', if e < 0 then '-' else '+'] := by
    split <;> rfl
  have hpad : (if e.natAbs < 10 then "0" else "").toList =
      List.replicate (if e.natAbs < 10 then 1 else 0) '0' := by
    split <;> rfl
  cases ds with
  | nil => simp [spell, exponentText, hsign, hpad]
  | cons r ds => simp [spell, exponentText, hsign, hpad]

theorem writes_scientific (d : Decimal) :
    Writes (scientific (Nat.toDigits 10 d.digits) d.point).toList d.toWord := by
  have hdigits := Text.digits_toDigits d.digits
  have hvalue := Text.digitsValue_toDigits d.digits
  have hne : Nat.toDigits 10 d.digits ≠ [] := Nat.toDigits_ne_nil
  have hpoint : d.point = d.exponent + (Nat.toDigits 10 d.digits).length := rfl
  generalize Nat.toDigits 10 d.digits = ds at hdigits hvalue hne hpoint ⊢
  generalize d.point = place at hpoint ⊢
  obtain ⟨c, ds, rfl⟩ := List.exists_cons_of_ne_nil hne
  rw [toList_scientific]
  refine writes_spell (fun b hb => hdigits b ?_) (List.cons_ne_nil _ _)
    (fun b hb => hdigits b (List.mem_cons_of_mem c hb)) (exponent?_exponentText _)
    (exponentText_chars _) 0 ?_ ?_
  · rw [List.mem_singleton.1 hb]
    exact List.mem_cons_self
  · rw [List.singleton_append, hvalue]
    simp
  · simp only [List.length_cons] at hpoint
    omega

/-- What is printed for a finite double without its sign. -/
theorem writes_formatMagnitude (hw : w < infinityWord) :
    Writes (formatMagnitude .display w).toList w := by
  unfold formatMagnitude
  dsimp only
  split
  · rename_i hwhole
    have hmod : grainsOf w % grainsInOne = 0 := by simpa [Style.display] using hwhole
    have h := writes_natural (grainsOf w / grainsInOne)
    rwa [toWord_whole hw hmod] at h
  · rename_i hwhole
    have hpos : 0 < w := by
      apply Nat.pos_of_ne_zero
      intro hzero
      apply hwhole
      simp [Style.display, hzero, grainsOf]
    rw [if_neg (Nat.ne_of_gt (grainsOf_pos hpos))]
    have hshortest := toWord_shortest hpos hw
    split
    · have h := writes_plain (shortest w)
      rwa [hshortest] at h
    · have h := writes_scientific (shortest w)
      rwa [hshortest] at h

theorem toText_of_isFinite (h : isFinite x) : (toText x).toList =
    signed (isNegative x && magnitude x != 0) (formatMagnitude .display (magnitude x)).toList := by
  have hshown : (Style.display.wholeInFull && magnitude x == 0) = (magnitude x == 0) := rfl
  rw [toText, format, isNaN_of_isFinite h, hshown]
  simp only [h, if_true, Bool.false_eq_true, if_false, signed, bne]
  split
  · exact String.toList_append
  · rfl

theorem toText_chars (h : isFinite x) : ∀ c ∈ (toText x).toList, IsNumberChar c := by
  have hwrites := writes_formatMagnitude (of_decide_eq_true h)
  rw [toText_of_isFinite h]
  intro c hc
  unfold signed at hc
  split at hc
  · rcases List.mem_cons.1 hc with rfl | hc
    · exact .inr (by decide)
    · exact hwrites.chars c hc
  · exact hwrites.chars c hc

/-- The text of a finite number is a numeral, and its value is the number; negative zero is read
as zero. -/
theorem ofText?_toText (h : isFinite x) :
    ∃ n, Numeral.ofText? (toText x).toList = some n ∧ n.value = dropZeroSign x := by
  have hwrites := writes_formatMagnitude (of_decide_eq_true h)
  obtain ⟨n, hn, hvalue⟩ := hwrites.reads (isNegative x && magnitude x != 0)
  refine ⟨n, by rw [toText_of_isFinite h, hn], hvalue.trans ?_⟩
  by_cases hzero : magnitude x = 0
  · rw [dropZeroSign_of_zero hzero, hzero]
    simp
  · rw [dropZeroSign_of_ne_zero hzero]
    have hsign : (isNegative x && magnitude x != 0) = isNegative x := by simp [bne, hzero]
    rw [hsign]
    exact ofMagnitude_magnitude h

end DynamicLisp.Number
