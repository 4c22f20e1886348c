import Mathlib
import DynamicLisp.Reader.Numeral

/-! Numerals in the digits `0` to `9`: what is read from a sign, digits, a fraction and an
exponent (`ofText?_spell`). -/
namespace DynamicLisp

namespace Text

/-- A run of the digits `0` to `9`. -/
def Digits (cs : List Char) : Prop := ∀ c ∈ cs, c.isDigit = true

variable {c : Char} {cs ds : List Char}

theorem Digits.append (hc : Digits cs) (hd : Digits ds) : Digits (cs ++ ds) := by
  intro c hmem
  rcases List.mem_append.1 hmem with hmem | hmem
  · exact hc c hmem
  · exact hd c hmem

theorem digits_replicate (n : Nat) : Digits (List.replicate n '0') := by
  intro c hmem
  rw [List.eq_of_mem_replicate hmem]
  decide

theorem digits_toDigits (n : Nat) : Digits (Nat.toDigits 10 n) := fun _ hmem =>
  Nat.isDigit_of_mem_toDigits (by decide) (by decide) hmem

theorem digit?_of_isDigit (h : c.isDigit = true) : digit? c = some (c.toNat - 48) := by
  have hbounds : 48 ≤ c.toNat ∧ c.toNat ≤ 57 := by
    simpa [Char.isDigit, UInt32.le_iff_toNat_le] using h
  have hfind : zeros.find? (fun z => z ≤ c.toNat && c.toNat < z + 10) = some 48 := by
    apply List.find?_cons_of_pos
    simp only [Bool.and_eq_true, decide_eq_true_eq]
    omega
  rw [digit?, hfind]
  rfl

theorem isDigit_of_isDigit (h : c.isDigit = true) : isDigit c = true := by
  rw [isDigit, digit?_of_isDigit h]
  rfl

theorem digitsValue_eq (h : Digits cs) : digitsValue cs = Nat.ofDigitChars 10 cs 0 := by
  suffices hfold : ∀ n, cs.foldl (fun n c => 10 * n + (digit? c).getD 0) n =
      Nat.ofDigitChars 10 cs n from hfold 0
  induction cs with
  | nil => intro n; rfl
  | cons c cs ih =>
    intro n
    have hrest : Digits cs := fun d hd => h d (List.mem_cons_of_mem c hd)
    rw [List.foldl_cons, digit?_of_isDigit (h c List.mem_cons_self), ih hrest,
      Nat.ofDigitChars_cons]
    rfl

theorem digitsValue_toDigits (n : Nat) : digitsValue (Nat.toDigits 10 n) = n := by
  rw [digitsValue_eq (digits_toDigits n)]
  exact Nat.ofDigitChars_ten_toDigits

theorem digitsValue_zeros_append (n : Nat) (h : Digits cs) :
    digitsValue (List.replicate n '0' ++ cs) = digitsValue cs := by
  rw [digitsValue_eq ((digits_replicate n).append h), digitsValue_eq h, Nat.ofDigitChars_append,
    Nat.ofDigitChars_replicate_zero, Nat.mul_zero]

theorem digitsValue_append_zeros (n : Nat) (h : Digits cs) :
    digitsValue (cs ++ List.replicate n '0') = digitsValue cs * 10 ^ n := by
  rw [digitsValue_eq (h.append (digits_replicate n)), digitsValue_eq h, Nat.ofDigitChars_append,
    Nat.ofDigitChars_replicate_zero, Nat.mul_comm]

/-- A run of digits is read up to the first character that is none. -/
theorem span_digits (h : Digits ds) (hstop : ∀ c ∈ cs.head?, isDigit c = false) :
    (ds ++ cs).span isDigit = (ds, cs) := by
  have hds : ∀ c ∈ ds, isDigit c = true := fun c hmem => isDigit_of_isDigit (h c hmem)
  rw [List.span_eq_takeWhile_dropWhile, List.takeWhile_append_of_pos hds,
    List.dropWhile_append_of_pos hds]
  cases cs with
  | nil => simp
  | cons c cs =>
    have hc : isDigit c = false := hstop c rfl
    simp [hc]

end Text

namespace Numeral

open Text (Digits)

/-- The text of a number with its sign; no sign is written for numbers that are not negative. -/
def signed (negative : Bool) (cs : List Char) : List Char := if negative then '-' :: cs else cs

/-- The text of a number without sign. No point is written before an empty fraction. -/
def spell (whole fraction tail : List Char) : List Char :=
  whole ++ ((if fraction = [] then [] else '.' :: fraction) ++ tail)

variable {whole fraction tail cs : List Char} {e : Int}

/-- An exponent starts with its letter. -/
theorem head_of_exponent? (h : exponent? tail = some e) :
    ∀ c ∈ tail.head?, c = 'e' ∨ c = 'E' := by
  cases tail with
  | nil => simp
  | cons c cs =>
    simp only [exponent?] at h
    split at h
    · rename_i hc
      intro d hd
      cases hd
      exact hc.1
    · cases h

theorem stop_of_exponent? (h : exponent? tail = some e) :
    ∀ c ∈ tail.head?, Text.isDigit c = false := by
  intro c hc
  rcases head_of_exponent? h c hc with rfl | rfl <;> rfl

theorem sign_signed (negative : Bool) (h : ∀ c ∈ cs.head?, c.isDigit = true) :
    sign (signed negative cs) = (negative, cs) := by
  cases negative with
  | true => rfl
  | false =>
    cases cs with
    | nil => rfl
    | cons c cs =>
      have hc : c.isDigit = true := h c rfl
      unfold signed sign
      split
      · rename_i heq
        cases heq
        cases hc
      · rename_i heq
        cases heq
        cases hc
      · rfl

theorem fractionOf_tail (hf : Digits fraction) (h : exponent? tail = some e) :
    fractionOf ((if fraction = [] then [] else '.' :: fraction) ++ tail) = (fraction, tail) := by
  by_cases hnil : fraction = []
  · subst hnil
    cases tail with
    | nil => rfl
    | cons c cs => rcases head_of_exponent? h c rfl with rfl | rfl <;> rfl
  · rw [if_neg hnil]
    exact Text.span_digits hf (stop_of_exponent? h)

/-- What is written as digits, a fraction and an exponent is read back as these. -/
theorem ofText?_spell (hw : Digits whole) (hne : whole ≠ []) (hf : Digits fraction)
    (he : exponent? tail = some e) (negative : Bool) :
    ofText? (signed negative (spell whole fraction tail)) =
      some ⟨negative, whole, fraction, e⟩ := by
  have hhead : ∀ c ∈ (spell whole fraction tail).head?, c.isDigit = true := by
    cases whole with
    | nil => exact absurd rfl hne
    | cons d ds =>
      intro c hc
      cases hc
      exact hw d List.mem_cons_self
  have hstop : ∀ c ∈ ((if fraction = [] then [] else '.' :: fraction) ++ tail).head?,
      Text.isDigit c = false := by
    by_cases hnil : fraction = []
    · rw [if_pos hnil]
      exact stop_of_exponent? he
    · rw [if_neg hnil]
      intro c hc
      cases hc
      rfl
  unfold ofText?
  rw [sign_signed negative hhead]
  dsimp only
  rw [spell, Text.span_digits hw hstop]
  dsimp only
  rw [fractionOf_tail hf he]
  dsimp only
  rw [if_neg (fun h => hne h.1), he]
  rfl

end Numeral

end DynamicLisp
