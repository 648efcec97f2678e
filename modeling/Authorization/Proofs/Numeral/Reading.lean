import Authorization.Json.Number
import Mathlib

/-!
# Numbers tell their texts

The text of a number shows which number it is. An integer is written in digits
alone. A decimal has a point or an exponent, and wherever the point stands, its
digits and its power of ten can be read off again, the zeros that only fill up
places being dropped (`ofText_magnitudeText`).

* `Decimal.text_inj`: a decimal has a text of its own, with the sign of zero;
* `Number.text_inj`: so has a number.
-/

namespace Authorization

namespace Decimal

/-- Zeros at the end of the digits only move the power of ten. -/
theorem stripZeros_mul_pow {digits : Nat} {exponent : Int}
    (h : digits % 10 ≠ 0 ∨ digits = 0 ∧ exponent = 0) (k : Nat) :
    stripZeros (digits * 10 ^ k) (exponent - k) = (digits, exponent) := by
  rcases h with h | ⟨rfl, rfl⟩
  · have hpos : digits ≠ 0 := fun h0 => h (by rw [h0])
    induction k with
    | zero =>
      rw [Nat.pow_zero, Nat.mul_one, stripZeros, if_neg hpos, if_neg h]
      simp
    | succ k ih =>
      have hk : digits * 10 ^ (k + 1) = digits * 10 ^ k * 10 := by rw [Nat.pow_succ, Nat.mul_assoc]
      have hne : digits * 10 ^ k ≠ 0 := Nat.mul_ne_zero hpos (by simp)
      rw [hk, stripZeros, if_neg (by omega), if_pos (by omega),
        Nat.mul_div_cancel _ (by omega : 0 < 10), show exponent - ((k + 1 : Nat) : Int) + 1 =
          exponent - k by omega, ih]
  · rw [Nat.zero_mul, stripZeros, if_pos rfl]

/-! ### Reading a text -/

/-- The integer that digits write, after a sign if there is one. -/
def signed : List Char → Int
  | '-' :: cs => -Nat.ofDigitChars 10 cs 0
  | '+' :: cs => Nat.ofDigitChars 10 cs 0
  | cs => Nat.ofDigitChars 10 cs 0

/-- Digits and power of ten of the number that a text without sign writes. -/
def ofText (cs : List Char) : Nat × Int :=
  let mantissa := cs.takeWhile (· != 'e')
  let exponent := (cs.dropWhile (· != 'e')).drop 1
  let fraction := (mantissa.dropWhile (· != '.')).drop 1
  stripZeros (Nat.ofDigitChars 10 (mantissa.filter (· != '.')) 0)
    (signed exponent - fraction.length)

/-- The text of the magnitude of `d` in its parts: digits, then a point and more digits, then
    the exponent with its letter, if there are these. -/
structure Parts (d : Decimal) (whole point exponent : List Char) : Prop where
  text : d.magnitudeText.toList = whole ++ point ++ exponent
  ne_nil : whole ≠ []
  whole_digits : ∀ c ∈ whole, c.isDigit = true
  point_digits : point = [] ∨ ∃ fraction, point = '.' :: fraction ∧ ∀ c ∈ fraction, c.isDigit = true
  exponent_digits : exponent = [] ∨ ∃ sign digits, exponent = 'e' :: sign :: digits ∧
    (sign = '+' ∨ sign = '-') ∧ ∀ c ∈ digits, c.isDigit = true
  not_integer : point ≠ [] ∨ exponent ≠ []
  value : ∃ k : Nat, Nat.ofDigitChars 10 (whole ++ point.drop 1) 0 = d.digits * 10 ^ k ∧
    signed (exponent.drop 1) - (point.drop 1).length = d.exponent - k

theorem isDigit_of_mem_repr {n : Nat} : ∀ c ∈ n.repr.toList, c.isDigit = true := fun c hc => by
  rw [Nat.toList_repr] at hc
  exact Nat.isDigit_of_mem_toDigits (by decide) (by decide) hc

theorem isDigit_of_mem_zeros {n : Nat} : ∀ c ∈ List.replicate n '0', c.isDigit = true :=
  fun c hc => by rw [List.eq_of_mem_replicate hc]; rfl

theorem ne_of_isDigit {c d : Char} (hc : c.isDigit = true) (hd : d.isDigit = false) : c ≠ d := by
  rintro rfl
  rw [hc] at hd
  cases hd

/-- The integer after the letter of an exponent, as it is written. -/
theorem signed_exponent {n : Int} (h : n < 0 ∨ 0 ≤ n) :
    ∃ sign digits, ((if 0 ≤ n then "e+" else "e") ++ toString n).toList = 'e' :: sign :: digits ∧
      (sign = '+' ∨ sign = '-') ∧ (∀ c ∈ digits, c.isDigit = true) ∧
      signed (sign :: digits) = n := by
  rcases h with h | h
  · refine ⟨'-', (-n).toNat.repr.toList, ?_, .inr rfl, isDigit_of_mem_repr, ?_⟩
    · rw [if_neg (by omega), Int.toString_eq_repr, Int.repr_eq_if, if_neg (by omega)]
      simp
    · simp only [signed, Nat.toList_repr, Nat.ofDigitChars_ten_toDigits]
      omega
  · refine ⟨'+', n.toNat.repr.toList, ?_, .inl rfl, isDigit_of_mem_repr, ?_⟩
    · rw [if_pos h, Int.toString_eq_repr, Int.repr_eq_if, if_pos h]
      simp
    · simp only [signed, Nat.toList_repr, Nat.ofDigitChars_ten_toDigits]
      omega

/-! ### How a magnitude is written -/

/-- The digits, as they are written. -/
def chars (d : Decimal) : List Char := d.digits.repr.toList

/-- How many places the point stands after the first digit. -/
def place (d : Decimal) : Int := d.chars.length + d.exponent

theorem chars_ne_nil {d : Decimal} : d.chars ≠ [] := by simp [chars]

theorem isDigit_of_mem_chars {d : Decimal} : ∀ c ∈ d.chars, c.isDigit = true := isDigit_of_mem_repr

theorem ofDigitChars_chars {d : Decimal} : Nat.ofDigitChars 10 d.chars 0 = d.digits := by
  simp [chars]

theorem digits_ne_nil {n : Nat} : n.repr.toList ≠ [] := by simp

theorem magnitudeText_eq (d : Decimal) : d.magnitudeText =
    if 0 ≤ d.exponent ∧ d.place ≤ 16 then
      String.ofList d.chars ++ zeros d.exponent.toNat ++ ".0"
    else if 0 < d.place ∧ d.place ≤ 16 then pointAfter d.place.toNat d.chars
    else if -5 < d.place ∧ d.place ≤ 0 then
      "0." ++ zeros (-d.place).toNat ++ String.ofList d.chars
    else
      (if d.chars.length = 1 then String.ofList d.chars else pointAfter 1 d.chars) ++
        (if 0 < d.place then "e+" else "e") ++ toString (d.place - 1) := rfl

/-- A number without places after the point, and not too large. -/
theorem parts_of_whole {d : Decimal} (h : 0 ≤ d.exponent ∧ d.place ≤ 16) :
    Parts d (d.chars ++ List.replicate d.exponent.toNat '0') ['.', '0'] [] where
  text := by
    rw [magnitudeText_eq, if_pos h]
    simp [zeros]
  ne_nil := by simp [chars_ne_nil]
  whole_digits c hc := (List.mem_append.1 hc).elim (isDigit_of_mem_chars c) (isDigit_of_mem_zeros c)
  point_digits := .inr ⟨['0'], rfl, fun c hc => List.eq_of_mem_singleton hc ▸ rfl⟩
  exponent_digits := .inl rfl
  not_integer := .inl (by simp)
  value := by
    refine ⟨d.exponent.toNat + 1, ?_, ?_⟩
    · have hzero : Nat.ofDigitChars 10 ['0'] (10 ^ d.exponent.toNat * d.digits) =
          10 * (10 ^ d.exponent.toNat * d.digits) := by simp [Nat.ofDigitChars_cons]
      rw [List.append_assoc, Nat.ofDigitChars_append, ofDigitChars_chars, Nat.ofDigitChars_append,
        Nat.ofDigitChars_replicate_zero, List.drop_succ_cons, List.drop_zero, hzero, Nat.pow_succ,
        ← Nat.mul_assoc, Nat.mul_comm, Nat.mul_comm 10]
    · simp [signed]
      omega

/-- A number with the point between its digits. -/
theorem parts_of_pointed {d : Decimal} (hneg : ¬(0 ≤ d.exponent ∧ d.place ≤ 16))
    (h : 0 < d.place ∧ d.place ≤ 16) :
    Parts d (d.chars.take d.place.toNat) ('.' :: d.chars.drop d.place.toNat) [] where
  text := by
    rw [magnitudeText_eq, if_neg hneg, if_pos h]
    simp [pointAfter]
  ne_nil := by
    intro hnil
    rcases List.take_eq_nil_iff.1 hnil with h0 | h0
    · omega
    · exact chars_ne_nil h0
  whole_digits c hc := isDigit_of_mem_chars c (List.mem_of_mem_take hc)
  point_digits := .inr ⟨_, rfl, fun c hc => isDigit_of_mem_chars c (List.mem_of_mem_drop hc)⟩
  exponent_digits := .inl rfl
  not_integer := .inl (by simp)
  value := by
    refine ⟨0, ?_, ?_⟩
    · rw [List.drop_succ_cons, List.drop_zero, List.take_append_drop, ofDigitChars_chars,
        Nat.pow_zero, Nat.mul_one]
    · rw [List.drop_succ_cons, List.drop_zero, List.length_drop]
      have hplace : d.place = d.chars.length + d.exponent := rfl
      simp only [signed, List.drop_nil, Nat.ofDigitChars_nil]
      omega

/-- A number with zeros between the point and its digits. -/
theorem parts_of_small {d : Decimal} (hneg : ¬(0 ≤ d.exponent ∧ d.place ≤ 16))
    (hneg' : ¬(0 < d.place ∧ d.place ≤ 16)) (h : -5 < d.place ∧ d.place ≤ 0) :
    Parts d ['0'] ('.' :: (List.replicate (-d.place).toNat '0' ++ d.chars)) [] where
  text := by
    rw [magnitudeText_eq, if_neg hneg, if_neg hneg', if_pos h]
    simp [zeros]
  ne_nil := by simp
  whole_digits c hc := List.eq_of_mem_singleton hc ▸ rfl
  point_digits := .inr ⟨_, rfl, fun c hc =>
    (List.mem_append.1 hc).elim (isDigit_of_mem_zeros c) (isDigit_of_mem_chars c)⟩
  exponent_digits := .inl rfl
  not_integer := .inl (by simp)
  value := by
    refine ⟨0, ?_, ?_⟩
    · have hzero : Nat.ofDigitChars 10 ['0'] 0 = 0 := rfl
      rw [List.drop_succ_cons, List.drop_zero, Nat.ofDigitChars_append, hzero,
        Nat.ofDigitChars_append, Nat.ofDigitChars_replicate_zero, Nat.mul_zero, ofDigitChars_chars,
        Nat.pow_zero, Nat.mul_one]
    · rw [List.drop_succ_cons, List.drop_zero, List.length_append, List.length_replicate]
      have hplace : d.place = d.chars.length + d.exponent := rfl
      simp only [signed, List.drop_nil, Nat.ofDigitChars_nil]
      omega

section Scientific

variable {d : Decimal} {sign : Char} {digits : List Char}

/-- A number with an exponent after its only digit. -/
theorem parts_of_single (htext : d.magnitudeText.toList = d.chars ++ 'e' :: sign :: digits)
    (hone : d.chars.length = 1) (hsign : sign = '+' ∨ sign = '-')
    (hdigits : ∀ c ∈ digits, c.isDigit = true) (hvalue : signed (sign :: digits) = d.place - 1) :
    Parts d d.chars [] ('e' :: sign :: digits) where
  text := by rw [htext, List.append_nil]
  ne_nil := chars_ne_nil
  whole_digits := isDigit_of_mem_chars
  point_digits := .inl rfl
  exponent_digits := .inr ⟨sign, digits, rfl, hsign, hdigits⟩
  not_integer := .inr (List.cons_ne_nil _ _)
  value := by
    refine ⟨0, ?_, ?_⟩
    · rw [List.drop_nil, List.append_nil, ofDigitChars_chars, Nat.pow_zero, Nat.mul_one]
    · rw [List.drop_succ_cons, List.drop_zero, hvalue, place, hone]
      simp only [List.drop_nil, List.length_nil]
      omega

/-- A number with an exponent after its first digit, the point, and the others. -/
theorem parts_of_several
    (htext : d.magnitudeText.toList =
      d.chars.take 1 ++ '.' :: d.chars.drop 1 ++ 'e' :: sign :: digits)
    (hsign : sign = '+' ∨ sign = '-') (hdigits : ∀ c ∈ digits, c.isDigit = true)
    (hvalue : signed (sign :: digits) = d.place - 1) :
    Parts d (d.chars.take 1) ('.' :: d.chars.drop 1) ('e' :: sign :: digits) where
  text := htext
  ne_nil := by simp [chars_ne_nil]
  whole_digits c hc := isDigit_of_mem_chars c (List.mem_of_mem_take hc)
  point_digits := .inr ⟨_, rfl, fun c hc => isDigit_of_mem_chars c (List.mem_of_mem_drop hc)⟩
  exponent_digits := .inr ⟨sign, digits, rfl, hsign, hdigits⟩
  not_integer := .inl (List.cons_ne_nil _ _)
  value := by
    have hlen : d.chars.length ≠ 0 := fun h => chars_ne_nil (List.length_eq_zero_iff.1 h)
    refine ⟨0, ?_, ?_⟩
    · rw [List.drop_succ_cons, List.drop_zero, List.take_append_drop, ofDigitChars_chars,
        Nat.pow_zero, Nat.mul_one]
    · rw [List.drop_succ_cons, List.drop_zero, hvalue, List.drop_succ_cons, List.drop_zero,
        List.length_drop, place]
      omega

/-- A number with an exponent after its only digit, or after its first one and the others. -/
theorem exists_parts_of_scientific (hneg : ¬(0 ≤ d.exponent ∧ d.place ≤ 16))
    (hneg' : ¬(0 < d.place ∧ d.place ≤ 16)) (h : ¬(-5 < d.place ∧ d.place ≤ 0)) :
    ∃ whole point exponent, Parts d whole point exponent := by
  obtain ⟨sign, digits, htext, hsign, hdigits, hvalue⟩ :=
    signed_exponent (n := d.place - 1) (by omega)
  have hplace : (0 < d.place) = (0 ≤ d.place - 1) := propext (by omega)
  have hexp : ((if 0 < d.place then "e+" else "e") ++ toString (d.place - 1)).toList =
      'e' :: sign :: digits := by
    rw [← htext]
    simp only [hplace]
  by_cases hone : d.chars.length = 1
  · refine ⟨_, _, _, parts_of_single ?_ hone hsign hdigits hvalue⟩
    rw [magnitudeText_eq, if_neg hneg, if_neg hneg', if_neg h, if_pos hone, String.append_assoc,
      String.toList_append, hexp, String.toList_ofList]
  · refine ⟨_, _, _, parts_of_several ?_ hsign hdigits hvalue⟩
    rw [magnitudeText_eq, if_neg hneg, if_neg hneg', if_neg h, if_neg hone, String.append_assoc,
      String.toList_append, hexp, pointAfter, String.toList_append, String.toList_append,
      String.toList_ofList, String.toList_ofList]
    simp

end Scientific

theorem exists_parts (d : Decimal) : ∃ whole point exponent, Parts d whole point exponent := by
  by_cases h₁ : 0 ≤ d.exponent ∧ d.place ≤ 16
  · exact ⟨_, _, _, parts_of_whole h₁⟩
  by_cases h₂ : 0 < d.place ∧ d.place ≤ 16
  · exact ⟨_, _, _, parts_of_pointed h₁ h₂⟩
  by_cases h₃ : -5 < d.place ∧ d.place ≤ 0
  · exact ⟨_, _, _, parts_of_small h₁ h₂ h₃⟩
  · exact exists_parts_of_scientific h₁ h₂ h₃

/-! ### Reading a magnitude -/

/-- A list is cut where its elements cease to satisfy a test. -/
theorem span_append {p : Char → Bool} {xs ys : List Char} (hx : ∀ c ∈ xs, p c = true)
    (hy : ∀ c ∈ ys.head?, p c = false) :
    (xs ++ ys).takeWhile p = xs ∧ (xs ++ ys).dropWhile p = ys := by
  rw [List.takeWhile_append_of_pos hx, List.dropWhile_append_of_pos hx]
  cases ys with
  | nil => exact ⟨List.append_nil xs, rfl⟩
  | cons y ys =>
    have hp : p y = false := hy y rfl
    rw [List.takeWhile_cons_of_neg (by simp [hp]), List.dropWhile_cons_of_neg (by simp [hp])]
    exact ⟨List.append_nil xs, rfl⟩

namespace Parts

variable {d : Decimal} {whole point exponent : List Char}

/-- The digits before the point go up to the point. -/
theorem whole_ne_point (h : Parts d whole point exponent) : ∀ c ∈ whole, (c != '.') = true :=
  fun c hc => bne_iff_ne.2 (ne_of_isDigit (h.whole_digits c hc) rfl)

/-- What stands before the exponent goes up to its letter. -/
theorem mantissa_ne_letter (h : Parts d whole point exponent) :
    ∀ c ∈ whole ++ point, (c != 'e') = true := by
  intro c hc
  rcases List.mem_append.1 hc with hc | hc
  · exact bne_iff_ne.2 (ne_of_isDigit (h.whole_digits c hc) rfl)
  · rcases h.point_digits with rfl | ⟨fraction, rfl, hf⟩
    · exact absurd hc List.not_mem_nil
    · rcases List.mem_cons.1 hc with rfl | hc
      · rfl
      · exact bne_iff_ne.2 (ne_of_isDigit (hf c hc) rfl)

theorem letter_of_head (h : Parts d whole point exponent) :
    ∀ c ∈ exponent.head?, (c != 'e') = false := by
  intro c hc
  rcases h.exponent_digits with rfl | ⟨sign, digits, rfl, _⟩
  · cases hc
  · rw [← Option.some.inj hc]
    rfl

theorem point_of_head (h : Parts d whole point exponent) :
    ∀ c ∈ point.head?, (c != '.') = false := by
  intro c hc
  rcases h.point_digits with rfl | ⟨fraction, rfl, _⟩
  · cases hc
  · rw [← Option.some.inj hc]
    rfl

/-- Without the point, the digits after it are left. -/
theorem filter_point (h : Parts d whole point exponent) :
    point.filter (· != '.') = point.drop 1 := by
  rcases h.point_digits with rfl | ⟨fraction, rfl, hf⟩
  · rfl
  · rw [List.filter_cons_of_neg (by simp), List.drop_succ_cons, List.drop_zero]
    exact List.filter_eq_self.2 fun c hc => bne_iff_ne.2 (ne_of_isDigit (hf c hc) rfl)

end Parts

/-- The text of a magnitude reads as its digits and its power of ten. -/
theorem ofText_magnitudeText (d : Decimal) :
    ofText d.magnitudeText.toList = (d.digits, d.exponent) := by
  obtain ⟨whole, point, exponent, h⟩ := exists_parts d
  obtain ⟨k, hdigits, hpower⟩ := h.value
  have hexponent := span_append h.mantissa_ne_letter h.letter_of_head
  have hpoint := span_append h.whole_ne_point h.point_of_head
  rw [h.text, ofText]
  simp only [hexponent.1, hexponent.2, hpoint.2, List.filter_append, h.filter_point,
    List.filter_eq_self.2 h.whole_ne_point]
  -- The zeros that fill up places are dropped again.
  rw [hdigits, hpower, stripZeros_mul_pow d.canonical]

/-- A magnitude begins with a digit. -/
theorem exists_digit_magnitudeText (d : Decimal) :
    ∃ c cs, d.magnitudeText.toList = c :: cs ∧ c.isDigit = true := by
  obtain ⟨whole, point, exponent, h⟩ := exists_parts d
  obtain ⟨c, cs, rfl⟩ := List.exists_cons_of_ne_nil h.ne_nil
  exact ⟨c, cs ++ point ++ exponent, h.text, h.whole_digits c List.mem_cons_self⟩

/-- Something in a magnitude is no digit. -/
theorem exists_not_isDigit_magnitudeText (d : Decimal) :
    ∃ c ∈ d.magnitudeText.toList, c.isDigit = false := by
  obtain ⟨whole, point, exponent, h⟩ := exists_parts d
  rw [h.text]
  rcases h.not_integer with hp | he
  · rcases h.point_digits with rfl | ⟨fraction, rfl, _⟩
    · exact absurd rfl hp
    · exact ⟨'.', by simp, rfl⟩
  · rcases h.exponent_digits with rfl | ⟨sign, digits, rfl, _⟩
    · exact absurd rfl he
    · exact ⟨'e', by simp, rfl⟩

end Decimal

/-! ### Texts of numbers -/

/-- The characters of the texts of numbers. -/
def isNumeric (c : Char) : Bool := c.isDigit || c == '.' || c == 'e' || c == '+' || c == '-'

theorem isNumeric_of_isDigit {c : Char} (h : c.isDigit = true) : isNumeric c = true := by
  simp [isNumeric, h]

namespace Decimal

theorem isNumeric_of_mem_magnitudeText {d : Decimal} :
    ∀ c ∈ d.magnitudeText.toList, isNumeric c = true := by
  obtain ⟨whole, point, exponent, h⟩ := exists_parts d
  intro c hc
  rw [h.text] at hc
  rcases List.mem_append.1 hc with hc | hc
  · rcases List.mem_append.1 hc with hc | hc
    · exact isNumeric_of_isDigit (h.whole_digits c hc)
    · rcases h.point_digits with rfl | ⟨fraction, rfl, hf⟩
      · exact absurd hc List.not_mem_nil
      rcases List.mem_cons.1 hc with rfl | hc
      · rfl
      · exact isNumeric_of_isDigit (hf c hc)
  · rcases h.exponent_digits with rfl | ⟨sign, digits, rfl, hs, hd⟩
    · exact absurd hc List.not_mem_nil
    rcases List.mem_cons.1 hc with rfl | hc
    · rfl
    rcases List.mem_cons.1 hc with rfl | hc
    · rcases hs with rfl | rfl <;> rfl
    · exact isNumeric_of_isDigit (hd c hc)

/-- The characters of a decimal: those of its magnitude, after the sign if it has one. -/
theorem toList_text (d : Decimal) :
    d.text.toList = (if d.negative then ['-'] else []) ++ d.magnitudeText.toList := by
  rw [text]
  split
  · rw [String.toList_append]
    rfl
  · rfl

/-- A decimal is determined by its text. -/
theorem text_inj {a b : Decimal} (h : a.text = b.text) : a = b := by
  have hsign : a.negative = b.negative ∧ a.magnitudeText.toList = b.magnitudeText.toList := by
    have h := congrArg String.toList h
    obtain ⟨c, cs, hc, hdc⟩ := exists_digit_magnitudeText a
    obtain ⟨e, es, he, hde⟩ := exists_digit_magnitudeText b
    rw [toList_text, toList_text] at h
    cases ha : a.negative <;> cases hb : b.negative
    · simpa [ha, hb] using h
    · rw [ha, hb, hc] at h
      exact absurd (List.cons.inj h).1 (ne_of_isDigit hdc rfl)
    · rw [ha, hb, he] at h
      exact absurd (List.cons.inj h).1.symm (ne_of_isDigit hde rfl)
    · simpa [ha, hb] using h
  have hread := ofText_magnitudeText a
  rw [hsign.2, ofText_magnitudeText b] at hread
  obtain ⟨na, da, ea, _⟩ := a
  obtain ⟨nb, db, eb, _⟩ := b
  obtain ⟨hdigits, hexponent⟩ := Prod.mk.inj hread
  obtain rfl : na = nb := hsign.1
  obtain rfl : db = da := hdigits
  obtain rfl : eb = ea := hexponent
  rfl

end Decimal

namespace Number

theorem toList_repr_int (n : Int) :
    n.repr.toList = (if 0 ≤ n then [] else ['-']) ++ n.natAbs.repr.toList := by
  rw [Int.repr_eq_if]
  split
  · rw [show n.toNat = n.natAbs by omega]
    rfl
  · rw [String.toList_append, show (-n).toNat = n.natAbs by omega]
    rfl

theorem isNumeric_of_mem_text {n : Number} : ∀ c ∈ n.text.toList, isNumeric c = true := by
  intro c hc
  cases n with
  | integer n =>
    rw [text, Int.toString_eq_repr, toList_repr_int] at hc
    rcases List.mem_append.1 hc with hc | hc
    · split at hc
      · exact absurd hc List.not_mem_nil
      · rw [List.mem_singleton.1 hc]
        rfl
    · exact isNumeric_of_isDigit (Decimal.isDigit_of_mem_repr c hc)
  | real d =>
    rw [text, Decimal.toList_text] at hc
    rcases List.mem_append.1 hc with hc | hc
    · split at hc
      · rw [List.mem_singleton.1 hc]
        rfl
      · exact absurd hc List.not_mem_nil
    · exact Decimal.isNumeric_of_mem_magnitudeText c hc

theorem toList_text_ne_nil (n : Number) : n.text.toList ≠ [] := by
  cases n with
  | integer n =>
    rw [text, Int.toString_eq_repr, toList_repr_int]
    exact fun h => Decimal.digits_ne_nil (List.append_eq_nil_iff.1 h).2
  | real d =>
    obtain ⟨c, cs, hc, _⟩ := d.exists_digit_magnitudeText
    rw [text, Decimal.toList_text, hc]
    exact List.append_ne_nil_of_right_ne_nil _ (List.cons_ne_nil c cs)

/-- An integer is not written as a decimal is: but for the sign, it has nothing but digits. -/
theorem text_integer_ne_text_real {n : Int} {d : Decimal} :
    (integer n).text ≠ (real d).text := by
  intro h
  have h := congrArg String.toList h
  rw [text, text, Int.toString_eq_repr, toList_repr_int, Decimal.toList_text] at h
  obtain ⟨c, cs, hc, hdigit⟩ := d.exists_digit_magnitudeText
  obtain ⟨e, he, hnot⟩ := d.exists_not_isDigit_magnitudeText
  have hdigits := Decimal.isDigit_of_mem_repr (n := n.natAbs)
  -- Both have the sign or neither has, as digits come first otherwise.
  have hmem : e ∈ n.natAbs.repr.toList := by
    obtain ⟨b, bs, hb⟩ := List.exists_cons_of_ne_nil (Decimal.digits_ne_nil (n := n.natAbs))
    have hbd : b.isDigit = true := hdigits b (hb ▸ List.mem_cons_self)
    by_cases hn : 0 ≤ n <;> by_cases hd : d.negative = true
    · rw [if_pos hn, if_pos hd, hb] at h
      exact absurd (List.cons.inj h).1 (Decimal.ne_of_isDigit hbd rfl)
    · rw [if_pos hn, if_neg hd, List.nil_append, List.nil_append] at h
      rwa [h]
    · rw [if_neg hn, if_pos hd] at h
      rwa [List.append_cancel_left h]
    · rw [if_neg hn, if_neg hd, hc] at h
      exact absurd (List.cons.inj h).1.symm (Decimal.ne_of_isDigit hdigit rfl)
  rw [hdigits e hmem] at hnot
  cases hnot

/-- A number is determined by its text. -/
theorem text_inj {m n : Number} (h : m.text = n.text) : m = n := by
  cases m with
  | integer m =>
    cases n with
    | integer n =>
      rw [text, text, Int.toString_eq_repr, Int.toString_eq_repr, Int.repr_inj] at h
      rw [h]
    | real e => exact absurd h text_integer_ne_text_real
  | real d =>
    cases n with
    | integer n => exact absurd h.symm text_integer_ne_text_real
    | real e => rw [Decimal.text_inj h]

end Number

end Authorization
