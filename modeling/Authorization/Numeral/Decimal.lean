/-!
# Decimal numbers

A number that is not an integer is kept as the decimal it is written as: a
sign, digits and a power of ten. Digits that end in zeros say the same with a
larger power, so they are not allowed, and zero has the power `0`: a decimal
has one form (up to the sign of zero, which is written too).

The text of a decimal (`Decimal.text`) always shows that it is not an integer:
it has a point, or an exponent.
-/

namespace Authorization

/-- The decimal number `± digits · 10 ^ exponent`. -/
structure Decimal where
  /-- Whether the number is written with a minus sign. -/
  negative : Bool
  /-- The digits, read as a natural number. -/
  digits : Nat
  /-- The power of ten of the last digit. -/
  exponent : Int
  /-- The last digit is not zero, unless the number is. -/
  canonical : digits % 10 ≠ 0 ∨ digits = 0 ∧ exponent = 0
  deriving DecidableEq

namespace Decimal

/-- Digits and exponent with the trailing zeros moved into the exponent. -/
def stripZeros (digits : Nat) (exponent : Int) : Nat × Int :=
  if digits = 0 then (0, 0)
  else if digits % 10 = 0 then stripZeros (digits / 10) (exponent + 1)
  else (digits, exponent)
termination_by digits
decreasing_by omega

theorem stripZeros_canonical (digits : Nat) (exponent : Int) :
    (stripZeros digits exponent).1 % 10 ≠ 0 ∨
      (stripZeros digits exponent).1 = 0 ∧ (stripZeros digits exponent).2 = 0 := by
  fun_induction stripZeros digits exponent with
  | case1 => exact .inr ⟨rfl, rfl⟩
  | case2 _ _ _ _ ih => exact ih
  | case3 _ _ _ h => exact .inl h

/-- The decimal number of any digits and exponent. -/
def ofDigits (negative : Bool) (digits : Nat) (exponent : Int) : Decimal where
  negative
  digits := (stripZeros digits exponent).1
  exponent := (stripZeros digits exponent).2
  canonical := stripZeros_canonical digits exponent

/-- Whether two decimals are the same number: zero has two signs. -/
def same (a b : Decimal) : Bool :=
  a.digits == b.digits && a.exponent == b.exponent &&
    (a.negative == b.negative || a.digits == 0)

/-! ### Text -/

/-- A text of `n` zeros. -/
def zeros (n : Nat) : String := String.ofList (List.replicate n '0')

/-- The digits `ds` with a point after the first `n` of them. -/
def pointAfter (n : Nat) (ds : List Char) : String :=
  String.ofList (ds.take n) ++ "." ++ String.ofList (ds.drop n)

/-- The text of the number without its sign. The point is written where it
    falls when that is at most 16 places after the first digit or 4 zeros
    before it; otherwise it follows the first digit, and an exponent with its sign
    says where it belongs. -/
def magnitudeText (d : Decimal) : String :=
  let ds := (Nat.repr d.digits).toList
  let point : Int := ds.length + d.exponent
  if 0 ≤ d.exponent ∧ point ≤ 16 then
    String.ofList ds ++ zeros d.exponent.toNat ++ ".0"
  else if 0 < point ∧ point ≤ 16 then
    pointAfter point.toNat ds
  else if -5 < point ∧ point ≤ 0 then
    "0." ++ zeros (-point).toNat ++ String.ofList ds
  else
    (if ds.length = 1 then String.ofList ds else pointAfter 1 ds) ++
      (if 0 < point then "e+" else "e") ++ toString (point - 1)

/-- The text of a decimal number. -/
def text (d : Decimal) : String :=
  if d.negative then "-" ++ d.magnitudeText else d.magnitudeText

end Decimal

end Authorization
