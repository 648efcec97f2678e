import Authorization.Numeral.Binary64

/-!
# Numbers in documents

A number literal without point and exponent that fits 64 bits (signed or
unsigned) is an integer. Every other literal is a double-precision number, and
is kept as its shortest decimal (`Number.ofLiteral?`): so is `-0`, which no
integer can say. An integer is never the same number as a double.

Reading a double takes the digits that fit 64 bits, rounds them, and then
scales by the power of ten: two roundings, the second of the rounded first.
-/

namespace Authorization

/-- A number in a document. -/
inductive Number
  /-- An integer. -/
  | integer (n : Int)
  /-- A double-precision number, as its shortest decimal. -/
  | real (d : Decimal)
  deriving DecidableEq

/-- A number literal, in its parts. -/
structure Number.Literal where
  /-- Whether there is a minus sign. -/
  negative : Bool
  /-- The digits before the point. -/
  whole : List Nat
  /-- The digits after the point, if there is one. -/
  fraction : Option (List Nat)
  /-- The exponent, if there is one. -/
  exponent : Option Int

namespace Number

/-- Digits appended to `n` as long as the result fits 64 bits, and the digits
    that are left. -/
def appendDigits (n : Nat) : List Nat → Nat × List Nat
  | [] => (n, [])
  | d :: ds => if n * 10 + d < Nat.pow 2 64 then appendDigits (n * 10 + d) ds else (n, d :: ds)

/-- The double `± n · 10 ^ e`, unless it is too large. -/
def scaled? (negative : Bool) (n : Nat) (e : Int) : Option Number :=
  ((Binary64.ofNat n).bind fun x => x.scaleTen e).map fun x => .real (x.toDecimal negative)

/-- The number that a literal writes; none if it is too large for a double. -/
def ofLiteral? (l : Literal) : Option Number :=
  let (n, left) := appendDigits 0 l.whole
  match l.fraction, l.exponent with
  | none, none =>
    if !left.isEmpty then scaled? l.negative n left.length
    else if !l.negative then some (.integer n)
    else if n = 0 ∨ Nat.pow 2 63 < n then scaled? true n 0
    else some (.integer (-n))
  | fraction, exponent =>
    let digits := fraction.getD []
    let (m, ignored) := appendDigits n digits
    let shift : Int := left.length - (digits.length - ignored.length : Nat)
    scaled? l.negative m (shift + exponent.getD 0)

/-- Whether two numbers are the same: both integers or both doubles, of the same
    value. -/
def same : Number → Number → Bool
  | .integer m, .integer n => m == n
  | .real a, .real b => a.same b
  | _, _ => false

/-- The text of a number. -/
def text : Number → String
  | .integer n => toString n
  | .real d => d.text

/-- The number as an integer of 64 bits with a sign, if it is one. -/
def toInt64? : Number → Option Int
  | .integer n => if -Nat.pow 2 63 ≤ n ∧ n < Nat.pow 2 63 then some n else none
  | .real _ => none

/-- The number as a double. -/
def toReal : Number → Decimal
  | .integer n =>
    match Binary64.ofNat n.natAbs with
    | some x => x.toDecimal (n < 0)
    | none => .ofDigits (n < 0) n.natAbs 0
  | .real d => d

end Number

end Authorization
