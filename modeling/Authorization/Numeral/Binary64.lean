import Authorization.Numeral.Decimal

/-!
# Double precision

Numbers with a point or an exponent are double-precision numbers: a fraction
is rounded to 53 significant binary digits, a tie going to the even neighbour
(`Binary64.nearest`). Only the magnitude is kept here; signs do not round.

A double is shown as a decimal: the shortest one that reads back as the same
double, and of those the nearest (`Binary64.toDecimal`). All arithmetic is
exact, on natural numbers.
-/

namespace Authorization

/-- The quotient of two natural numbers, rounded to the nearest one; a tie goes
    to the even neighbour. -/
def roundQuotient (n d : Nat) : Nat :=
  let q := n / d
  let r := n % d
  if 2 * r < d ∨ (2 * r = d ∧ q % 2 = 0) then q else q + 1

/-- The finite double-precision magnitude `significand · 2 ^ exponent`. -/
structure Binary64 where
  /-- At most 53 binary digits; exactly 53 unless the exponent is the least. -/
  significand : Nat
  /-- Between -1074 and 971. -/
  exponent : Int
  deriving DecidableEq, Repr

namespace Binary64

/-- Zero. -/
def zero : Binary64 := ⟨0, -1074⟩

/-- The numerator of the exact value. -/
def numerator (x : Binary64) : Nat := x.significand * Nat.pow 2 x.exponent.toNat

/-- The denominator of the exact value. -/
def denominator (x : Binary64) : Nat := Nat.pow 2 (-x.exponent).toNat

/-- `n / d` divided by `2 ^ e` and rounded. -/
def scaledQuotient (n d : Nat) (e : Int) : Nat :=
  roundQuotient (n * Nat.pow 2 (-e).toNat) (d * Nat.pow 2 e.toNat)

/-- The exponent that leaves 53 binary digits of `n / d` before the point, or
    the least one. -/
def exponentFor (n d : Nat) : Int :=
  let e : Int := (n.log2 : Int) - d.log2 - 52
  let e := if n * Nat.pow 2 (-e).toNat < d * Nat.pow 2 (e.toNat + 52) then e - 1 else e
  max e (-1074)

/-- The double nearest to `n / d`, if it is not too large to be one. -/
def nearest (n d : Nat) : Option Binary64 :=
  if n = 0 then some zero
  else
    let e := exponentFor n d
    let m := scaledQuotient n d e
    let x : Binary64 := if m = Nat.pow 2 53 then ⟨Nat.pow 2 52, e + 1⟩ else ⟨m, e⟩
    if x.exponent ≤ 971 then some x else none

/-- The double nearest to a natural number. -/
def ofNat (n : Nat) : Option Binary64 := nearest n 1

/-- The rounded product. -/
def mul (x y : Binary64) : Option Binary64 :=
  nearest (x.numerator * y.numerator) (x.denominator * y.denominator)

/-- The rounded quotient. -/
def div (x y : Binary64) : Option Binary64 :=
  nearest (x.numerator * y.denominator) (x.denominator * y.numerator)

/-! ### Scaling by powers of ten -/

/-- `10 ^ n` as a double. -/
def tenPow (n : Nat) : Option Binary64 := ofNat (Nat.pow 10 n)

/-- The double `x` times `10 ^ e`, in steps of at most `10 ^ 308`, each rounded. A
    number that is too large has no double; one that is too small is zero. -/
def scaleTen (x : Binary64) (e : Int) : Option Binary64 :=
  if e.natAbs ≤ 308 then
    (tenPow e.natAbs).bind fun p => if 0 ≤ e then x.mul p else x.div p
  else if x.significand = 0 then some x
  else if 0 ≤ e then none
  else (tenPow 308).bind fun p => (x.div p).bind fun y => scaleTen y (e + 308)
termination_by e.natAbs
decreasing_by omega

/-! ### The shortest decimal -/

/-- `c · 10 ^ j` as a numerator and a denominator. -/
def gridPoint (c : Nat) (j : Int) : Nat × Nat := (c * Nat.pow 10 j.toNat, Nat.pow 10 (-j).toNat)

/-- Whether `c · 10 ^ j` reads as `x`. -/
def readsAs (x : Binary64) (j : Int) (c : Nat) : Bool :=
  nearest (gridPoint c j).1 (gridPoint c j).2 == some x

/-- The multiple of `10 ^ j` that reads as `x` and is nearest to it. Only the two
    neighbours of `x` are candidates; from the middle between them the even one
    is taken. -/
def onGrid? (x : Binary64) (j : Int) : Option Nat :=
  let n := x.numerator * Nat.pow 10 (-j).toNat
  let d := x.denominator * Nat.pow 10 j.toNat
  let near := roundQuotient n d
  let far := if near = n / d then near + 1 else near - 1
  if x.readsAs j near then some near
  else if x.readsAs j far then some far
  else none

/-- The coarsest grid point that reads as `x`, from the grid of `10 ^ j` downwards. -/
def coarsest (x : Binary64) : Nat → Int → Option (Nat × Int)
  | 0, _ => none
  | steps + 1, j =>
    match x.onGrid? j with
    | some c => some (c, j)
    | none => coarsest x steps (j - 1)

/-- A power of ten above `x`. -/
def tenPowAbove (x : Binary64) : Int :=
  ((x.numerator.log2 : Int) - x.denominator.log2 + 1) * 30103 / 100000 + 1

/-- The shortest decimal that reads as `x`, with the given sign. Seventeen digits
    are always enough, so the search ends within twenty steps. -/
def toDecimal (negative : Bool) (x : Binary64) : Decimal :=
  if x.significand = 0 then .ofDigits negative 0 0
  else
    match x.coarsest 20 x.tenPowAbove with
    | some (c, j) => .ofDigits negative c j
    | none => .ofDigits negative x.numerator 0

end Binary64

end Authorization
