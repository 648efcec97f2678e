/-!
# Universally unique identifiers

Users are known by 128-bit identifiers. One has a single text (`Uuid.text`): 32
hexadecimal digits in lower case, in groups of 8, 4, 4, 4 and 12 with a hyphen
between. It is read in either case, also without hyphens, in braces, or as a
resource name, which itself can be in either case (`Uuid.parse?`).
-/

namespace Authorization

/-- A universally unique identifier. -/
structure Uuid where
  /-- Its 128 bits. -/
  bits : BitVec 128
  deriving DecidableEq, Repr

namespace Uuid

/-- The 32 hexadecimal digits, in lower case. -/
def digits (u : Uuid) : List Char :=
  (List.range 32).map fun i => Nat.digitChar (u.bits.toNat / Nat.pow 16 (31 - i) % 16)

@[simp] theorem length_digits {u : Uuid} : u.digits.length = 32 := by simp [digits]

/-- Characters in groups of the given sizes, with hyphens between. -/
def hyphenated : List Nat → List Char → List Char
  | [], cs => cs
  | n :: ns, cs => cs.take n ++ '-' :: hyphenated ns (cs.drop n)

/-- The text of an identifier. -/
def text (u : Uuid) : String := String.ofList (hyphenated [8, 4, 4, 4] u.digits)

/-- The identifier of 128 random bits: its fourth version is of this sort, and says so in
    six of the bits. -/
def ofRandom (n : Nat) : Uuid :=
  let bits := BitVec.ofNat 128 n
  ⟨(bits &&& ~~~(0xf#128 <<< 76) &&& ~~~(0x3#128 <<< 62)) ||| 0x4#128 <<< 76 ||| 0x2#128 <<< 62⟩

/-! ### Reading -/

/-- The value of a hexadecimal digit. -/
def hexValue? (c : Char) : Option Nat :=
  if c.isDigit then some (c.toNat - '0'.toNat)
  else if 'a' ≤ c ∧ c ≤ 'f' then some (c.toNat - 'a'.toNat + 10)
  else if 'A' ≤ c ∧ c ≤ 'F' then some (c.toNat - 'A'.toNat + 10)
  else none

/-- The number that hexadecimal digits write after `n`. -/
def hexNumber? (n : Nat) : List Char → Option Nat
  | [] => some n
  | c :: cs => (hexValue? c).bind fun d => hexNumber? (n * 16 + d) cs

/-- The identifier of 32 digits. -/
def ofDigits? (cs : List Char) : Option Uuid :=
  if cs.length = 32 then (hexNumber? 0 cs).map fun n => ⟨BitVec.ofNat 128 n⟩ else none

/-- Characters in groups of the given sizes, with the hyphens between taken out. -/
def unhyphenated? : List Nat → List Char → Option (List Char)
  | [], cs => some cs
  | n :: ns, cs =>
    match cs.drop n with
    | '-' :: rest => (unhyphenated? ns rest).map fun tail => cs.take n ++ tail
    | _ => none

/-- The identifier of digits in hyphenated groups. -/
def ofGroups? (cs : List Char) : Option Uuid :=
  if cs.length = 36 then (unhyphenated? [8, 4, 4, 4] cs).bind ofDigits? else none

/-- What a resource name says before the identifier. -/
def resourceNameStart : List Char := "urn:uuid:".toList

/-- What follows a beginning in lower case, which can be written in either case. -/
def after? : List Char → List Char → Option (List Char)
  | [], cs => some cs
  | p :: ps, c :: cs => if c.toLower = p then after? ps cs else none
  | _ :: _, [] => none

/-- The identifier that a text writes, if it writes one. -/
def parse? (s : String) : Option Uuid :=
  match s.toList with
  | '\x7b' :: cs => if cs.getLast? = some '\x7d' then ofGroups? cs.dropLast else none
  | cs =>
    match after? resourceNameStart cs with
    | some rest => ofGroups? rest
    | none => if cs.length = 32 then ofDigits? cs else ofGroups? cs

end Uuid

end Authorization
