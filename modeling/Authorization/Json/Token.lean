import Authorization.Json.Number

/-!
# Tokens of a document

The text of a document is cut into tokens: brackets, commas, colons, the three
words, numbers and texts. Blanks between tokens are spaces, tabs and line
ends; nothing else may stand between them.

Each token is read off the front of the characters, and what is left is
shorter, so cutting ends (`tokens?`).
-/

namespace Authorization.Json

/-- A token of a document. -/
inductive Token
  | openArray
  | closeArray
  | openObject
  | closeObject
  | comma
  | colon
  | null
  | bool (b : Bool)
  | number (n : Number)
  | text (s : String)

/-- Blanks are spaces, tabs and line ends. -/
def isBlank (c : Char) : Bool := c == ' ' || c == '\t' || c == '\n' || c == '\r'

/-- The value of a decimal digit. -/
def digit? (c : Char) : Option Nat := if c.isDigit then some (c.toNat - '0'.toNat) else none

/-- The value of a hexadecimal digit. -/
def hexValue? (c : Char) : Option Nat :=
  if c.isDigit then some (c.toNat - '0'.toNat)
  else if 'a' ≤ c ∧ c ≤ 'f' then some (c.toNat - 'a'.toNat + 10)
  else if 'A' ≤ c ∧ c ≤ 'F' then some (c.toNat - 'A'.toNat + 10)
  else none

/-- The value of four hexadecimal digits. -/
def hexQuad? (a b c d : Char) : Option Nat := do
  return (((← hexValue? a) * 16 + (← hexValue? b)) * 16 + (← hexValue? c)) * 16 + (← hexValue? d)

/-- The character of a scalar value; a surrogate has none. -/
def scalar? (n : Nat) : Option Char := if n.isValidChar then some (Char.ofNat n) else none

/-- The character that an escape letter stands for. -/
def escapeLetter? : Char → Option Char
  | '"' => some '"'
  | '\\' => some '\\'
  | '/' => some '/'
  | 'b' => some '\x08'
  | 'f' => some '\x0c'
  | 'n' => some '\n'
  | 'r' => some '\r'
  | 't' => some '\t'
  | _ => none

/-- The characters of a text up to its closing quote, and what follows that. A
    character beyond 16 bits may be escaped as two surrogates. -/
def textBody? (read : List Char) : List Char → Option (String × List Char)
  | '"' :: cs => some (String.ofList read.reverse, cs)
  | '\\' :: 'u' :: a :: b :: c :: d :: cs =>
    match hexQuad? a b c d with
    | none => none
    | some n =>
      if 0xD800 ≤ n ∧ n < 0xDC00 then
        match cs with
        | '\\' :: 'u' :: a' :: b' :: c' :: d' :: cs' =>
          match hexQuad? a' b' c' d' with
          | none => none
          | some m =>
            if 0xDC00 ≤ m ∧ m < 0xE000 then
              match scalar? (0x10000 + (n - 0xD800) * 0x400 + (m - 0xDC00)) with
              | some ch => textBody? (ch :: read) cs'
              | none => none
            else none
        | _ => none
      else
        match scalar? n with
        | some ch => textBody? (ch :: read) cs
        | none => none
  | '\\' :: c :: cs =>
    match escapeLetter? c with
    | some ch => textBody? (ch :: read) cs
    | none => none
  | c :: cs => if c.toNat < 0x20 then none else textBody? (c :: read) cs
  | [] => none

/-- The digits at the front, and what follows them. -/
def digits (cs : List Char) : List Nat × List Char :=
  ((cs.takeWhile Char.isDigit).filterMap digit?, cs.dropWhile Char.isDigit)

/-- The natural number that decimal digits write. -/
def ofDecimalDigits (ds : List Nat) : Nat := ds.foldl (fun n d => n * 10 + d) 0

/-- The fraction part of a literal, if there is a point: it needs a digit. -/
def fraction? : List Char → Option (Option (List Nat) × List Char)
  | '.' :: cs =>
    match digits cs with
    | ([], _) => none
    | (ds, rest) => some (some ds, rest)
  | cs => some (none, cs)

/-- The exponent without its letter: an optional sign and at least one digit. -/
def exponentBody? (cs : List Char) : Option (Int × List Char) :=
  let (negative, cs) :=
    match cs with
    | '+' :: cs => (false, cs)
    | '-' :: cs => (true, cs)
    | cs => (false, cs)
  match digits cs with
  | ([], _) => none
  | (ds, rest) =>
    let n : Int := ofDecimalDigits ds
    some (if negative then -n else n, rest)

/-- The exponent part of a literal, if there is an exponent letter. -/
def exponent? : List Char → Option (Option Int × List Char)
  | 'e' :: cs => (exponentBody? cs).map fun (e, rest) => (some e, rest)
  | 'E' :: cs => (exponentBody? cs).map fun (e, rest) => (some e, rest)
  | cs => some (none, cs)

/-- The number at the front: no zero stands before another digit. -/
def number? (cs : List Char) : Option (Number × List Char) := do
  let (negative, cs) :=
    match cs with
    | '-' :: cs => (true, cs)
    | cs => (false, cs)
  let (whole, cs) := digits cs
  match whole with
  | [] => none
  | 0 :: _ :: _ => none
  | _ =>
    let (fraction, cs) ← fraction? cs
    let (exponent, cs) ← exponent? cs
    let n ← Number.ofLiteral? { negative, whole, fraction, exponent }
    return (n, cs)

/-- The token at the front, which is not a blank. -/
def token? : List Char → Option (Token × List Char)
  | '[' :: cs => some (.openArray, cs)
  | ']' :: cs => some (.closeArray, cs)
  | '\x7b' :: cs => some (.openObject, cs)
  | '\x7d' :: cs => some (.closeObject, cs)
  | ',' :: cs => some (.comma, cs)
  | ':' :: cs => some (.colon, cs)
  | 'n' :: 'u' :: 'l' :: 'l' :: cs => some (.null, cs)
  | 't' :: 'r' :: 'u' :: 'e' :: cs => some (.bool true, cs)
  | 'f' :: 'a' :: 'l' :: 's' :: 'e' :: cs => some (.bool false, cs)
  | '"' :: cs => (textBody? [] cs).map fun (s, rest) => (.text s, rest)
  | cs => (number? cs).map fun (n, rest) => (.number n, rest)

/-- The tokens of a text, given at least as many steps as it has characters. -/
def cut? : Nat → List Char → List Token → Option (List Token)
  | _, [], read => some read.reverse
  | 0, _ :: _, _ => none
  | steps + 1, c :: cs, read =>
    if isBlank c then cut? steps cs read
    else
      match token? (c :: cs) with
      | some (t, rest) => cut? steps rest (t :: read)
      | none => none

/-- The tokens of a text, if it has nothing else. -/
def tokens? (s : String) : Option (List Token) := cut? s.length s.toList []

end Authorization.Json
