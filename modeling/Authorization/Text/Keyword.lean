/-!
# Keywords

Settings and actions are written as keywords: blanks around a keyword do not
count, nor does the case of its letters. Blanks are the white space of Unicode.

All keywords here consist of ASCII letters and digits. The only letter beyond
ASCII whose lower case is an ASCII letter is the Kelvin sign, so lowering these
letters alone decides whether a text is a given keyword.
-/

namespace Authorization.Text

/-- The white space characters of Unicode. -/
def isWhiteSpace (c : Char) : Bool :=
  let n := c.toNat
  (0x09 ≤ n && n ≤ 0x0d) || n == 0x20 || n == 0x85 || n == 0xa0 || n == 0x1680 ||
    (0x2000 ≤ n && n ≤ 0x200a) || n == 0x2028 || n == 0x2029 || n == 0x202f || n == 0x205f ||
    n == 0x3000

/-- The lower case of a letter, where that is an ASCII letter. -/
def lower (c : Char) : Char := if c = '\u212a' then 'k' else c.toLower

/-- The characters without the white space at both ends. -/
def trim (cs : List Char) : List Char :=
  ((cs.dropWhile isWhiteSpace).reverse.dropWhile isWhiteSpace).reverse

/-- The keyword that a text writes. -/
def keyword (s : String) : String := String.ofList ((trim s.toList).map lower)

end Authorization.Text
