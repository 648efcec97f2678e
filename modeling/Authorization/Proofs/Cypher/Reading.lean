import Authorization.Json.Value

/-!
# Reading graph queries

What the text of a `WHERE` clause on graphs says, as a database reads it, as far
as tests of nodes go:

* the text is cut into tokens: words, references to parameters, and signs
  (`tokens?`);
* each reference is the value that was supplied for it, in the order of the text,
  and none is left over (`fill`);
* `OR` joins what `AND` joins, and parentheses what stands between them; a test is
  decided, compares two terms, looks for one in a list, or asks whether a list has
  an item, or the graph a path, of which a test is true (`Expr.read?`).

Words are names of variables, properties, labels and types, and keywords. What
they may consist of is laid down for ASCII; an `Alphabet` says which other
characters are letters.
-/

namespace Authorization.Cypher

/-! ### Values -/

/-- A value by itself. -/
inductive Scalar
  | boolean (b : Bool)
  | integer (n : Int)
  /-- A double-precision number, as its shortest decimal. -/
  | real (d : Decimal)
  | text (s : String)
  deriving DecidableEq

/-- What a property or a parameter has: no value, one, or a list of some. -/
inductive Datum
  | null
  | one (v : Scalar)
  | list (vs : List Scalar)
  deriving DecidableEq

/-- The document value that is a value by itself. -/
def Scalar.ofJson? : Json → Option Scalar
  | .bool b => some (.boolean b)
  | .number (.integer n) => some (.integer n)
  | .number (.real d) => some (.real d)
  | .string s => some (.text s)
  | .null | .array _ | .object _ => none

/-- The document value that a parameter may have. -/
def Datum.ofJson? : Json → Option Datum
  | .null => some .null
  | .array items => (items.mapM Scalar.ofJson?).map .list
  | v => (Scalar.ofJson? v).map .one

/-! ### Tokens -/

/-- A token of a query. -/
inductive Token
  /-- A name or a keyword. -/
  | word (s : String)
  /-- A reference to the parameter of a name. -/
  | reference (name : String)
  /-- A character by itself. -/
  | symbol (c : Char)
  /-- What a parameter has. -/
  | value (d : Datum)
  deriving DecidableEq

/-- Which characters beyond ASCII are letters, and which others may follow letters. -/
structure Alphabet where
  /-- Letters. -/
  letter : Char → Bool
  /-- Characters that may follow letters in a name. -/
  follows : Char → Bool

namespace Alphabet

variable (a : Alphabet)

/-- Whether a word may start with the character. -/
def starts (c : Char) : Bool := if c.toNat < 128 then c.isAlpha || c == '_' else a.letter c

/-- Whether a word may go on with the character. -/
def continues (c : Char) : Bool :=
  if c.toNat < 128 then c.isAlphanum || c == '_' else a.letter c || a.follows c

/-- Whether a text is a word. -/
def isName (s : String) : Bool :=
  match s.toList with
  | [] => false
  | c :: cs => a.starts c && cs.all a.continues

end Alphabet

/-- What was begun and is not yet at its end. -/
inductive Pending
  /-- Nothing. -/
  | nothing
  /-- A word. -/
  | word (cs : List Char)
  /-- A reference, after its sign. -/
  | reference (cs : List Char)
  deriving DecidableEq

/-- The characters that are tokens by themselves. -/
def symbols : List Char := ['(', ')', '[', ']', '\x7b', '\x7d', '<', '>', '-', ':', '.', '=']

section Cutting

variable (a : Alphabet)

/-- What a character begins. -/
def begin? (c : Char) : Option (List Token × Pending) :=
  if c = ' ' then some ([], .nothing)
  else if c = '$' then some ([], .reference [])
  else if a.starts c then some ([], .word [c])
  else if symbols.contains c then some ([.symbol c], .nothing)
  else none

/-- The token that is pending, where it ends; a reference has to have a name. -/
def finish? : Pending → Option (List Token)
  | .nothing => some []
  | .word cs => some [.word (.ofList cs)]
  | .reference [] => none
  | .reference (c :: cs) => some [.reference (.ofList (c :: cs))]

/-- The tokens that end with a character, and what is pending after it. -/
def step? (p : Pending) (c : Char) : Option (List Token × Pending) :=
  match p, a.continues c with
  | .word cs, true => some ([], .word (cs ++ [c]))
  | .reference cs, true => some ([], .reference (cs ++ [c]))
  | p, _ => (finish? p).bind fun ts => (begin? a c).map fun next => (ts ++ next.1, next.2)

/-- The tokens that end in a text, and what is pending after it. -/
def steps? : Pending → List Char → Option (List Token × Pending)
  | p, [] => some ([], p)
  | p, c :: cs =>
    (step? a p c).bind fun next => (steps? next.2 cs).map fun last => (next.1 ++ last.1, last.2)

/-- The tokens of a text. -/
def tokens? (text : List Char) : Option (List Token) :=
  (steps? a .nothing text).bind fun last => (finish? last.2).map fun ts => last.1 ++ ts

end Cutting

/-- The tokens with each reference replaced by the next of the values supplied. All of them have
    to be used. -/
def fill : List Token → List Json → Option (List Token)
  | [], [] => some []
  | [], _ :: _ => none
  | .reference _ :: _, [] => none
  | .reference _ :: ts, v :: vs =>
    (Datum.ofJson? v).bind fun d => (fill ts vs).map (.value d :: ·)
  | t :: ts, vs => (fill ts vs).map (t :: ·)

/-! ### Expressions -/

/-- What is compared. -/
inductive Term
  /-- A property of the node that a variable stands for. -/
  | property (owner key : String)
  /-- The item that a variable stands for. -/
  | item (name : String)
  /-- A value. -/
  | value (d : Datum)
  deriving DecidableEq

/-- A node in a path. -/
structure NodePattern where
  /-- The variable that stands for it. -/
  name : Option String
  /-- A label that it has. -/
  label : Option String
  /-- A property that it has, and with what value. -/
  property : Option (String × Datum)
  deriving DecidableEq

/-- Which way a relationship goes, from the node written before it to the one after. -/
inductive Direction
  | backward
  | forward
  deriving DecidableEq

/-- A relationship in a path. -/
structure Link where
  /-- Its direction. -/
  direction : Direction
  /-- Its type. -/
  kind : String
  deriving DecidableEq

/-- A path: a node, and relationships each with the next node. -/
structure Path where
  /-- The node that it starts with. -/
  first : NodePattern
  /-- The relationships, and the nodes after them. -/
  rest : List (Link × NodePattern)
  deriving DecidableEq

/-- A test of nodes. -/
inductive Expr
  /-- One that is decided. -/
  | constant (holds : Bool)
  /-- Both are the same. -/
  | equals (x y : Term)
  /-- The value is in the list. -/
  | isIn (x list : Term)
  /-- The list has an item of which the test is true; the item goes by the variable. -/
  | hasItem (name : String) (list : Term) (test : Expr)
  /-- The graph has such a path, of which the test is true. -/
  | hasPath (path : Path) (test : Expr)
  /-- Both tests. -/
  | and (e f : Expr)
  /-- One of the tests. -/
  | or (e f : Expr)
  deriving DecidableEq

/-- A term, and what follows it. -/
def term? : List Token → Option (Term × List Token)
  | .value d :: rest => some (.value d, rest)
  | .word w :: .symbol '.' :: .word key :: rest => some (.property w key, rest)
  | .word w :: rest => some (.item w, rest)
  | _ => none

/-- The tokens after the one given, if it comes first. -/
def after? (t : Token) : List Token → Option (List Token)
  | [] => none
  | u :: us => if u = t then some us else none

/-- A comparison, and what follows it. -/
def comparison? (ts : List Token) : Option (Expr × List Token) :=
  (term? ts).bind fun found =>
    match after? (.symbol '=') found.2 with
    | some rest => (term? rest).map fun other => (.equals found.1 other.1, other.2)
    | none =>
      ((after? (.word "IN") found.2).bind term?).map fun list => (.isIn found.1 list.1, list.2)

/-! ### Paths -/

/-- A variable, if there is one, and what follows. -/
def name? : List Token → Option String × List Token
  | .word w :: rest => (some w, rest)
  | ts => (none, ts)

/-- A label, if there is one, and what follows. -/
def label? : List Token → Option String × List Token
  | .symbol ':' :: .word w :: rest => (some w, rest)
  | ts => (none, ts)

/-- A property with its value, if there is one, and what follows. -/
def property? : List Token → Option (String × Datum) × List Token
  | .symbol '\x7b' :: .word key :: .symbol ':' :: .value d :: .symbol '\x7d' :: rest =>
    (some (key, d), rest)
  | ts => (none, ts)

/-- A node in a path, and what follows it. -/
def node? (ts : List Token) : Option (NodePattern × List Token) :=
  (after? (.symbol '(') ts).bind fun rest =>
    let name := name? rest
    let label := label? name.2
    let property := property? label.2
    (after? (.symbol ')') property.2).map fun rest => (⟨name.1, label.1, property.1⟩, rest)

/-- A relationship in a path, and what follows it. -/
def link? : List Token → Option (Link × List Token)
  | .symbol '<' :: .symbol '-' :: .symbol '[' :: .symbol ':' :: .word kind :: .symbol ']' ::
      .symbol '-' :: rest => some (⟨.backward, kind⟩, rest)
  | .symbol '-' :: .symbol '[' :: .symbol ':' :: .word kind :: .symbol ']' :: .symbol '-' ::
      .symbol '>' :: rest => some (⟨.forward, kind⟩, rest)
  | _ => none

/-- Relationships each with the next node, at most `n`, and what follows them. -/
def links? : Nat → List Token → Option (List (Link × NodePattern) × List Token)
  | 0, ts => some ([], ts)
  | n + 1, ts =>
    match link? ts with
    | none => some ([], ts)
    | some (link, rest) =>
      (node? rest).bind fun next =>
        (links? n next.2).map fun others => ((link, next.1) :: others.1, others.2)

/-- A path, and what follows it. -/
def path? (ts : List Token) : Option (Path × List Token) :=
  (node? ts).bind fun first =>
    (links? first.2.length first.2).map fun others => (⟨first.1, others.1⟩, others.2)

/-! ### Tests -/

/-- What was read, if the token follows, and what follows that. -/
def closed? (t : Token) (found : Expr × List Token) : Option (Expr × List Token) :=
  (after? t found.2).map fun rest => (found.1, rest)

/-- At most `n` tests joined by an operator, and what follows them. -/
def joined? (test : List Token → Option (Expr × List Token)) (operator : String)
    (join : Expr → Expr → Expr) : Nat → List Token → Option (Expr × List Token)
  | 0, _ => none
  | n + 1, ts =>
    (test ts).bind fun found =>
      match after? (.word operator) found.2 with
      | some rest => (joined? test operator join n rest).map fun others =>
          (join found.1 others.1, others.2)
      | none => some found

/-- Tests joined by `OR` and `AND`, at most `n` by each, and what follows them. -/
def alternatives? (test : List Token → Option (Expr × List Token)) (n : Nat) :
    List Token → Option (Expr × List Token) := joined? (joined? test "AND" .and n) "OR" .or n

/-- A test that is decided, and what follows it. -/
def constant? (ts : List Token) : Option (Expr × List Token) :=
  match after? (.word "true") ts with
  | some rest => some (.constant true, rest)
  | none => (after? (.word "false") ts).map fun rest => (.constant false, rest)

/-- The variable for the items of a list, if items are asked for, and what follows it. -/
def itemStart? : List Token → Option (String × List Token)
  | .word quantifier :: .symbol '(' :: .word name :: rest =>
    if quantifier = "any" then (after? (.word "IN") rest).map fun rest => (name, rest) else none
  | _ => none

/-- What follows the beginning of a subquery. -/
def subquery? : List Token → Option (List Token)
  | .word operator :: .symbol '{' :: rest =>
    if operator = "EXISTS" then after? (.word "MATCH") rest else none
  | _ => none

/-- One test, and what follows it; `depth` bounds the tests inside each other and after each
    other. -/
def test? : Nat → List Token → Option (Expr × List Token)
  | 0, _ => none
  | depth + 1, ts =>
    match constant? ts with
    | some found => some found
    | none =>
      match after? (.symbol '(') ts with
      | some rest => (alternatives? (test? depth) depth rest).bind (closed? (.symbol ')'))
      | none =>
        match itemStart? ts with
        | some item =>
          (term? item.2).bind fun list =>
            ((((after? (.word "WHERE") list.2).bind (alternatives? (test? depth) depth)).bind
              (closed? (.symbol ')'))).map fun found => (.hasItem item.1 list.1 found.1, found.2))
        | none =>
          match subquery? ts with
          | some rest =>
            (path? rest).bind fun path =>
              match after? (.word "WHERE") path.2 with
              | some rest =>
                ((alternatives? (test? depth) depth rest).bind (closed? (.symbol '}'))).map
                  fun found => (.hasPath path.1 found.1, found.2)
              | none => closed? (.symbol '}') (.hasPath path.1 (.constant true), path.2)
          | none => comparison? ts

/-- The expression that a text says, with the values supplied for its references. -/
def Expr.read? (a : Alphabet) (text : String) (supplied : List Json) : Option Expr := do
  let ts ← fill (← tokens? a text.toList) supplied
  match ← alternatives? (test? (ts.length + 1)) (ts.length + 1) ts with
  | (e, []) => some e
  | _ => none

end Authorization.Cypher
