import Authorization.Settings
import Authorization.Sql.Predicate

/-!
# Reading SQL

What the text of a query and the values bound in it say, as a database reads
them, as far as tests of rows go:

* the text is cut into tokens, in which a name between quotes is one, whatever
  it holds (`tokens?`);
* each question mark is the next of the bound values, and none is left over
  (`fill`);
* `OR` joins what `AND` joins, and parentheses what stands between them; a test
  compares two operands, looks for one among values, asks whether it is null, or
  whether a table has a row (`Expr.read?`).

The truth of an expression has three values. What is compared with null is
unknown, and rows are selected only where the whole is true (`Expr.truth`).
-/

namespace Authorization.Sql

/-! ### Tokens -/

/-- A token of a query. -/
inductive Token
  /-- A keyword, a name without quotes, or a number. -/
  | word (s : String)
  /-- A name between quotes. -/
  | name (s : String)
  /-- A character by itself. -/
  | symbol (c : Char)
  /-- A bound value. -/
  | value (v : Value)
  deriving DecidableEq

/-- What was begun and is not yet at its end. -/
inductive Pending
  /-- Nothing. -/
  | nothing
  /-- A word. -/
  | word (cs : List Char)
  /-- A name. -/
  | name (cs : List Char)
  /-- A name after a quote, which ends it unless another quote follows. -/
  | quoted (cs : List Char)
  deriving DecidableEq

/-- Whether words consist of the character. -/
def isWordChar (c : Char) : Bool := c.isAlphanum || c == '_'

/-- The characters that are tokens by themselves. -/
def symbols : List Char := ['(', ')', ',', '.', '=', '?']

/-- What a character begins. -/
def begin? (c : Char) : Option (List Token × Pending) :=
  if c = ' ' then some ([], .nothing)
  else if c = '"' then some ([], .name [])
  else if isWordChar c then some ([], .word [c])
  else if symbols.contains c then some ([.symbol c], .nothing)
  else none

/-- The tokens that end with a character, and what is pending after it. -/
def step? : Pending → Char → Option (List Token × Pending)
  | .nothing, c => begin? c
  | .word cs, c =>
    if isWordChar c then some ([], .word (cs ++ [c]))
    else (begin? c).map fun next => (.word (.ofList cs) :: next.1, next.2)
  | .name cs, c => if c = '"' then some ([], .quoted cs) else some ([], .name (cs ++ [c]))
  | .quoted cs, c =>
    if c = '"' then some ([], .name (cs ++ ['"']))
    else (begin? c).map fun next => (.name (.ofList cs) :: next.1, next.2)

/-- The tokens that end in a text, and what is pending after it. -/
def steps? : Pending → List Char → Option (List Token × Pending)
  | p, [] => some ([], p)
  | p, c :: cs =>
    (step? p c).bind fun next => (steps? next.2 cs).map fun last => (next.1 ++ last.1, last.2)

/-- What is pending, at the end of the text; a name has to be closed. -/
def finish? : Pending → Option (List Token)
  | .nothing => some []
  | .word cs => some [.word (.ofList cs)]
  | .name _ => none
  | .quoted cs => some [.name (.ofList cs)]

/-- The tokens of a text. -/
def tokens? (text : List Char) : Option (List Token) :=
  (steps? .nothing text).bind fun last => (finish? last.2).map fun ts => last.1 ++ ts

/-- The tokens with each question mark replaced by the next bound value. All the values have
    to be used. -/
def fill : List Token → List Value → Option (List Token)
  | [], [] => some []
  | [], _ :: _ => none
  | t :: ts, values =>
    if t = .symbol '?' then
      match values with
      | [] => none
      | v :: vs => (fill ts vs).map (.value v :: ·)
    else (fill ts values).map (t :: ·)

theorem fill_cons (t : Token) (ts : List Token) (values : List Value) :
    fill (t :: ts) values = if t = .symbol '?' then
        match values with
        | [] => none
        | v :: vs => (fill ts vs).map (.value v :: ·)
      else (fill ts values).map (t :: ·) := by
  cases values <;> rfl

/-! ### Expressions -/

/-- What is compared. -/
inductive Term
  /-- A column of a row in scope. -/
  | column (c : Column)
  /-- A value. -/
  | value (v : Value)
  deriving DecidableEq

/-- A test of rows. -/
inductive Expr
  /-- Both are the same. -/
  | equals (x y : Term)
  /-- There is no value. -/
  | isNull (x : Term)
  /-- The value is one of some. -/
  | isIn (x : Term) (values : List Value)
  /-- The table has a row of which the test is true; the row goes by the label. -/
  | hasRow (table label : String) (test : Expr)
  /-- Both tests. -/
  | and (e f : Expr)
  /-- One of the tests. -/
  | or (e f : Expr)
  deriving DecidableEq

/-- The tokens after the one given, if it comes first. -/
def skip? (t : Token) : List Token → Option (List Token)
  | [] => none
  | u :: us => if u = t then some us else none

/-- The tokens after the ones given, if these come first. -/
def skipAll? : List Token → List Token → Option (List Token)
  | [], us => some us
  | t :: ts, us => (skip? t us).bind (skipAll? ts)

/-- A value or a column, and what follows it. -/
def operand? : List Token → Option (Term × List Token)
  | .value v :: rest => some (.value v, rest)
  | .name q :: .symbol '.' :: .name c :: rest => some (.column ⟨q, c⟩, rest)
  | .word w :: rest =>
    match Settings.readDigits? 0 w.toList, rest with
    | some n, rest => some (.value (.integer n), rest)
    | none, .symbol '.' :: .word c :: rest => some (.column ⟨w, c⟩, rest)
    | none, _ => none
  | _ => none

/-- Values with commas between, up to the closing parenthesis, and what follows. -/
def values? : List Token → Option (List Value × List Token)
  | .value v :: .symbol ',' :: rest => (values? rest).map fun found => (v :: found.1, found.2)
  | .value v :: .symbol ')' :: rest => some ([v], rest)
  | _ => none

/-- A comparison, and what follows it. -/
def comparison? (ts : List Token) : Option (Expr × List Token) :=
  (operand? ts).bind fun found =>
    match skip? (.symbol '=') found.2 with
    | some rest => (operand? rest).map fun other => (.equals found.1 other.1, other.2)
    | none =>
      match skipAll? [.word "IN", .symbol '('] found.2 with
      | some rest => (values? rest).map fun list => (.isIn found.1 list.1, list.2)
      | none =>
        (skipAll? [.word "IS", .word "NULL"] found.2).map fun rest => (.isNull found.1, rest)

/-- What was read, if a closing parenthesis follows, and what follows that. -/
def closed? (found : Expr × List Token) : Option (Expr × List Token) :=
  (skip? (.symbol ')') found.2).map fun rest => (found.1, rest)

/-- What a subquery begins with. -/
def subqueryStart : List Token :=
  [.word "EXISTS", .symbol '(', .word "SELECT", .word "1", .word "FROM"]

mutual

/-- Tests joined by `OR`, and what follows them; `depth` bounds the tests inside each other
    and after each other. -/
def disjunction? : Nat → List Token → Option (Expr × List Token)
  | 0, _ => none
  | depth + 1, ts =>
    (conjunction? depth ts).bind fun found =>
      match skip? (.word "OR") found.2 with
      | some rest =>
        (disjunction? depth rest).map fun others => (.or found.1 others.1, others.2)
      | none => some found

/-- Tests joined by `AND`, and what follows them. -/
def conjunction? : Nat → List Token → Option (Expr × List Token)
  | 0, _ => none
  | depth + 1, ts =>
    (test? depth ts).bind fun found =>
      match skip? (.word "AND") found.2 with
      | some rest =>
        (conjunction? depth rest).map fun others => (.and found.1 others.1, others.2)
      | none => some found

/-- One test, and what follows it. -/
def test? : Nat → List Token → Option (Expr × List Token)
  | 0, _ => none
  | depth + 1, ts =>
    match skip? (.symbol '(') ts with
    | some rest => (disjunction? depth rest).bind closed?
    | none =>
      match skipAll? subqueryStart ts with
      | some (.name table :: .word label :: rest) =>
        ((skip? (.word "WHERE") rest).bind fun rest => (disjunction? depth rest).bind closed?).map
          fun found => (.hasRow table label found.1, found.2)
      | some _ => none
      | none => comparison? ts

end

/-- The expression that the text of a fragment and the values it binds say. -/
def Expr.read? (f : Fragment) : Option Expr := do
  let ts ← fill (← tokens? f.text.toList) f.binds
  match ← disjunction? (3 * ts.length + 3) ts with
  | (e, []) => some e
  | _ => none

/-! ### Truth -/

/-- A value of three-valued logic. -/
inductive Truth
  | true
  | false
  | unknown
  deriving DecidableEq, Repr

namespace Truth

/-- What is so or not. -/
def ofBool (b : Bool) : Truth := if b then .true else .false

/-- Whether both are true. -/
def and : Truth → Truth → Truth
  | .false, _ | _, .false => .false
  | .true, .true => .true
  | _, _ => .unknown

/-- Whether one is true. -/
def or : Truth → Truth → Truth
  | .true, _ | _, .true => .true
  | .false, .false => .false
  | _, _ => .unknown

@[simp] theorem ofBool_eq_true {b : Bool} : ofBool b = .true ↔ b = Bool.true := by
  cases b <;> decide

@[simp] theorem and_eq_true {x y : Truth} : x.and y = .true ↔ x = .true ∧ y = .true := by
  cases x <;> cases y <;> decide

@[simp] theorem or_eq_true {x y : Truth} : x.or y = .true ↔ x = .true ∨ y = .true := by
  cases x <;> cases y <;> decide

end Truth

/-- A row: the value in each column, or null. -/
abbrev Row := String → Option Value

/-- The rows of each table. -/
abbrev Tables := String → List Row

/-- The rows in scope, innermost first, by what the query calls their tables. -/
abbrev Scope := List (String × Row)

/-- Whether two names are one: the case of letters does not count. -/
def sameName (a b : String) : Bool := a.toList.map Char.toLower == b.toList.map Char.toLower

/-- The value of a term; null is none. -/
def Term.value? (scope : Scope) : Term → Option Value
  | .column c => (scope.find? (sameName c.qualifier ·.1)).bind fun e => e.2 c.name
  | .value v => some v

/-- Whether two values are the same, where there are two. -/
def compared : Option Value → Option Value → Truth
  | some v, some w => .ofBool (v == w)
  | _, _ => .unknown

namespace Expr

/-- The truth of a test. -/
def truth (tables : Tables) (scope : Scope) : Expr → Truth
  | equals x y => compared (x.value? scope) (y.value? scope)
  | isNull x => .ofBool (x.value? scope).isNone
  | isIn x values => (values.map fun v => compared (x.value? scope) (some v)).foldr .or .false
  | hasRow table label test =>
    .ofBool ((tables table).any fun row => test.truth tables ((label, row) :: scope) = .true)
  | and e f => (e.truth tables scope).and (f.truth tables scope)
  | or e f => (e.truth tables scope).or (f.truth tables scope)

/-- Whether the columns of a term are columns of tables that the query names. -/
def isKnown (aliases : List String) : Term → Bool
  | .column c => aliases.any (sameName c.qualifier)
  | .value _ => true

/-- Whether all columns of a test are columns of tables that the query names. -/
def isClosed (aliases : List String) : Expr → Bool
  | equals x y => isKnown aliases x && isKnown aliases y
  | isNull x => isKnown aliases x
  | isIn x _ => isKnown aliases x
  | hasRow _ label test => test.isClosed (label :: aliases)
  | and e f | or e f => e.isClosed aliases && f.isClosed aliases

end Expr

end Authorization.Sql
