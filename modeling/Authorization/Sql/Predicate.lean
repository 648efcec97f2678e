import Authorization.Numeral.Decimal
import Authorization.Text.Quoted

/-!
# Predicates of table queries

A predicate on the rows of a table, as it stands in a `WHERE` clause. Names are
quoted and values are never written out: in the text each stands as a question
mark, and is bound beside it (`Predicate.fragment`).

The text is put together from *pieces*, which keep apart what is fixed, what is
a name and what is bound; a fragment shows as many question marks outside names
as it binds values.
-/

namespace Authorization.Sql

/-- A value bound in a query. -/
inductive Value
  | text (s : String)
  | integer (n : Int)
  | real (d : Decimal)
  deriving DecidableEq

/-- A column of the rows in question. -/
structure Column where
  /-- What the query calls their table. -/
  qualifier : String
  /-- The name of the column. -/
  name : String
  deriving DecidableEq, Repr

/-- A predicate on rows. -/
inductive Predicate
  /-- One that is decided beforehand. -/
  | constant (holds : Bool)
  /-- The column has the value. -/
  | equals (column : Column) (value : Value)
  /-- The column has no value. -/
  | isNull (column : Column)
  /-- The column has one of the values. -/
  | oneOf (column : Column) (values : List Value)
  /-- The table of memberships has a row of the object and the user, with one of the
      roles if there are any given. -/
  | membership (table : String) (object : Column) (user : Value) (roles : Option (List Value))
  /-- Each of the parts holds. -/
  | allOf (parts : List Predicate)
  /-- One of the parts holds. -/
  | anyOf (parts : List Predicate)

/-- A piece of the text of a predicate. -/
inductive Piece
  /-- Keywords and punctuation. -/
  | fixed (s : String)
  /-- A name of a table or a column. -/
  | name (s : String)
  /-- A bound value. -/
  | bind (v : Value)
  deriving DecidableEq

/-- The text of a piece. -/
def Piece.text : Piece → String
  | fixed s => s
  | name s => Text.quotedName s
  | bind _ => "?"

/-- The value that a piece binds. -/
def Piece.bound? : Piece → Option Value
  | bind v => some v
  | _ => none

/-- The pieces of a column. -/
def Column.pieces (c : Column) : List Piece := [.name c.qualifier, .fixed ".", .name c.name]

/-- Values in parentheses, with commas between. -/
def listed (values : List Value) : List Piece :=
  .fixed "(" :: [Piece.fixed ", "].intercalate (values.map fun v => [.bind v]) ++ [.fixed ")"]

/-- The text of a predicate that is decided. -/
def decided (holds : Bool) : String := if holds then "1 = 1" else "1 = 0"

/-- The test of the role of a membership; no role is among none. -/
def roleTest : Option (List Value) → List Piece
  | none => []
  | some [] => [.fixed (" AND " ++ decided false)]
  | some roles => .fixed " AND m.role IN " :: listed roles

/-- Predicates joined by an operator, in parentheses; none are decided by `unit`. -/
def joined (operator : String) (unit : Bool) : List (List Piece) → List Piece
  | [] => [.fixed (decided unit)]
  | parts => .fixed "(" :: [Piece.fixed operator].intercalate parts ++ [.fixed ")"]

namespace Predicate

mutual

/-- The pieces of the text of a predicate. -/
def pieces : Predicate → List Piece
  | constant holds => [.fixed (decided holds)]
  | equals column value => column.pieces ++ [.fixed " = ", .bind value]
  | isNull column => column.pieces ++ [.fixed " IS NULL"]
  | oneOf column values => column.pieces ++ .fixed " IN " :: listed values
  | membership table object user roles =>
    [.fixed "EXISTS (SELECT 1 FROM ", .name table, .fixed " m WHERE m.resource_id = "] ++
      object.pieces ++ [.fixed " AND m.user_id = ", .bind user] ++ roleTest roles ++ [.fixed ")"]
  | allOf parts => joined " AND " true (piecesOfEach parts)
  | anyOf parts => joined " OR " false (piecesOfEach parts)

/-- The pieces of each predicate. -/
def piecesOfEach : List Predicate → List (List Piece)
  | [] => []
  | p :: ps => pieces p :: piecesOfEach ps

end

end Predicate

/-- Text of a query and the values bound in it, in the order of their question marks. -/
structure Fragment where
  /-- The text. -/
  text : String
  /-- The bound values. -/
  binds : List Value
  deriving DecidableEq

namespace Fragment

/-- The fragment of a text in pieces. -/
def ofPieces (pieces : List Piece) : Fragment :=
  ⟨String.join (pieces.map Piece.text), pieces.filterMap Piece.bound?⟩

theorem text_ofPieces_append {ps qs : List Piece} :
    (ofPieces (ps ++ qs)).text = (ofPieces ps).text ++ (ofPieces qs).text := by
  simp [ofPieces, String.join_append]

theorem binds_ofPieces_append {ps qs : List Piece} :
    (ofPieces (ps ++ qs)).binds = (ofPieces ps).binds ++ (ofPieces qs).binds := by
  simp [ofPieces]

/-- The fragment put after a text that binds nothing. -/
def after (front : String) (f : Fragment) : Fragment := ⟨front ++ f.text, f.binds⟩

end Fragment

/-- The text of a predicate and the values it binds. -/
def Predicate.fragment (p : Predicate) : Fragment := .ofPieces p.pieces

end Authorization.Sql
