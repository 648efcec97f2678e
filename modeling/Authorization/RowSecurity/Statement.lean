import Authorization.RowSecurity.Predicate

/-!
# Row security statements

A statement lets the rows of a table be read, inserted or deleted where a
predicate holds. Reading and deleting are restricted to rows that satisfy it;
an inserted row is checked against it.
-/

namespace Authorization.RowSecurity

/-- What a statement is about. -/
inductive Kind
  | select
  | insert
  | delete
  deriving DecidableEq, Repr

namespace Kind

/-- The kinds, in order. -/
def all : List Kind := [select, insert, delete]

/-- The action that stands behind the kind. -/
def action : Kind → Action
  | select => .read
  | insert => .create
  | delete => .delete

/-- The keyword of the kind. -/
def keyword : Kind → String
  | select => "SELECT"
  | insert => "INSERT"
  | delete => "DELETE"

/-- The kind as part of a name. -/
def label : Kind → String
  | select => "select"
  | insert => "insert"
  | delete => "delete"

/-- The keywords in front of the predicate. -/
def clause : Kind → String
  | insert => "WITH CHECK"
  | select | delete => "USING"

end Kind

/-- A named statement. -/
structure Statement where
  /-- The name of the statement. -/
  name : String
  /-- The resource whose objects are in the table. -/
  resource : String
  /-- What it is about. -/
  kind : Kind
  /-- The table. -/
  table : String
  /-- The predicate on its rows. -/
  predicate : List Piece

namespace Statement

/-- The statement on the table of a resource; its name tells the table, the kind and what
    the predicate comes from. -/
def of (r : Resource) (kind : Kind) (label : String) (predicate : List Piece) : Statement where
  name := r.storage.table ++ "_" ++ kind.label ++ "_" ++ label
  resource := r.name
  kind := kind
  table := r.storage.table
  predicate := predicate

/-- The pieces of the statement. -/
def pieces (s : Statement) : List Piece :=
  [.fixed "CREATE POLICY ", .name s.name, .fixed " ON ", .name s.table,
      .fixed (" AS PERMISSIVE FOR " ++ s.kind.keyword ++ " " ++ s.kind.clause ++ " (")] ++
    s.predicate ++ [.fixed ");"]

/-- The text of the statement. -/
def sql (s : Statement) : String := text s.pieces

end Statement

end Authorization.RowSecurity
