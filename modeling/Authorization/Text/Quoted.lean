/-!
# Quoting in SQL

Names of tables and columns stand between double quotes, literal texts between
single quotes; inside either, the quote itself is written twice. So whatever a
name or a text holds, it ends where its quote ends.
-/

namespace Authorization.Text

/-- The characters with every `q` written twice. -/
def double (q : Char) : List Char → List Char
  | [] => []
  | c :: cs => if c = q then q :: q :: double q cs else c :: double q cs

/-- A text between quotes `q`. -/
def quoted (q : Char) (s : String) : String :=
  String.ofList (q :: double q s.toList ++ [q])

/-- A name of a table or a column. -/
def quotedName (name : String) : String := quoted '"' name

/-- A literal text. -/
def quotedLiteral (s : String) : String := quoted '\'' s

end Authorization.Text
