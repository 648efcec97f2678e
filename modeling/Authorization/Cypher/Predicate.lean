import Authorization.Json.Value

/-!
# Predicates of graph queries

A predicate on the nodes of a graph, as it stands in the `WHERE` clause of a
Cypher query. Values are parameters of the query: the user of the session has a
parameter of its own, and every other value the next one of a numbered series,
the number after a stem that says what it is for (`Parameter.name`).
-/

namespace Authorization.Cypher

/-- A value that a query refers to by name. -/
inductive Parameter
  /-- The user of the session. -/
  | requester (user : String)
  /-- Any other value. -/
  | numbered (stem : String) (value : Json)

namespace Parameter

/-- The value of a parameter. -/
def value : Parameter → Json
  | requester user => .string user
  | numbered _ v => v

/-- The name of a parameter, where `n` is the next number. -/
def name (n : Nat) : Parameter → String
  | requester _ => "requestingUser"
  | numbered stem _ => stem ++ toString n

/-- The number after a parameter, where `n` is the one before. -/
def next (n : Nat) : Parameter → Nat
  | requester _ => n
  | numbered _ _ => n + 1

end Parameter

/-- A predicate on nodes. -/
inductive Predicate
  /-- One that is decided beforehand. -/
  | constant (holds : Bool)
  /-- The property has the value. -/
  | equals (property : String) (value : Parameter)
  /-- The property has one of the values in a list. -/
  | oneOf (property : String) (values : Parameter)
  /-- The node has a membership of the user, with one of the roles if there are any
      given. -/
  | membership (user : Parameter) (roles : Option Parameter)
  /-- Each of the parts holds. -/
  | allOf (parts : List Predicate)
  /-- One of the parts holds. -/
  | anyOf (parts : List Predicate)

/-- A piece of the text of a predicate. -/
inductive Piece
  /-- Text that stands as it is. -/
  | fixed (s : String)
  /-- A reference to a parameter. -/
  | reference (p : Parameter)

/-- The text of a predicate that is decided. -/
def decided (holds : Bool) : String := if holds then "true" else "false"

/-- Predicates joined by an operator, in parentheses unless there is only one; none are
    decided by `unit`. -/
def joined (operator : String) (unit : Bool) : List (List Piece) → List Piece
  | [] => [.fixed (decided unit)]
  | [part] => part
  | parts => .fixed "(" :: [Piece.fixed operator].intercalate parts ++ [.fixed ")"]

/-- The pattern of a membership, `member` being how it refers to the membership. -/
def pattern (node member : String) (user : Parameter) : List Piece :=
  [.fixed ("EXISTS \x7b MATCH (" ++ node ++ ")<-[:membership]-(" ++ member ++
      ":Member)-[:user]->(:User \x7b id: "),
    .reference user, .fixed " \x7d)"]

namespace Predicate

mutual

/-- The pieces of the text of a predicate on `node`. -/
def pieces (node : String) : Predicate → List Piece
  | constant holds => [.fixed (decided holds)]
  | equals property value => [.fixed (node ++ "." ++ property ++ " = "), .reference value]
  | oneOf property values => [.fixed (node ++ "." ++ property ++ " IN "), .reference values]
  | membership user none => pattern node "" user ++ [.fixed " \x7d"]
  | membership user (some roles) =>
    pattern node "m" user ++
      [.fixed " WHERE any(role IN m.roles WHERE role IN ", .reference roles, .fixed ") \x7d"]
  | allOf parts => joined " AND " true (piecesOfEach node parts)
  | anyOf parts => joined " OR " false (piecesOfEach node parts)

/-- The pieces of each predicate. -/
def piecesOfEach (node : String) : List Predicate → List (List Piece)
  | [] => []
  | p :: ps => pieces node p :: piecesOfEach node ps

end

end Predicate

/-! ### Numbering the parameters -/

/-- The text of pieces, where `n` is the next number. -/
def textFrom (n : Nat) : List Piece → String
  | [] => ""
  | .fixed s :: ps => s ++ textFrom n ps
  | .reference p :: ps => "$" ++ p.name n ++ textFrom (p.next n) ps

/-- The parameters that pieces refer to, with their names, where `n` is the next number. -/
def paramsFrom (n : Nat) : List Piece → List (String × Json)
  | [] => []
  | .fixed _ :: ps => paramsFrom n ps
  | .reference p :: ps => (p.name n, p.value) :: paramsFrom (p.next n) ps

/-- Text of a query and the parameters it refers to. -/
structure Fragment where
  /-- The text. -/
  text : String
  /-- The parameters by name. -/
  params : NameMap Json

/-- The text of a predicate on `node`, and its parameters. -/
def Predicate.fragment (node : String) (p : Predicate) : Fragment :=
  let pieces := p.pieces node
  ⟨textFrom 0 pieces, .ofList (paramsFrom 0 pieces)⟩

end Authorization.Cypher
