import Authorization.Numeral.Binary64
import Authorization.Proofs.Cypher.Reading
import Authorization.Proofs.Sql.Reading
import Mathlib.Algebra.Group.Nat.Defs

/-!
# Queries on graphs

What tests of nodes come to in a graph. Nodes have labels and properties, and
relationships lead from node to node. The truth of a test has three values: what
is compared with null is unknown, and so is whether null is in a list that is not
empty (`Datum.equal`, `Datum.isIn`). A path is there or not (`Path.matches`). Nodes
are selected only where the whole is true (`Expr.truth`).

Numbers are compared by their value: the integer one and the double-precision one
are the same.
-/

namespace Authorization.Cypher

open Sql (Truth)

/-! ### Comparing values -/

/-- Whether an integer is the value of a double-precision number. -/
def isValueOf (n : Int) (d : Decimal) : Bool :=
  match Binary64.nearest (d.digits * 10 ^ d.exponent.toNat) (10 ^ (-d.exponent).toNat) with
  | some x => (if d.negative then -(x.numerator : Int) else x.numerator) == n * x.denominator
  | none => false

/-- Whether two values are the same. -/
def Scalar.equal : Scalar → Scalar → Bool
  | boolean b, boolean c => b == c
  | integer m, integer n => m == n
  | real d, real e => d.same e
  | integer n, real d | real d, integer n => isValueOf n d
  | text s, text t => s == t
  | _, _ => false

namespace Scalar

theorem equal_text {v : Scalar} {s : String} : v.equal (text s) = true ↔ v = text s := by
  cases v <;> simp [equal]

theorem equal_boolean {v : Scalar} {b : Bool} : v.equal (boolean b) = true ↔ v = boolean b := by
  cases v <;> simp [equal]

/-- A number is the same as an integer if it is the integer, or a double of its value. -/
theorem equal_integer {v : Scalar} {n : Int} :
    v.equal (integer n) = true ↔ v = integer n ∨ ∃ d, v = real d ∧ isValueOf n d = true := by
  cases v <;> simp [equal]

end Scalar

namespace Datum

/-- Whether two data are the same. -/
def equal : Datum → Datum → Truth
  | null, _ | _, null => .unknown
  | one v, one w => .ofBool (v.equal w)
  | list vs, list ws =>
    .ofBool (vs.length == ws.length && (List.zipWith Scalar.equal vs ws).all fun b => b)
  | one _, list _ | list _, one _ => .false

theorem equal_one {d : Datum} {v : Scalar} :
    d.equal (one v) = .true ↔ ∃ w, d = one w ∧ w.equal v = true := by
  cases d <;> simp [equal]

/-- The items of a list. -/
def items? : Datum → Option (List Scalar)
  | list vs => some vs
  | _ => none

/-- Whether one of some truths is true. -/
def anyTrue (truths : List Truth) : Truth := truths.foldr .or .false

theorem anyTrue_eq_true {truths : List Truth} : anyTrue truths = .true ↔ .true ∈ truths := by
  rw [anyTrue]
  induction truths with
  | nil => exact ⟨nofun, fun h => absurd h List.not_mem_nil⟩
  | cons t ts ih => rw [List.foldr_cons, Sql.Truth.or_eq_true, ih, List.mem_cons, eq_comm]

/-- Whether a datum is in a list; unknown without a list. -/
def isIn (d list : Datum) : Truth :=
  match list.items? with
  | some vs => anyTrue (vs.map fun v => d.equal (.one v))
  | none => .unknown

theorem isIn_list {d : Datum} {vs : List Scalar} :
    d.isIn (list vs) = .true ↔ ∃ v ∈ vs, d.equal (one v) = .true := by
  rw [isIn, items?, anyTrue_eq_true, List.mem_map]

end Datum

/-! ### Graphs -/

/-- A relationship from a node to another. -/
structure Relationship where
  /-- The node it leads from. -/
  source : Nat
  /-- Its type. -/
  kind : String
  /-- The node it leads to. -/
  target : Nat
  deriving DecidableEq

/-- A graph, whose nodes go by numbers. -/
structure Graph where
  /-- The nodes. -/
  nodes : List Nat
  /-- The labels of a node. -/
  labels : Nat → List String
  /-- What a node has under a property; null if it does not have it. -/
  property : Nat → String → Datum
  /-- The relationships. -/
  relationships : List Relationship

/-- What a variable stands for. -/
inductive Binding
  | node (n : Nat)
  | item (v : Scalar)
  deriving DecidableEq

/-- What the variables in scope stand for, innermost first. -/
abbrev Scope := List (String × Binding)

variable (g : Graph)

/-- The nodes that a relationship leads to from a node, the way it goes. -/
def Link.next (link : Link) (n : Nat) : List Nat :=
  g.relationships.filterMap fun r =>
    match link.direction with
    | .forward => if r.kind = link.kind ∧ r.source = n then some r.target else none
    | .backward => if r.kind = link.kind ∧ r.target = n then some r.source else none

section Links

variable {g} {kind : String} {n m : Nat}

theorem mem_next_forward :
    m ∈ Link.next g ⟨.forward, kind⟩ n ↔ ⟨n, kind, m⟩ ∈ g.relationships := by
  rw [Link.next, List.mem_filterMap]
  constructor
  · rintro ⟨r, hr, h⟩
    simp only [Option.ite_none_right_eq_some, Option.some.injEq] at h
    obtain ⟨⟨rfl, rfl⟩, rfl⟩ := h
    exact hr
  · exact fun h => ⟨_, h, if_pos ⟨rfl, rfl⟩⟩

theorem mem_next_backward :
    m ∈ Link.next g ⟨.backward, kind⟩ n ↔ ⟨m, kind, n⟩ ∈ g.relationships := by
  rw [Link.next, List.mem_filterMap]
  constructor
  · rintro ⟨r, hr, h⟩
    simp only [Option.ite_none_right_eq_some, Option.some.injEq] at h
    obtain ⟨⟨rfl, rfl⟩, rfl⟩ := h
    exact hr
  · exact fun h => ⟨_, h, if_pos ⟨rfl, rfl⟩⟩

end Links

namespace NodePattern

/-- Whether a node has the label and the property. -/
def fits (p : NodePattern) (n : Nat) : Bool :=
  p.label.all (g.labels n).contains && p.property.all fun e => (g.property n e.1).equal e.2 == .true

/-- The scope with a node in the place of the pattern, if it can be there: a variable in scope
    stands for the node it stands for. -/
def bind? (p : NodePattern) (n : Nat) (scope : Scope) : Option Scope :=
  if p.fits g n then
    match p.name with
    | none => some scope
    | some name =>
      match scope.lookup name with
      | none => some ((name, .node n) :: scope)
      | some b => if b = .node n then some scope else none
  else none

variable {g} {p : NodePattern} {n : Nat} {scope scope' : Scope}

theorem bind?_of_unnamed (hname : p.name = none) :
    p.bind? g n scope = some scope' ↔ p.fits g n = true ∧ scope = scope' := by
  rw [bind?, hname]
  simp

theorem bind?_of_new {name : String} (hname : p.name = some name)
    (hnew : scope.lookup name = none) :
    p.bind? g n scope = some scope' ↔ p.fits g n = true ∧ (name, .node n) :: scope = scope' := by
  rw [bind?, hname]
  simp [hnew]

/-- A variable in scope stands for its node. -/
theorem bind?_of_known {name : String} {m : Nat} (hname : p.name = some name)
    (hknown : scope.lookup name = some (.node m)) :
    p.bind? g n scope = some scope' ↔ p.fits g n = true ∧ m = n ∧ scope = scope' := by
  rw [bind?, hname]
  simp [hknown]

end NodePattern

/-- The scopes with nodes in the places of a path that goes on from a node. -/
def follow : List (Link × NodePattern) → Nat → Scope → List Scope
  | [], _, scope => [scope]
  | (link, p) :: rest, n, scope =>
    (link.next g n).flatMap fun next => (p.bind? g next scope).elim [] (follow rest next)

/-- The scopes with nodes in the places of a path. The relationships of a path are of different
    types here, so none of them is in two places. -/
def Path.matches (path : Path) (scope : Scope) : List Scope :=
  g.nodes.flatMap fun n => (path.first.bind? g n scope).elim [] (follow g path.rest n)

section Matches

variable {g} {scope scope' : Scope}

theorem mem_elim_nil {o : Option Scope} {f : Scope → List Scope} :
    scope ∈ o.elim [] f ↔ ∃ scope', o = some scope' ∧ scope ∈ f scope' := by
  cases o <;> simp

theorem mem_follow_nil {n : Nat} : scope' ∈ follow g [] n scope ↔ scope = scope' := by
  rw [follow, List.mem_singleton, eq_comm]

theorem mem_follow_cons {link : Link} {p : NodePattern} {rest : List (Link × NodePattern)}
    {n : Nat} : scope' ∈ follow g ((link, p) :: rest) n scope ↔
      ∃ m ∈ link.next g n, ∃ next, p.bind? g m scope = some next ∧
        scope' ∈ follow g rest m next := by
  rw [follow, List.mem_flatMap]
  exact exists_congr fun m => and_congr_right fun _ => mem_elim_nil

theorem mem_matches {path : Path} : scope' ∈ path.matches g scope ↔
    ∃ n ∈ g.nodes, ∃ next, path.first.bind? g n scope = some next ∧
      scope' ∈ follow g path.rest n next := by
  rw [Path.matches, List.mem_flatMap]
  exact exists_congr fun n => and_congr_right fun _ => mem_elim_nil

end Matches

/-! ### Truth -/

/-- What a term has; null is no value. -/
def Term.datum (scope : Scope) : Term → Datum
  | .property owner key =>
    match scope.lookup owner with
    | some (.node n) => g.property n key
    | _ => .null
  | .item name =>
    match scope.lookup name with
    | some (.item v) => .one v
    | _ => .null
  | .value d => d

namespace Expr

/-- The truth of a test. -/
def truth (scope : Scope) : Expr → Truth
  | constant holds => .ofBool holds
  | equals x y => (x.datum g scope).equal (y.datum g scope)
  | isIn x list => (x.datum g scope).isIn (list.datum g scope)
  | hasItem name list test =>
    match (list.datum g scope).items? with
    | some vs => Datum.anyTrue (vs.map fun v => test.truth ((name, .item v) :: scope))
    | none => .unknown
  | hasPath path test =>
    .ofBool ((path.matches g scope).any fun scope => test.truth scope = .true)
  | and e f => (e.truth scope).and (f.truth scope)
  | or e f => (e.truth scope).or (f.truth scope)

end Expr

/-! ### Variables -/

/-- The variables that a path names. -/
def Path.names (path : Path) : List String :=
  path.first.name.toList ++ path.rest.flatMap fun e => e.2.name.toList

/-- Whether the variable in a term is one of some. -/
def Term.isKnown (names : List String) : Term → Bool
  | .property owner _ => names.contains owner
  | .item name => names.contains name
  | .value _ => true

/-- Whether each variable in a test is one of some, or one that a path or a list brings in. -/
def Expr.isClosed (names : List String) : Expr → Bool
  | constant _ => true
  | equals x y | isIn x y => x.isKnown names && y.isKnown names
  | hasItem name list test => list.isKnown names && test.isClosed (name :: names)
  | hasPath path test => test.isClosed (path.names ++ names)
  | and e f | or e f => e.isClosed names && f.isClosed names

end Authorization.Cypher
