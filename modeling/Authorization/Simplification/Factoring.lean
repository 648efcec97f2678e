import Authorization.Condition.Merge

/-!
# Factoring

Alternatives that differ only in one condition of a kind are one alternative:
of *all of* `x` and the rest, and *all of* `y` and the same rest, it is enough
that the rest holds with the union of `x` and `y`. A condition of the kind by
itself is such an alternative with an empty rest.

Rests are compared by their ids, so the order in them does not matter; the
first of the alternatives gives the order, and the place, of the merged one.
-/

namespace Authorization

/-- An alternative taken apart: a condition of the kind, and what else has to
    hold. -/
structure Factored where
  /-- The condition of the kind. -/
  factor : Condition
  /-- All other conditions, in their order. -/
  rest : List Condition

namespace Factored

/-- The identity of the rest. -/
def key (f : Factored) : String :=
  match f.rest with
  | [] => ""
  | [c] => c.id
  | cs => (Condition.all cs).id

/-- An alternative taken apart at its only condition of the kind, if it has just
    one. -/
def ofAlternative? (kind : Condition.Kind) (c : Condition) : Option Factored :=
  if c.kind = kind then some ⟨c, []⟩
  else
    match c with
    | .allOf parts =>
      match parts.filter (·.kind == kind) with
      | [factor] => some ⟨factor, parts.filter (·.kind != kind)⟩
      | _ => none
    | _ => none

/-- All alternatives with the rest of `f` as one. -/
def merged (found : List Factored) (f : Factored) : Condition :=
  let factors := (found.filter (·.key == f.key)).map factor
  Condition.all (Condition.union factors :: f.rest)

/-- Whether another alternative has the same rest. -/
def isShared (found : List Factored) (f : Factored) : Bool :=
  1 < (found.filter (·.key == f.key)).length

/-- The alternatives, with those that share a rest merged at the place of the first of
    them; `done` are the rests merged before. -/
def mergeFrom (kind : Condition.Kind) (found : List Factored) (done : List String) :
    List Condition → List Condition
  | [] => []
  | c :: cs =>
    match ofAlternative? kind c with
    | none => c :: mergeFrom kind found done cs
    | some f =>
      if !f.isShared found then c :: mergeFrom kind found done cs
      else if done.contains f.key then mergeFrom kind found done cs
      else f.merged found :: mergeFrom kind found (f.key :: done) cs

end Factored

/-- The condition with alternatives factored by a kind, if there are any to
    factor. -/
def factorBy? (kind : Condition.Kind) (c : Condition) : Option Condition :=
  if !kind.mergeable then none
  else
    match c with
    | .anyOf parts =>
      let found := parts.filterMap (Factored.ofAlternative? kind)
      if found.any (·.isShared found) then
        some (.any (Factored.mergeFrom kind found [] parts))
      else none
    | _ => none

end Authorization
