import Authorization.Catalogue
import Authorization.Policy.Basic

/-!
# Powers

Where a policy grants without condition that objects of a resource be created,
its sessions have the power to create them. They have it for the
implementations of the resource too, near and far, as far as the policy says
nothing of these: what it says of an implementation counts for all below.

The implementations are gone through from the resource downwards. If they lead
round in a circle that never ends, and there is no answer.
-/

namespace Authorization.Catalogue

/-- The names from `name` downwards of which nothing is said, along chains of at most `depth`
    implementations; none if a chain is longer. -/
def unsaid? (c : Catalogue) (raw : GrantMap) : Nat → String → Option (List String)
  | 0, _ => none
  | depth + 1, name =>
    if raw.contains name then some []
    else do
      let below ← (c.implementations name).toList.mapM (unsaid? c raw depth)
      return name :: below.flatten

/-- The names below a resource of which nothing is said. A chain of more implementations than
    there are resources goes round in a circle. -/
def unsaidBelow? (c : Catalogue) (raw : GrantMap) (name : String) : Option (List String) :=
  ((c.implementations name).toList.mapM (c.unsaid? raw (c.toList.length + 1))).map List.flatten

/-- The resources of which objects can be created without condition. -/
def creatable (raw : GrantMap) : List String :=
  (raw.toList.filter fun e => (e.2.object.get? .create).any Permission.isAllow).map Prod.fst

/-- The powers that a resource gives whose objects can be created. -/
def powersOf? (c : Catalogue) (raw : GrantMap) (name : String) : Option (List Power) :=
  (c.unsaidBelow? raw name).map fun below => (name :: below).map Power.mk

/-- The powers that come with grants. -/
def powers? (c : Catalogue) (raw : GrantMap) : Option (SortedSet Power) :=
  ((creatable raw).mapM (c.powersOf? raw)).map fun powers => .ofList powers.flatten

end Authorization.Catalogue
