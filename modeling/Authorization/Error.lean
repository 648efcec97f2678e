import Authorization.Action
import Authorization.Condition.Identity

/-!
# Errors

What can go wrong, by cause. A declaration may misuse the vocabulary in which
grants are written (`GrantFault`); compiled policies may be missing, or
declared in a way that cannot be right (`ConfigurationFault`); a name may stand
for no resource (`UnknownResource`); and a decision may need an object that is
not there, or turn out a denial. `Error.message` is what a user gets to read.
-/

namespace Authorization

/-- What is wrong in how a grant was written. -/
inductive GrantFault
  /-- The resource has no such property. -/
  | unknownProp (resource prop : String)
  /-- The resource has no such relation. -/
  | unknownRelation (resource relation : String)
  /-- The resource has no such variant. -/
  | unknownVariant (resource variant : String)
  /-- The action means nothing on a property. -/
  | notOnProps (action : Action) (resource : String)
  /-- The action means nothing on a relation of this cardinality. -/
  | notOnRelation (action : Action) (resource relation : String)
  deriving DecidableEq, Repr

/-- A name between back quotes. -/
def inBackQuotes (name : String) : String := "`" ++ name ++ "`"

/-- The text of a fault in a grant. -/
def GrantFault.message : GrantFault → String
  | .unknownProp resource prop => resource ++ " has no secured prop named " ++ inBackQuotes prop
  | .unknownRelation resource relation =>
    resource ++ " has no child relation named " ++ inBackQuotes relation
  | .unknownVariant resource variant =>
    resource ++ " has no variant named " ++ inBackQuotes variant
  | .notOnProps action resource =>
    inBackQuotes action.name ++ " is not a property action (" ++ resource ++ ")"
  | .notOnRelation action resource relation =>
    inBackQuotes action.name ++ " is not valid for " ++ resource ++ "." ++ relation

/-- What is wrong in how the engine was set up or is used. -/
inductive ConfigurationFault
  /-- Two policies have one name. -/
  | duplicatePolicy (policy : String)
  /-- A grant of the policy was written wrongly. -/
  | misuse (policy resource : String) (faults : List GrantFault)
  /-- A grant of the policy stages conditions and then does nothing under them. -/
  | unusedConditions (policy resource : String) (conditions : List Condition)
  /-- The resource has no variants to write grants for. -/
  | noVariants (resource : String)
  /-- What follows from the grants of the policy has no end: it leads to implementations that
      go round in a circle. -/
  | circularImplementations (policy : String)
  /-- Policies were compiled before. -/
  | alreadyCompiled
  /-- No policies were compiled yet. -/
  | notCompiled
  /-- The resource has no such property or relation. -/
  | unknownKey (resource key : String)
  /-- A filter for a graph query was put into a table query. -/
  | cypherIntoSql
  /-- A filter for a table query was put into a graph query. -/
  | sqlAsCypher

/-- The name under which messages speak of the vocabulary for variants. -/
def variantVocabulary : String := "s_curve_authz::authz::granter::variant::VariantGranter"

/-- The text of a configuration fault. -/
def ConfigurationFault.message : ConfigurationFault → String
  | .duplicatePolicy policy => "policy " ++ inBackQuotes policy ++ " is declared more than once"
  | .misuse policy resource faults =>
    "policy " ++ inBackQuotes policy ++ " on " ++ resource ++ ": " ++
      "; ".intercalate (faults.map GrantFault.message)
  | .unusedConditions policy resource conditions =>
    "policy " ++ inBackQuotes policy ++ " on " ++ resource ++
      " stages conditions that no action uses: " ++ ", ".intercalate (conditions.map Condition.id)
  | .noVariants resource =>
    resource ++ " does not support the " ++ variantVocabulary ++ " vocabulary"
  | .circularImplementations policy =>
    "policy " ++ inBackQuotes policy ++ " leads to implementations that go round in a circle"
  | .alreadyCompiled => "policies are already compiled"
  | .notCompiled => "permissions resolved before policies were compiled"
  | .unknownKey resource key =>
    resource ++ " has no secured prop or relation " ++ inBackQuotes key
  | .cypherIntoSql => "a cypher filter cannot be pushed into an sql query"
  | .sqlAsCypher => "an sql filter cannot be rendered as cypher"

/-- Where a name stands that is the name of no resource. -/
inductive UnknownResource
  /-- It was asked for. -/
  | named (name : String)
  /-- A resource is said to implement it. -/
  | interfaceOf (name resource : String)
  /-- A relation of a resource is said to lead to it. -/
  | targetOf (name resource relation : String)
  deriving DecidableEq, Repr

/-- The text of an unknown resource. -/
def UnknownResource.message : UnknownResource → String
  | .named name => name
  | .interfaceOf name resource => name ++ " (interface of " ++ resource ++ ")"
  | .targetOf name resource relation =>
    name ++ " (target of " ++ resource ++ "." ++ relation ++ ")"

/-- What can go wrong. -/
inductive Error
  /-- The engine was set up or is used wrongly. -/
  | configuration (fault : ConfigurationFault)
  /-- A name is not that of a resource. -/
  | unknownResource (unknown : UnknownResource)
  /-- A condition on the object was to be decided without an object. -/
  | missingContext (condition : Condition)
  /-- The session may not do what it wants to. -/
  | accessDenied (resource : String) (prop : Option String) (action : Action)
  /-- Calculated data was to be secured in the database, by its table. -/
  | calculatedInDatabase (table : String)

namespace Error

/-- The text of an error. -/
def message : Error → String
  | configuration fault => "configuration error: " ++ fault.message
  | unknownResource unknown => "unknown resource: " ++ unknown.message
  | missingContext condition =>
    "missing context: " ++ condition.id ++ " requires an object to evaluate"
  | accessDenied resource (some prop) action =>
    "you do not have permission to " ++ action.name ++ " " ++ resource ++ "." ++ prop
  | accessDenied resource none action =>
    "you do not have permission to " ++ action.name ++ " this " ++ resource
  | calculatedInDatabase table =>
    "codegen invariant violated: calculated condition reached the access policy for " ++ table

instance : ToString Error := ⟨message⟩

end Error

end Authorization
