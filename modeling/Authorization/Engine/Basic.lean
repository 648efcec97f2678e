import Authorization.Engine.Executor

/-!
# Engines

An engine answers what sessions may do. It keeps the permissions that it has
resolved, unless its settings forbid it: an answer depends on a session only by
the names of its roles, so sessions with the same roles share it (`Question`).
Errors are not kept.

Operations on an engine may fail; what they have changed until then stays
changed. What is worth a warning is collected on the way.
-/

namespace Authorization

/-- What is asked of the policies. -/
structure Question where
  /-- The roles of the session. -/
  roles : NameSet
  /-- The action. -/
  action : Action
  /-- The resource. -/
  resource : String
  /-- The property or relation, unless the object is meant as a whole. -/
  key : Option String
  /-- Whether the answer is to be optimized. -/
  optimized : Bool
  deriving DecidableEq

/-- The question that a session asks. -/
def Question.of (s : Session) (a : Action) (resource : String) (key : Option String)
    (optimized : Bool) : Question :=
  ⟨s.roleNames, a, resource, key, optimized⟩

/-- Answers that were given before. -/
structure Cache where
  /-- The answers to questions; no question is there twice. -/
  answers : List (Question × Permission)

namespace Cache

/-- The cache without answers. -/
def empty : Cache := ⟨[]⟩

instance : Inhabited Cache := ⟨empty⟩

/-- The answer to a question, if it is there. -/
def get? (c : Cache) (q : Question) : Option Permission := c.answers.lookup q

/-- The cache with an answer to a question that is not there. -/
def insert (c : Cache) (q : Question) (p : Permission) : Cache := ⟨(q, p) :: c.answers⟩

theorem get?_insert {c : Cache} {q q' : Question} {p : Permission} :
    (c.insert q p).get? q' = if q' = q then some p else c.get? q' := by
  rw [insert, get?, List.lookup_cons]
  split
  · rename_i h
    rw [if_pos (beq_iff_eq.1 h)]
  · rename_i h
    rw [if_neg (beq_eq_false_iff_ne.1 h), get?]

/-- The number of answers. -/
def size (c : Cache) : Nat := c.answers.length

end Cache

/-- What an engine warns of. -/
inductive Warning
  /-- A condition was still changing when it was last passed over. -/
  | unsettled
  /-- What is denied was allowed all the same. -/
  | allowedAnyway
  deriving DecidableEq, Repr

/-- The text of a warning. -/
def Warning.message : Warning → String
  | unsettled => "condition optimizer hit its pass limit"
  | allowedAnyway => "access denied (advisory mode - allowing anyway)"

/-- An engine. -/
structure Engine where
  /-- The policies. -/
  executor : Executor
  /-- How it is run. -/
  settings : Settings
  /-- The answers kept, if they are to be kept. -/
  cache : Option Cache
  /-- The warnings given so far. -/
  warnings : List Warning

/-- An operation on an engine, which may fail but keeps its changes. -/
abbrev Operation := ExceptT Error (StateM Engine)

namespace Engine

/-- An engine for a catalogue, without policies. -/
def ofSettings (c : Catalogue) (s : Settings) : Engine :=
  ⟨.ofSettings c s, s, if s.cache then some .empty else none, []⟩

/-- The outcome of an operation, and the engine after it. -/
def run {α : Type} (e : Engine) (op : Operation α) : Except Error α × Engine := op.run.run e

/-- Warns of something. -/
def warn (w : Warning) : Operation Unit :=
  modify fun e => { e with warnings := e.warnings ++ [w] }

/-- Asks the executor. -/
def ask {α : Type} (question : Executor → Except Error α) : Operation α := do
  ofExcept (question (← get).executor)

/-- Compiles policies. -/
def compile (ds : List Declaration) : Operation Unit := do
  let x ← ask (·.compile ds)
  modify fun e => { e with executor := x }

/-- Forgets all answers. -/
def clearCache : Operation Unit := modify fun e => { e with cache := e.cache.map fun _ => .empty }

/-- Optimizes a permission, and warns if it does not settle. -/
def optimize (p : Permission) : Operation Permission := do
  let o := (← get).executor.optimizer
  unless o.settles p do
    warn .unsettled
  return o.optimizePermission p

/-- Resolves a permission anew. -/
def resolveAnew (s : Session) (a : Action) (resource : String) (key : Option String)
    (optimized : Bool) : Operation Permission := do
  let p ← ask (·.resolve s a resource key)
  if optimized then optimize p else return p

/-- Keeps an answer. -/
def keep (q : Question) (p : Permission) : Operation Unit :=
  modify fun e => { e with cache := e.cache.map (·.insert q p) }

/-- Resolves a permission, from the answers kept if it is there. -/
def resolve (s : Session) (a : Action) (resource : String) (key : Option String)
    (optimized : Bool) : Operation Permission := do
  let q := Question.of s a resource key optimized
  match (← get).cache.bind (·.get? q) with
  | some p => return p
  | none =>
    let p ← resolveAnew s a resource key optimized
    keep q p
    return p

end Engine

end Authorization
