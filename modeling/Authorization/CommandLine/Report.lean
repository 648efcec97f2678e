import Authorization.CommandLine.Arguments
import Authorization.Engine.Privileges
import Authorization.Engine.Statements
import Authorization.Json.Printer
import Authorization.Planning.Policies

/-!
# Reports

What the tool prints for its arguments and the variables of its environment,
and what it writes to a file. It speaks about project planning.
-/

namespace Authorization.CommandLine

/-- What the tool does. -/
structure Report where
  /-- The exit code. -/
  code : Nat
  /-- The text on the standard output. -/
  output : String
  /-- The text on the standard error. -/
  error : String
  /-- The file to write, and its contents. -/
  file : Option (String × String)
  deriving DecidableEq

/-- Why the tool fails. -/
structure Failure where
  /-- What it was doing, if that says more than the reason. -/
  context : Option String
  /-- The reason. -/
  reason : String
  deriving DecidableEq, Repr

namespace Report

/-- A report of success. -/
def success (output : String) : Report := ⟨0, output, "", none⟩

/-- A report of failure. -/
def failure (f : Failure) : Report :=
  let text := match f.context with
    | none => f.reason
    | some context => context ++ "\n\nCaused by:\n    " ++ f.reason
  ⟨1, "", "Error: " ++ text ++ "\n", none⟩

/-- Lines, each with its end. -/
def lines (ls : List String) : String := String.join (ls.map (· ++ "\n"))

/-- How the tool is used. -/
def usage : String :=
  lines ["Usage: cli <COMMAND>", "", "Commands:",
    "  dump-access-policies [--out <OUT>]",
    "  explain --resource <RESOURCE> --action <ACTION> [--prop <PROP>] [--role <ROLE>]... " ++
      "[--user <USER>]",
    "  powers [--role <ROLE>]..."]

/-- The version of the tool. -/
def version : String := lines ["s-curve-authz 0.1.0"]

/-- The report where there is nothing to do. -/
def ofStop : Stop → Report
  | .help => success usage
  | .version => success version
  | .misuse => ⟨2, "", usage, none⟩

/-- The report of what may fail. -/
def ofOutcome : Except Failure Report → Report
  | .ok r => r
  | .error f => failure f

/-- How the tool quotes an error of the system, which has a text and a number. -/
def systemError (text : String) (number : Nat) : String :=
  text ++ " (os error " ++ toString number ++ ")"

/-- The report that the file could not be written. -/
def unwritten (path reason : String) : Report :=
  failure ⟨some ("failed to write access policies to " ++ path), reason⟩

end Report

/-- An outcome whose error is the failure of the tool. -/
def orFail {α : Type} (context : Option String) : Except Error α → Except Failure α
  | .ok a => .ok a
  | .error e => .error ⟨context, e.message⟩

/-- The engine for project planning. -/
def engine (s : Settings) : Except Failure Engine := do
  let (outcome, e) := (Engine.ofSettings Planning.catalogue s).run (Engine.compile Planning.policies)
  orFail (some "failed to compile authorization policies") outcome
  return e

/-! ### Dumping statements -/

/-- The first line of a dump. -/
def dumpHeader : String := "-- generated by `cli dump-access-policies`; do not edit"

/-- The report of all statements. -/
def dump (e : Engine) (out : Option String) : Except Failure Report := do
  let statements ← orFail (some "failed to generate access policies") (e.run Engine.statements).1
  let text := Report.lines (dumpHeader :: statements.map (·.sql))
  match out with
  | none => return .success text
  | some path =>
    let done := "Wrote " ++ toString statements.length ++ " statements to " ++ path
    return { Report.success (Report.lines [done]) with file := some (path, text) }

/-! ### Explaining permissions -/

/-- The session of a user with roles. -/
def session (user : Uuid) (roles : List String) : Session := (Session.ofUser user).withRoles roles

/-- How a condition is put into queries. -/
def rendering (s : Session) (r : Resource) (c : Condition) : List String :=
  let cypher := Cypher.fragment "node" s c
  let sql := (Sql.Filter.mk ⟨"t", r.storage, s⟩ c).fragment
  let params := if cypher.params.isEmpty then []
    else ["params:     " ++ (Json.ofMap cypher.params).compact]
  ["cypher:     " ++ cypher.text] ++ params ++ ["sql:        " ++ sql.text]

/-- The action of a name. -/
def actionOf (name : String) : Except Failure Action :=
  match Action.parse? name with
  | some a => .ok a
  | none =>
    .error ⟨none, "unknown action " ++ inBackQuotes name ++ " (read, edit, create, delete)"⟩

/-- The report on a permission; `someone` stands for the user where none is given. -/
def explain (e : Engine) (someone : Uuid) (q : Inquiry) : Except Failure Report := do
  let a ← actionOf q.action
  let s := session (q.user.getD someone) q.roles
  let p ← orFail none (e.run (Engine.resolve s a q.resource q.prop true)).1
  let r ← orFail none (Planning.catalogue.get q.resource)
  return .success <| Report.lines <|
    ("permission: " ++ p.id) :: (p.condition?.map (rendering s r)).getD []

/-! ### Listing powers -/

/-- The report of the powers that come with roles. -/
def powers (e : Engine) (someone : Uuid) (roles : List String) : Except Failure Report := do
  let ps ← orFail none (e.executor.powersFor (session someone roles))
  return .success (Report.lines (if ps.isEmpty then ["(no powers)"] else ps.toList.map Power.text))

/-! ### The whole tool -/

/-- What a command comes to. -/
def perform (s : Settings) (someone : Uuid) (c : Command) : Except Failure Report := do
  let e ← engine s
  match c with
  | .dump out => dump e out
  | .explain q => explain e someone q
  | .powers roles => powers e someone roles

/-- What the tool does for its arguments. -/
def report (args : List String) (value? : String → Option String) (someone : Uuid) : Report :=
  match Command.parse args with
  | .error stop => .ofStop stop
  | .ok c => .ofOutcome (perform (.ofVariables value?) someone c)

end Authorization.CommandLine
