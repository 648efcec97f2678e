import Authorization.Uuid

/-!
# Arguments

What the tool is told to do: to dump the statements for the database, to
explain a permission, or to list powers. Options are written `--name value` or
`--name=value`; in the first form the value must not look like an option.
Arguments are read from left to right, and what stops the reading first decides
(`Stop`).
-/

namespace Authorization.CommandLine

/-- What is asked about a permission. -/
structure Inquiry where
  /-- The name of the resource. -/
  resource : String
  /-- The name of the action. -/
  action : String
  /-- The property or relation. -/
  prop : Option String
  /-- The roles held. -/
  roles : List String
  /-- The user. -/
  user : Option Uuid
  deriving DecidableEq

/-- What the tool is told to do. -/
inductive Command
  /-- To write the statements for the database, to a file if there is one given. -/
  | dump (out : Option String)
  /-- To explain a permission. -/
  | explain (inquiry : Inquiry)
  /-- To list the powers that come with roles. -/
  | powers (roles : List String)
  deriving DecidableEq

/-- Why there is nothing to do. -/
inductive Stop
  /-- Help is asked for. -/
  | help
  /-- The version is asked for. -/
  | version
  /-- The arguments make no sense. -/
  | misuse
  deriving DecidableEq, Repr

/-! ### Single arguments -/

/-- An argument by its form. -/
inductive Argument
  /-- An option by its long name, and the value written with it. -/
  | option (name : String) (value : Option String)
  /-- Short options, by their letters. -/
  | letters (cs : List Char)
  /-- The mark that no options follow. -/
  | escape
  /-- Anything else. -/
  | plain (s : String)
  deriving DecidableEq, Repr

/-- The argument that a text writes. -/
def Argument.of (s : String) : Argument :=
  match s.toList with
  | ['-', '-'] => .escape
  | '-' :: '-' :: cs =>
    match cs.dropWhile (· != '=') with
    | [] => .option (String.ofList cs) none
    | _ :: value => .option (String.ofList (cs.takeWhile (· != '='))) (some (String.ofList value))
  | '-' :: c :: cs => .letters (c :: cs)
  | _ => .plain s

/-! ### Options of commands -/

/-- The options read so far. -/
structure Options where
  /-- The file to write to. -/
  out : Option String
  /-- The name of the resource. -/
  resource : Option String
  /-- The name of the action. -/
  action : Option String
  /-- The property or relation. -/
  prop : Option String
  /-- The user. -/
  user : Option Uuid
  /-- The roles, which can be given one after the other. -/
  roles : List String

/-- No options. -/
def Options.empty : Options := ⟨none, none, none, none, none, []⟩

/-- A value for what has none yet. -/
def fresh {α : Type} (old : Option α) (value : α) : Except Stop (Option α) :=
  if old.isSome then .error .misuse else .ok (some value)

/-- The options with one more. A file needs a name, and a user an identifier. -/
def Options.set (o : Options) (name value : String) : Except Stop Options :=
  match name with
  | "out" =>
    if value.isEmpty then .error .misuse else return { o with out := ← fresh o.out value }
  | "resource" => return { o with resource := ← fresh o.resource value }
  | "action" => return { o with action := ← fresh o.action value }
  | "prop" => return { o with prop := ← fresh o.prop value }
  | "user" =>
    match Uuid.parse? value with
    | some user => return { o with user := ← fresh o.user user }
    | none => .error .misuse
  | "role" => .ok { o with roles := o.roles ++ [value] }
  | _ => .error .misuse

/-- Reads the options that `known` names. -/
def Options.read (known : List String) (o : Options) : List String → Except Stop Options
  | [] => .ok o
  | s :: rest =>
    match Argument.of s with
    | .option name (some value) =>
      if known.contains name then do
        let o ← o.set name value
        o.read known rest
      else .error .misuse
    | .option name none =>
      if name = "help" then .error .help
      else if known.contains name then
        match rest with
        | [] => .error .misuse
        | v :: rest =>
          match Argument.of v with
          | .plain value => do
            let o ← o.set name value
            o.read known rest
          | _ => .error .misuse
      else .error .misuse
    | .letters cs => .error (if cs.head? = some 'h' then .help else .misuse)
    | .escape => if rest.isEmpty then .ok o else .error .misuse
    | .plain _ => .error .misuse

/-! ### Commands -/

/-- The names of the commands. -/
def commandNames : List String := ["dump-access-policies", "explain", "powers"]

/-- What stands in place of a command. -/
def stopOf : Argument → List String → Stop
  | .option "help" none, _ => .help
  | .option "version" none, _ => .version
  | .letters ('h' :: _), _ => .help
  | .letters ('V' :: _), _ => .version
  | .plain "help", [] => .help
  | .plain "help", [name] => if (commandNames ++ ["help"]).contains name then .help else .misuse
  | _, _ => .misuse

/-- The inquiry that options make; it needs a resource and an action. -/
def Inquiry.ofOptions (o : Options) : Except Stop Inquiry :=
  match o.resource, o.action with
  | some resource, some action => .ok ⟨resource, action, o.prop, o.roles, o.user⟩
  | _, _ => .error .misuse

/-- The command that arguments write. -/
def Command.parse : List String → Except Stop Command
  | "dump-access-policies" :: args =>
    return .dump (← Options.empty.read ["out"] args).out
  | "explain" :: args => do
    let o ← Options.empty.read ["resource", "action", "prop", "role", "user"] args
    return .explain (← Inquiry.ofOptions o)
  | "powers" :: args => return .powers (← Options.empty.read ["role"] args).roles
  | s :: args => .error (stopOf (Argument.of s) args)
  | [] => .error .misuse

end Authorization.CommandLine
