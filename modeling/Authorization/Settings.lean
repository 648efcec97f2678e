import Authorization.Simplification.Optimizer
import Authorization.Text.Keyword

/-!
# Settings

How an engine is run: whether a denial is enforced, whether resolved permissions
are kept, and how conditions are optimized. Settings are read from variables of
the environment; what a variable does not say in a way that is understood stays
as usual.
-/

namespace Authorization

/-- What comes of a denial. -/
inductive Mode
  /-- Nothing is checked. -/
  | off
  /-- A denial is warned of. -/
  | advisory
  /-- A denial is an error. -/
  | strict
  deriving DecidableEq, Repr

namespace Mode

/-- The name of a mode. -/
def name : Mode → String
  | off => "off"
  | advisory => "advisory"
  | strict => "strict"

/-- The mode that a text names; any text but the names of the others means the strict
    one. -/
def parse (s : String) : Mode :=
  let keyword := Text.keyword s
  if keyword = "off" then .off else if keyword = "advisory" then .advisory else .strict

end Mode

/-- How an engine is run. -/
structure Settings where
  /-- What comes of a denial. -/
  mode : Mode
  /-- Whether resolved permissions are kept. -/
  cache : Bool
  /-- Whether conditions are optimized before the database gets them. -/
  optimizeFilters : Bool
  /-- The most passes over a condition. -/
  maxPasses : Nat
  deriving DecidableEq, Repr

namespace Settings

/-- The settings where nothing else is said. -/
def usual : Settings := ⟨.strict, true, true, Optimizer.usualPasses⟩

instance : Inhabited Settings := ⟨usual⟩

/-- The optimizer that the settings ask for. -/
def optimizer (s : Settings) : Optimizer := .standard s.maxPasses

/-! ### Reading -/

/-- The words for yes. -/
def affirmative : List String := ["1", "true", "yes", "on"]

/-- The words for no. -/
def negative : List String := ["0", "false", "no", "off"]

/-- What a text answers, if it is a word for yes or for no. -/
def flag? (s : String) : Option Bool :=
  let keyword := Text.keyword s
  if affirmative.contains keyword then some true
  else if negative.contains keyword then some false
  else none

/-- The number with decimal digits `cs`, `n` being the number read before. -/
def readDigits? (n : Nat) : List Char → Option Nat
  | [] => some n
  | c :: cs => if c.isDigit then readDigits? (n * 10 + (c.toNat - '0'.toNat)) cs else none

/-- The number that a text writes: digits, after a plus sign if there is one. -/
def number? (s : String) : Option Nat :=
  match s.toList with
  | [] | ['+'] => none
  | '+' :: cs => readDigits? 0 cs
  | cs => readDigits? 0 cs

/-- The number of passes that a text writes: at least one, and of 64 bits. -/
def passes? (s : String) : Option Nat :=
  (number? s).filter fun n => 0 < n && n < Nat.pow 2 64

/-- The settings that variables of the environment ask for. -/
def ofVariables (value? : String → Option String) : Settings where
  mode := ((value? "AUTHZ_MODE").map Mode.parse).getD usual.mode
  cache := ((value? "AUTHZ_CACHE").bind flag?).getD usual.cache
  optimizeFilters :=
    ((value? "AUTHZ_OPTIMIZE_DB_FILTERS").bind flag?).getD usual.optimizeFilters
  maxPasses := ((value? "AUTHZ_OPTIMIZER_MAX_PASSES").bind passes?).getD usual.maxPasses

end Settings

end Authorization
