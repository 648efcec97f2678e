import Authorization.CommandLine.Report

/-!
# The tool

The tool reads its arguments and the environment, prints its report, and writes
a file if it is told to.
-/

namespace Authorization

/-- The variables of the environment that are read. -/
def variableNames : List String :=
  ["AUTHZ_MODE", "AUTHZ_CACHE", "AUTHZ_OPTIMIZE_DB_FILTERS", "AUTHZ_OPTIMIZER_MAX_PASSES"]

/-- A random identifier. -/
def randomUuid : IO Uuid := do
  let bytes ← IO.getRandomBytes 16
  return .ofRandom (bytes.toList.foldl (fun n b => n * 256 + b.toNat) 0)

/-- Why a file could not be written. -/
def reason : IO.Error → String
  | .noFileOrDirectory _ number text | .permissionDenied _ number text
  | .inappropriateType _ number text | .invalidArgument _ number text
  | .resourceExhausted _ number text | .noSuchThing _ number text
  | .alreadyExists _ number text | .interrupted _ number text
  | .resourceBusy number text | .resourceVanished number text
  | .illegalOperation number text | .unsupportedOperation number text
  | .hardwareFault number text | .unsatisfiedConstraints number text
  | .protocolError number text | .timeExpired number text | .otherError number text =>
    CommandLine.Report.systemError text number.toNat
  | e => toString e

/-- Writes a text to a file, up to the device. -/
def put (path text : String) : IO Unit := do
  let file ← IO.FS.Handle.mk path .write
  file.putStr text
  file.flush

/-- Writes the file of a report, if there is one. -/
def writeFile (r : CommandLine.Report) : IO CommandLine.Report := do
  match r.file with
  | none => return r
  | some (path, contents) =>
    try
      put path contents
      return r
    catch e => return .unwritten path (reason e)

end Authorization

open Authorization in
/-- Does what the arguments say. -/
def main (args : List String) : IO UInt32 := do
  let values ← variableNames.mapM fun name => return (name, ← IO.getEnv name)
  let value? := fun name => (List.lookup name values).join
  let report ← writeFile (CommandLine.report args value? (← randomUuid))
  IO.print report.output
  IO.eprint report.error
  return report.code.toUInt32
