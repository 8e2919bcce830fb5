import QueryDoc.Command.Check
import QueryDoc.Command.Print

/-!
# Running requests

A request runs on a volume. The level of the log can be set from outside; a level that does not
exist is warned about first of all, unless the request is verbose, which settles the level.
-/
namespace QueryDoc.Command

open QueryDoc.Files

def logLevels : List String :=
  ["DEBUG", "debug", "INFO", "info", "TRACE", "trace", "VERBOSE", "verbose"]

/-- The warning on a level that does not exist. Blanks around a level do not count. -/
def levelWarnings (verbose : Bool) (level : Option String) : List String :=
  match level with
  | none => []
  | some s =>
    let trimmed := String.ofList (Text.trim s.toList)
    if verbose || logLevels.contains trimmed then []
    else ["Invalid `LOG_LEVEL` environment variable value: `" ++ trimmed ++ "`"]

def Task.run? (v : Volume) : Task → Option Outcome
  | check o => (Check.run? v o).map Check.outcome
  | print o => print? v o

/-- What a request comes to, its warnings as they are logged. Nothing is left if the whole program
stops. -/
def Request.run? (v : Volume) (level : Option String) (r : Request) : Option Outcome :=
  (r.task.run? v).map fun o =>
    { o with warnings := (levelWarnings r.verbose level ++ o.warnings).map loggedText }

/-- The line that a request for the version is answered with. -/
def versionText : String := "graphql-tag 0.0.1\n"

def helpText : String :=
  "Check and print GraphQL documents.\n\n" ++
  "Usage: graphql-tag [-v] check [OPTIONS] PATHS\n" ++
  "       graphql-tag [-v] print [--experimental-fragment-variables] PATHS\n\n" ++
  "Options of check:\n" ++
  "  --graphql-file-exts EXTS           extensions to look for, between commas\n" ++
  "  --experimental-fragment-variables  accept variable definitions on fragments\n" ++
  "  --no-fragment-warnings             do not report reused fragment names\n"

end QueryDoc.Command
