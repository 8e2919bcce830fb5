import QueryDoc.Command.Arguments
import QueryDoc.Command.Outcome
import QueryDoc.Session.Basic

/-!
# Printing files

Files are parsed one after the other in one session and printed, each behind its path and the kinds
of its definitions. The first one that cannot be parsed ends the run, and nothing is printed.
-/
namespace QueryDoc.Command

open QueryDoc.Files

/-- A document behind the path of its file and the kinds of its definitions. -/
def printed (path : String) (d : Document) : String :=
  "# " ++ path ++ "\n" ++ String.join (d.definitions.map fun n => "# kind: " ++ n.kind ++ "\n") ++
    d.print ++ "\n"

/-- Prints files in a session behind the text that was printed before. Nothing is left if the whole
program stops. -/
def printFiles (v : Volume) (s : Session) (next : Nat) (text : String) (warnings : List String) :
    List String → Option Outcome
  | [] => some (.success warnings (String.ofList (Text.trimEnd text.toList)))
  | path :: paths =>
    match s.parseFile next v path with
    | .ok r => printFiles v r.session r.next (text ++ printed path r.document.value)
        (warnings ++ r.warnings.map Warning.message) paths
    | .error f => f.message?.map fun m => .failure warnings (path ++ ": " ++ m)

def print? (v : Volume) (o : PrintOptions) : Option Outcome :=
  printFiles v (.new { fragmentVariables := o.fragmentVariables }) 0 "" [] o.paths

end QueryDoc.Command
