import QueryDoc.Command.Arguments
import QueryDoc.Command.Log
import QueryDoc.Command.Outcome
import QueryDoc.Files.Walk
import QueryDoc.Session.Basic

/-!
# Checking files

A check selects files by their extensions from what it finds at and under its paths, parses them in
one session, and reports the errors, or if there are none, what it has found.
-/
namespace QueryDoc.Command

open QueryDoc.Files

/-! ## Selecting files -/

/-- The files that were selected, the number of other files, and the errors of the walks. -/
structure Selection where
  files : List String
  skipped : Nat
  errors : List String
  deriving DecidableEq, Repr

namespace Selection

def empty : Selection := ⟨[], 0, []⟩

def add (extensions : List String) (s : Selection) : Except WalkError Entry → Selection
  | .error e => { s with errors := s.errors ++ [e.message] }
  | .ok ⟨path, isFile⟩ =>
    if !isFile then s
    else if (extension? path).any (extensions.contains ·) then { s with files := s.files ++ [path] }
    else { s with skipped := s.skipped + 1 }

/-- All that the walks from the given paths come by. -/
def entries (v : Volume) (paths : List String) : List (Except WalkError Entry) :=
  paths.flatMap (walk v)

def ofPaths (v : Volume) (extensions paths : List String) : Selection :=
  (entries v paths).foldl (add extensions) empty

/-- The file that is selected in spite of its extension: the only path that was given, if no file is
selected otherwise. -/
def exception? (v : Volume) (s : Selection) : List String → Option String
  | [path] => if s.files.isEmpty && (v.file? path).isSome then some path else none
  | _ => none

/-- Selects one file that was skipped. -/
def force (s : Selection) (path : String) : Selection :=
  { s with files := s.files ++ [path], skipped := s.skipped - 1 }

end Selection

/-- The different extensions as they are logged, in ascending order. -/
def shownExtensions (extensions : List String) : List String :=
  (extensions.eraseDups.map fun e => loggedText ("`." ++ e ++ "`")).mergeSort fun a b => a ≤ b

/-- The warning on a file that is checked in spite of its extension. -/
def exceptionWarning (extensions : List String) (path : String) : String :=
  "Proceeding to check " ++ Text.quoted path ++
    " even though it doesn't match any of the --graphql-file-exts (" ++
    ", ".intercalate (shownExtensions extensions) ++ ")."

/-! ## Parsing files -/

/-- What parsing one file after the other has come to. -/
structure Tally where
  session : Session
  next : Nat
  documents : List (Instance Document)
  warnings : List Warning
  errors : List String
  deriving Repr

namespace Tally

def start (settings : Settings) (errors : List String) : Tally :=
  ⟨.new settings, 0, [], [], errors⟩

/-- Parses one more file. Nothing is left if the whole program stops. -/
def add (v : Volume) (t : Tally) (path : String) : Option Tally :=
  match t.session.parseFile t.next v path with
  | .ok r => some { t with
      session := r.session
      next := r.next
      documents := t.documents ++ [r.document]
      warnings := t.warnings ++ r.warnings }
  | .error f => f.message?.map fun m => { t with errors := t.errors ++ [path ++ ": " ++ m] }

end Tally

/-! ## The report -/

structure Report where
  parsed : Nat
  skipped : Nat
  operations : Nat
  names : Nat
  warnings : List Warning
  deriving DecidableEq, Repr

def Report.warningText (w : Warning) : String :=
  "\n\u26a0\ufe0f Duplicate fragment name `" ++ w.fragment ++ "`:\n    first: " ++ w.firstBody ++
    "\n    new:   " ++ w.newBody

def Report.text (r : Report) : String :=
  "\u2705 All GraphQL parsed successfully:\n" ++
    "  * Parsed " ++ toString r.parsed ++ " files.\n" ++
    "  * Skipped " ++ toString r.skipped ++ " non-graphql files.\n" ++
    "  * Found " ++ toString r.operations ++ " operations.\n" ++
    "  * Found " ++ toString r.names ++ " distinct fragment names.\n" ++
    "  * Found " ++ toString r.warnings.length ++ " duplicate fragment names." ++
    String.join (r.warnings.map warningText)

def errorText (errors : List String) : String :=
  toString errors.length ++ " GraphQL errors:\n" ++ "\n".intercalate (errors.map ("  * " ++ ·))

/-- A finished check: the files it selected, and what parsing them has come to. -/
structure Check where
  selection : Selection
  tally : Tally
  logged : List String
  deriving Repr

namespace Check

/-- Selects and parses. Nothing is left if the whole program stops. -/
def run? (v : Volume) (o : CheckOptions) : Option Check :=
  let found := Selection.ofPaths v o.extensions o.paths
  let forced := found.exception? v o.paths
  let selection := forced.elim found found.force
  let settings : Settings := ⟨o.fragmentWarnings, o.fragmentVariables⟩
  (selection.files.foldlM (Tally.add v) (.start settings selection.errors)).map fun t =>
    ⟨selection, t, forced.toList.map (exceptionWarning o.extensions)⟩

/-- The report of a check without errors. -/
def report? (c : Check) : Option Report :=
  if c.tally.errors.isEmpty then some {
    parsed := c.selection.files.length
    skipped := c.selection.skipped
    operations := (c.tally.documents.flatMap fun d => d.value.operations).length
    names := c.tally.session.registry.size
    warnings := c.tally.warnings }
  else none

def outcome (c : Check) : Outcome :=
  match c.report? with
  | some r => .success c.logged r.text
  | none => .failure c.logged (errorText c.tally.errors)

end Check

end QueryDoc.Command
