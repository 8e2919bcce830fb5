import QueryDoc.Text.Pieces

/-!
# Arguments

The command line is read from left to right up to the first argument that settles the outcome: a
misuse, or a request for help or for the version. Options are written with two dashes and their
name, or with one dash and a letter; a pair of dashes alone makes paths of all that follows.
-/
namespace QueryDoc.Command

/-- An argument by its form. -/
inductive Word where
  | separator
  | long (name : List Char) (value : Option (List Char))
  | short (letters : List Char)
  | plain
  deriving DecidableEq, Repr

/-- A dash alone is no option. The value of an option may stand behind an equals sign. -/
def Word.ofText (s : String) : Word :=
  match s.toList with
  | ['-', '-'] => separator
  | '-' :: '-' :: option =>
    match option.dropWhile (· != '=') with
    | _ :: value => long (option.takeWhile (· != '=')) (some value)
    | [] => long option none
  | '-' :: c :: letters => short (c :: letters)
  | _ => plain

/-- What the arguments ask for instead of a run. -/
inductive Instead where
  | help
  | version
  | misuse
  deriving DecidableEq, Repr

structure CheckOptions where
  extensions : List String
  fragmentVariables : Bool
  fragmentWarnings : Bool
  paths : List String
  deriving DecidableEq, Repr

structure PrintOptions where
  fragmentVariables : Bool
  paths : List String
  deriving DecidableEq, Repr

inductive Task where
  | check (o : CheckOptions)
  | print (o : PrintOptions)
  deriving DecidableEq, Repr

def Task.paths : Task → List String
  | check o => o.paths
  | print o => o.paths

/-- A task, and whether it is to be verbose. -/
structure Request where
  verbose : Bool
  task : Task
  deriving DecidableEq, Repr

/-! ## Arguments of a task -/

/-- Which task an argument belongs to. -/
inductive TaskName where
  | check
  | print
  deriving DecidableEq, Repr

/-- What the arguments of a task have given so far. -/
structure Given where
  extensions : Option (List String) := none
  fragmentVariables : Bool := false
  noFragmentWarnings : Bool := false
  paths : List String := []
  deriving DecidableEq, Repr

/-- Adds the extensions of a list. Dots in front of an extension do not count. -/
def Given.addExtensions (g : Given) (list : List Char) : Given :=
  let added := (Text.pieces ',' list).map fun e => String.ofList (e.dropWhile (· == '.'))
  { g with extensions := some (g.extensions.getD [] ++ added) }

/-- Adds a path, which must not be empty. -/
def Given.addPath (g : Given) (path : String) : Except Instead Given :=
  if path.isEmpty then .error .misuse else .ok { g with paths := g.paths ++ [path] }

/-- Sets an option that has no value and may be given once. -/
def Given.set (task : TaskName) (g : Given) (name : List Char) : Except Instead Given :=
  if name == "help".toList then .error .help
  else if name == "experimental-fragment-variables".toList && !g.fragmentVariables then
    .ok { g with fragmentVariables := true }
  else if task == .check && name == "no-fragment-warnings".toList && !g.noFragmentWarnings then
    .ok { g with noFragmentWarnings := true }
  else .error .misuse

/-- Is the name that of the option for the list of extensions? -/
def isExtensionsOption (task : TaskName) (name : List Char) : Bool :=
  task == .check && name == "graphql-file-exts".toList

/-- Reads the arguments of a task. -/
def readGiven (task : TaskName) (g : Given) : List String → Except Instead Given
  | [] => .ok g
  | s :: rest =>
    match Word.ofText s with
    | .plain => do readGiven task (← g.addPath s) rest
    | .separator => rest.foldlM Given.addPath g
    | .short letters => .error (if letters.head? == some 'h' then .help else .misuse)
    | .long name (some value) =>
      if isExtensionsOption task name then readGiven task (g.addExtensions value) rest
      else .error .misuse
    | .long name none =>
      if isExtensionsOption task name then
        match rest with
        | value :: rest =>
          if Word.ofText value = .plain then readGiven task (g.addExtensions value.toList) rest
          else .error .misuse
        | [] => .error .misuse
      else do readGiven task (← g.set task name) rest

/-- The extensions that are looked for if none are given. -/
def defaultExtensions : List String := ["graphql", "gql"]

def Given.task (g : Given) : TaskName → Task
  | .check => .check ⟨g.extensions.getD defaultExtensions, g.fragmentVariables,
      !g.noFragmentWarnings, g.paths⟩
  | .print => .print ⟨g.fragmentVariables, g.paths⟩

/-- Reads a task, which needs one path at least. -/
def readTask (name : TaskName) (arguments : List String) : Except Instead Task := do
  let g ← readGiven name {} arguments
  if g.paths.isEmpty then throw .misuse else return g.task name

/-! ## All arguments -/

/-- Sets an option in front of the task, by its letter. -/
def setLetter (verbose : Bool) : Char → Except Instead Bool
  | 'v' => if verbose then .error .misuse else .ok true
  | 'V' => .error .version
  | 'h' => .error .help
  | _ => .error .misuse

/-- Sets an option in front of the task, by its name. -/
def setName (verbose : Bool) (name : List Char) : Except Instead Bool :=
  if name == "verbose".toList then setLetter verbose 'v'
  else if name == "version".toList then setLetter verbose 'V'
  else if name == "help".toList then setLetter verbose 'h'
  else .error .misuse

/-- Help can be asked for on a task or on help itself. -/
def readHelp : List String → Instead
  | [] | ["check"] | ["print"] | ["help"] => .help
  | _ => .misuse

def readFrom (verbose : Bool) : List String → Except Instead Request
  | [] => .error .help
  | s :: rest =>
    match Word.ofText s with
    | .separator => .error (if rest.isEmpty then .help else .misuse)
    | .short letters => do readFrom (← letters.foldlM setLetter verbose) rest
    | .long name none => do readFrom (← setName verbose name) rest
    | .long _ (some _) => .error .misuse
    | .plain =>
      if s == "check" then (readTask .check rest).map (⟨verbose, ·⟩)
      else if s == "print" then (readTask .print rest).map (⟨verbose, ·⟩)
      else .error (if s == "help" then readHelp rest else .misuse)

/-- What the arguments ask for. No arguments at all ask for help. -/
def Request.read (arguments : List String) : Except Instead Request := readFrom false arguments

end QueryDoc.Command
