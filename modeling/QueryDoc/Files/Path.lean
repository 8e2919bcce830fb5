import QueryDoc.Text.Pieces

/-!
# Paths

A path is a text whose parts stand between slashes. Paths are equal if their components are: empty
parts and single dots do not count, but for a dot in front. The lengths of paths and names are
limited.
-/
namespace QueryDoc.Files

/-- The parts of a path between slashes. -/
def parts (path : String) : List String := (Text.pieces '/' path.toList).map String.ofList

inductive Component where
  | root
  | here
  | up
  | name (s : String)
  deriving DecidableEq, Repr

def component? (part : String) : Option Component :=
  if part == "" || part == "." then none else if part == ".." then some .up else some (.name part)

def components (path : String) : List Component :=
  match parts path with
  | "" :: part :: rest => .root :: (part :: rest).filterMap component?
  | "." :: rest => .here :: rest.filterMap component?
  | all => all.filterMap component?

def samePath (a b : String) : Bool := components a == components b

/-- How many bytes a name may have. -/
def nameLimit : Nat := 255

/-- How many bytes a path may have. -/
def pathLimit : Nat := 4095

/-- Can a text be a path at all? -/
def isPath (s : String) : Bool :=
  !s.isEmpty && s.utf8ByteSize ≤ pathLimit && !s.toList.contains '\x00'

/-- A path without the slashes at its end. -/
def trimSlashes (path : String) : String :=
  String.ofList (path.toList.reverse.dropWhile (· == '/')).reverse

/-- Leaves out the parts in front that do not count. -/
def dropEmptyParts (parts : List String) : List String :=
  parts.dropWhile fun part => part == "" || part == "."

/-- A path without its last component. -/
def parent (path : String) : String :=
  let kept := dropEmptyParts ((dropEmptyParts (parts path).reverse).drop 1)
  if kept.isEmpty && path.front == '/' then "/" else "/".intercalate kept.reverse

/-- What stands behind the last dot of the last name, unless that dot is its first character. -/
def extension? (path : String) : Option String :=
  match (components path).getLast? with
  | some (.name s) =>
    let back := s.toList.reverse
    match back.dropWhile (· != '.') with
    | _ :: _ :: _ => some (String.ofList (back.takeWhile (· != '.')).reverse)
    | _ => none
  | _ => none

/-- The path of an entry in a folder. -/
def join (folder name : String) : String :=
  if folder.toList.getLast? == some '/' then folder ++ name else folder ++ "/" ++ name

end QueryDoc.Files
