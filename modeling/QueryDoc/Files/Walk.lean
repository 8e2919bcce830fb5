import QueryDoc.Files.Volume

/-!
# Walking through folders

A walk lists what is at and under a path, a folder in front of its entries and those in ascending
order of their names. Links are followed, except to a folder that the walk is in.
-/
namespace QueryDoc.Files

inductive WalkError where
  | lookup (path : String) (e : LookupError)
  | loop (path ancestor : String)
  deriving DecidableEq, Repr

def WalkError.message : WalkError → String
  | lookup path e => "IO error for operation on " ++ path ++ ": " ++ e.message
  | loop path ancestor =>
    "File system loop found: " ++ path ++ " points to an ancestor " ++ ancestor

structure Entry where
  path : String
  isFile : Bool
  deriving DecidableEq, Repr

/-- A folder that a walk is in: its path on this walk and its place. -/
structure Ancestor where
  path : String
  place : Place

/-- Finds what is at a path, through a link if need be. Only links can lead back to an ancestor. -/
def arrive (v : Volume) (ancestors : List Ancestor) (path : String) :
    Except WalkError (Place × Item) := do
  match ← (v.lookup false path).mapError (.lookup path) with
  | (_, .link _) =>
    let (place, item) ← (v.lookup true path).mapError (.lookup path)
    match ancestors.find? fun a => item.isFolder && a.place == place with
    | some a => throw (.loop path a.path)
    | none => return (place, item)
  | found => return found

/-- Walks from a path, through at most `depth` levels of folders. A folder tells which of its
entries are files, and those are listed whether or not their paths lead to them. -/
def walkFrom (v : Volume) (ancestors : List Ancestor) :
    (depth : Nat) → String → List (Except WalkError Entry)
  | 0, _ => []
  | depth + 1, path =>
    match arrive v ancestors path with
    | .error e => [.error e]
    | .ok (place, .folder) =>
      .ok ⟨path, false⟩ ::
        (v.names place).flatMap fun name =>
          match v.at? (place ++ [name]) with
          | some (.file _) => [.ok ⟨join path name, true⟩]
          | _ => walkFrom v (⟨path, place⟩ :: ancestors) depth (join path name)
    | .ok (_, .file _) => [.ok ⟨path, true⟩]
    | .ok (_, .link _) | .ok (_, .special) => [.ok ⟨path, false⟩]

/-- All entries at and under a path. On one branch of the walk no two links lead to one folder, and
from one link to the next it only descends, so there are more levels than it can use. -/
def walk (v : Volume) (path : String) : List (Except WalkError Entry) :=
  let folders := v.items.length + 2
  walkFrom v [] (folders * folders) path

end QueryDoc.Files
