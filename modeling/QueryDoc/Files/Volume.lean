import QueryDoc.Files.Path

/-!
# Volumes

A volume lists the files, folders and links of a file system by their places, the names from the top
down to them. Looking a path up walks from the working folder, or from the top, and follows links.
-/
namespace QueryDoc.Files

/-- Why the bytes of a file cannot be read. -/
inductive ReadFault where
  | notFound
  | permissionDenied
  | unexpectedEnd
  deriving DecidableEq, Repr

def ReadFault.message : ReadFault → String
  | notFound => "entity not found"
  | permissionDenied => "permission denied"
  | unexpectedEnd => "unexpected end of file"

/-- What a file gives when it is read. -/
abbrev Bytes := Except ReadFault (List UInt8)

inductive Item where
  | file (bytes : Bytes)
  | folder
  | link (target : String)
  /-- Neither of these, such as a device. -/
  | special
  deriving Repr

def Item.isFolder : Item → Bool
  | folder => true
  | _ => false

abbrev Place := List String

structure Volume where
  items : List (Place × Item)
  workingFolder : Place := []
  deriving Repr

/-- Why a path leads nowhere. -/
inductive LookupError where
  | notFound
  | notAFolder
  | nameTooLong
  | tooManyLinks
  deriving DecidableEq, Repr

def LookupError.message : LookupError → String
  | notFound => "No such file or directory (os error 2)"
  | notAFolder => "Not a directory (os error 20)"
  | nameTooLong => "File name too long (os error 36)"
  | tooManyLinks => "Too many levels of symbolic links (os error 40)"

/-- Where a path leads: to an item, to a place in a folder where nothing is yet, or nowhere. Slashes
may follow the name of what is not there. -/
inductive Arrival where
  | found (place : Place) (item : Item)
  | vacant (place : Place) (slashes : Bool)
  | lost (e : LookupError)

def Arrival.toExcept : Arrival → Except LookupError (Place × Item)
  | found place item => .ok (place, item)
  | vacant _ _ => .error .notFound
  | lost e => .error e

namespace Volume

/-- The item at a place. The top is a folder. -/
def at? (v : Volume) : Place → Option Item
  | [] => some .folder
  | place => v.items.lookup place

/-- How far the parts of a path lead: to their end, or to a link with parts behind it. -/
inductive Progress where
  | arrived (a : Arrival)
  | redirected (folder : Place) (target : String) (rest : List String)

/-- Follows the parts of a path from a folder up to the first link. A link in the last place counts
as an item unless `follow` is set. -/
def advance (v : Volume) (follow : Bool) (folder : Place) : List String → Progress
  | [] => .arrived (.found folder .folder)
  | part :: rest =>
    if part == "" || part == "." then v.advance follow folder rest
    else if part == ".." then v.advance follow folder.dropLast rest
    else if nameLimit < part.utf8ByteSize then .arrived (.lost .nameTooLong)
    else
      let place := folder ++ [part]
      match v.at? place with
      | none =>
        .arrived (if rest.all (·.isEmpty) then .vacant place !rest.isEmpty else .lost .notFound)
      | some .folder => v.advance follow place rest
      | some (.link target) =>
        if rest.isEmpty && !follow then .arrived (.found place (.link target))
        else .redirected folder target rest
      | some item => .arrived (if rest.isEmpty then .found place item else .lost .notAFolder)

/-- The folder that a path starts from. -/
def startOf (path : String) (folder : Place) : Place := if path.front == '/' then [] else folder

/-- Follows the parts of a path, through at most `links` links. -/
def follow (v : Volume) (followLast : Bool) : (links : Nat) → Place → List String → Arrival
  | links, folder, todo =>
    match v.advance followLast folder todo with
    | .arrived a => a
    | .redirected folder target rest =>
      match links with
      | 0 => .lost .tooManyLinks
      | links + 1 =>
        if target.isEmpty then .lost .notFound
        else v.follow followLast links (startOf target folder) (parts target ++ rest)

/-- How many links a path may lead through. -/
def linkLimit : Nat := 40

/-- Where a path leads from the working folder. -/
def arrival (v : Volume) (followLast : Bool) (path : String) : Arrival :=
  if path.isEmpty then .lost .notFound
  else if pathLimit < path.utf8ByteSize then .lost .nameTooLong
  else v.follow followLast linkLimit (startOf path v.workingFolder) (parts path)

/-- The place and the item that a path leads to. -/
def lookup (v : Volume) (followLast : Bool) (path : String) : Except LookupError (Place × Item) :=
  (v.arrival followLast path).toExcept

/-- The bytes of the file that a path leads to. -/
def file? (v : Volume) (path : String) : Option Bytes :=
  match v.lookup true path with
  | .ok (_, .file bytes) => some bytes
  | _ => none

/-- Puts a name where the order of names asks for it. -/
def insertName (name : String) : List String → List String
  | [] => [name]
  | other :: names =>
    if name ≤ other then name :: other :: names else other :: insertName name names

/-- The names in a folder in ascending order. -/
def names (v : Volume) (folder : Place) : List String :=
  (v.items.filterMap fun (place, _) =>
    if place.dropLast = folder then place.getLast? else none).foldr insertName []

/-! ## Making items

What cannot be made leaves the volume as it is, the folders on the way apart.
-/

/-- Puts an item at a place, in place of one that is there. -/
def put (v : Volume) (place : Place) (item : Item) : Volume :=
  { v with items := (v.items.filter (·.1 != place)) ++ [(place, item)] }

/-- Makes the folders that the parts of a path name and that are not there, up to a part that is no
folder. -/
def makeFolders (v : Volume) (folder : Place) : List String → Volume
  | [] => v
  | part :: rest =>
    match v.follow false linkLimit folder [part] with
    | .vacant place _ => (v.put place .folder).makeFolders place rest
    | .found _ _ =>
      match v.follow true linkLimit folder [part] with
      | .found place .folder => v.makeFolders place rest
      | _ => v
    | .lost _ => v

/-- Makes the folders on the way along a path. -/
def makeWay (v : Volume) (path : String) : Volume :=
  if isPath path then v.makeFolders (startOf path v.workingFolder) (parts path) else v

/-- Writes a file, to where a link leads. -/
def write (v : Volume) (path : String) (bytes : Bytes) : Volume :=
  match v.arrival true path with
  | .found place (.file _) | .vacant place false => v.put place (.file bytes)
  | _ => v

/-- Makes a folder where nothing is. -/
def makeFolder (v : Volume) (path : String) : Volume :=
  match v.arrival false (trimSlashes path) with
  | .vacant place _ => v.put place .folder
  | _ => v

/-- Makes a link where nothing is. It may lead anywhere. -/
def makeLink (v : Volume) (path target : String) : Volume :=
  match v.arrival false path, isPath target with
  | .vacant place false, true => v.put place (.link target)
  | _, _ => v

/-- Makes an item at a path unless it is special, and the folders on the way to it. -/
def make (v : Volume) (path : String) (item : Item) : Volume :=
  let v := v.makeWay (parent path)
  if !isPath path then v
  else match item with
    | .file bytes => v.write path bytes
    | .folder => v.makeFolder path
    | .link target => v.makeLink path target
    | .special => v

end Volume

end QueryDoc.Files
