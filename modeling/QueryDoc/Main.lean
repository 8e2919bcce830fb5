import QueryDoc.Command.Run

/-!
# The program

Loads the part of the file system that a request can reach, runs the request on it, and writes the
outcome.
-/
namespace QueryDoc

open QueryDoc.Files

/-- The bytes of a file, or why they cannot be read. -/
def loadBytes (path : String) : IO Bytes := do
  try return .ok (← IO.FS.readBinFile path).toList
  catch
    | .permissionDenied .. => return .error .permissionDenied
    | .noFileOrDirectory .. => return .error .notFound
    | _ => return .error .unexpectedEnd

/-- The place of an absolute path. -/
def placeOf (path : String) : Place := (parts path).filter (!·.isEmpty)

def pathOf (place : Place) : String := "/" ++ "/".intercalate place

/-- What has been loaded, and the folders whose entries all are. -/
structure Loaded where
  volume : Volume
  complete : List Place

abbrev Load := StateT Loaded IO

/-- Loads one entry of a folder unless it is known. A link that leads nowhere has no target. -/
def loadEntry (folder : Place) (name : String) : Load Unit := do
  let place := folder ++ [name]
  let v := (← get).volume
  if (v.at? place).isSome || !(v.at? folder).any Item.isFolder then return
  let entries ← (← IO.FS.realPath (pathOf folder)).readDir
  let some entry := entries.find? (·.fileName == name) | return
  let record (item : Item) : Load Unit :=
    modify fun l => { l with volume := l.volume.put place item }
  match (← entry.path.symlinkMetadata).type with
  | .dir => record .folder
  | .file => record (.file (← loadBytes (pathOf place)))
  | .symlink =>
    if ← entry.path.pathExists then
      record (.link (toString (← IO.FS.realPath entry.path)))
    else record (.link "")
  | .other => record .special

/-- Loads the entries on the way to a place, which leads through no links. -/
def loadPlace (place : Place) : Load Unit := do
  let mut folder : Place := []
  for name in place do
    loadEntry folder name
    folder := folder ++ [name]

/-- Loads the entries on the way along a path from a folder, and tells where it leads. -/
def loadWay (folder : Place) : List String → Load Place
  | [] => return folder
  | part :: rest => do
    if part == "" || part == "." then loadWay folder rest
    else if part == ".." then loadWay folder.dropLast rest
    else
      loadEntry folder part
      let place := folder ++ [part]
      match (← get).volume.at? place with
      | some (.link target) =>
        if target.isEmpty then return place
        loadPlace (placeOf target)
        loadWay (placeOf target) rest
      | _ => loadWay place rest

/-- Loads what is under a place. -/
partial def loadUnder (place : Place) : Load Unit := do
  let l ← get
  match l.volume.at? place with
  | some .folder =>
    if l.complete.contains place then return
    set { l with complete := place :: l.complete }
    for entry in ← (← IO.FS.realPath (pathOf place)).readDir do
      loadUnder (← loadWay place [entry.fileName])
  | _ => return

/-- Loads what is at and under some paths. -/
def loadPaths (paths : List String) : IO Volume := do
  let home := placeOf (toString (← IO.currentDir))
  let load : Load Unit := do
    loadPlace home
    for path in paths do
      loadUnder (← loadWay (Volume.startOf path home) (parts path))
  let ((), l) ← load.run ⟨⟨[], home⟩, []⟩
  return l.volume

def writeOutcome (o : Command.Outcome) : IO UInt32 := do
  for w in o.warnings do IO.eprintln ("WARN " ++ w)
  IO.print o.output
  IO.eprint o.errors
  return UInt32.ofNat o.exit

/-- The exit code of a program that stopped in the middle. -/
def abortCode : UInt32 := 101

def runArguments (arguments : List String) : IO UInt32 := do
  match Command.Request.read arguments with
  | .error .help => IO.print Command.helpText; return 0
  | .error .version => IO.print Command.versionText; return 0
  | .error .misuse => IO.eprint Command.helpText; return 2
  | .ok request =>
    let v ← loadPaths request.task.paths
    match request.run? v (← IO.getEnv "LOG_LEVEL") with
    | some o => writeOutcome o
    | none => return abortCode

end QueryDoc

def main (arguments : List String) : IO UInt32 := QueryDoc.runArguments arguments
