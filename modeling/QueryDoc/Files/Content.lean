import QueryDoc.Files.Volume
import QueryDoc.Text.Decoding
import QueryDoc.Text.Quoted

/-!
# Contents of files

The content of a file is the text that its bytes encode. Messages about files show their paths as
quoted texts.
-/
namespace QueryDoc.Files

/-- Why a path has no content. -/
inductive ContentError where
  | notAFile (path : String)
  | unreadable (path : String) (fault : ReadFault)
  | undecodable (path : String) (bytes : List UInt8) (fault : Text.DecodingFault)
  deriving Repr

namespace ContentError

def message : ContentError → String
  | notAFile path => "Path is not a file: " ++ Text.quoted path
  | unreadable path fault => "Failed to read file at " ++ Text.quoted path ++ ": " ++ fault.message
  | undecodable path _ fault =>
    "File at " ++ Text.quoted path ++ " is not valid UTF-8: " ++ fault.message

/-- Errors are the same if they have one cause and their paths are equal as paths. -/
def same : ContentError → ContentError → Bool
  | notAFile a, notAFile b => samePath a b
  | unreadable a f, unreadable b g => samePath a b && f == g
  | undecodable a bytes f, undecodable b others g => samePath a b && bytes == others && f == g
  | _, _ => false

end ContentError

/-- The text of the file that a path leads to. -/
def read (v : Volume) (path : String) : Except ContentError String :=
  match v.file? path with
  | none => .error (.notAFile path)
  | some (.error fault) => .error (.unreadable path fault)
  | some (.ok bytes) => (Text.decode bytes).mapError (.undecodable path bytes)

end QueryDoc.Files
