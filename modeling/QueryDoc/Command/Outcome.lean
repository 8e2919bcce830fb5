/-!
# Outcomes

What a run leaves behind: its exit code, what it writes, and the warnings it logs.
-/
namespace QueryDoc.Command

structure Outcome where
  exit : Nat
  output : String
  errors : String
  warnings : List String
  deriving DecidableEq, Repr

namespace Outcome

/-- A run that did what it was asked to, and writes a line. -/
def success (warnings : List String) (text : String) : Outcome := ⟨0, text ++ "\n", "", warnings⟩

/-- A run that did not, and says why behind a cross. -/
def failure (warnings : List String) (text : String) : Outcome :=
  ⟨1, "", "\u274c " ++ text ++ "\n", warnings⟩

end Outcome

end QueryDoc.Command
