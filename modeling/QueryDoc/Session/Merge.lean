import QueryDoc.Registry

/-!
# Merging definitions

The definitions of a source and those of the documents that it embeds become one list. Of fragments
that are alike only the first stays, and where the registry knows one, its instance takes the place.
-/
namespace QueryDoc

/-- A fragment's name stands for two different bodies. -/
structure Warning where
  fragment : String
  firstBody : String
  newBody : String
  deriving DecidableEq, Repr

def Warning.message (w : Warning) : String :=
  "Warning: fragment with name `" ++ w.fragment ++ "` already exists. Fragment names must be " ++
    "unique across every document parsed by the same engine, otherwise spreads of `..." ++
    w.fragment ++ "` are ambiguous."

/-- The state of a merge: the registry, the definitions kept so far, and the collisions met. -/
structure Merge where
  registry : Registry
  kept : List Node
  warnings : List Warning
  deriving Repr

namespace Merge

def start (r : Registry) : Merge := ⟨r, [], []⟩

/-- Is a fragment like this one among the kept definitions? -/
def keeps (m : Merge) (f : Fragment) : Bool :=
  (m.kept.filterMap Node.fragment?).any fun g => g.value.alike f

def keep (m : Merge) (r : Registry) (n : Node) : Merge :=
  { m with registry := r, kept := m.kept ++ [n] }

def warn (m : Merge) (w : Warning) : Merge := { m with warnings := m.warnings ++ [w] }

/-- Takes a fragment in that is not among the kept ones. -/
def register (m : Merge) (f : Instance Fragment) : Merge :=
  match m.registry.register f with
  | (.registered, r) => m.keep r (.fragment f)
  | (.known earlier, r) => m.keep r (.fragment earlier)
  | (.collision first, r) =>
    (m.keep r (.fragment f)).warn ⟨f.value.name, first, f.value.body⟩

def step (m : Merge) : Node → Merge
  | .operation o => m.keep m.registry (.operation o)
  | .fragment f => if m.keeps f.value then m else m.register f

def all (r : Registry) (nodes : List Node) : Merge := nodes.foldl step (start r)

end Merge

end QueryDoc
