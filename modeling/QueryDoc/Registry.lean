import QueryDoc.Document.Basic

/-!
# The registry of fragments

A registry lists the fragments that were seen, one instance for each name and body, in the order in
which they came. A second body under a name is a collision, which names the first one.
-/
namespace QueryDoc

/-- Do the fragments have one name and one body? -/
def Fragment.alike (f g : Fragment) : Bool := f.name == g.name && f.body == g.body

structure Registry where
  fragments : List (Instance Fragment)
  deriving Repr

/-- What a registry says to a fragment: it is new, it is known as an earlier instance, or its name
is taken by another body. -/
inductive Registration where
  | registered
  | known (earlier : Instance Fragment)
  | collision (firstBody : String)
  deriving Repr

namespace Registry

def empty : Registry := ⟨[]⟩

/-- The names in the order they were first seen. -/
def names (r : Registry) : List String := (r.fragments.map fun f => f.value.name).eraseDups

/-- The number of names. -/
def size (r : Registry) : Nat := r.names.length

/-- The instances with the given name. -/
def named (r : Registry) (name : String) : List (Instance Fragment) :=
  r.fragments.filter fun f => f.value.name == name

/-- The bodies under a name, in the order they were registered. -/
def bodies (r : Registry) (name : String) : List String :=
  (r.named name).map fun f => f.value.body

/-- The instance with the given name and body. -/
def get? (r : Registry) (name body : String) : Option (Instance Fragment) :=
  r.fragments.find? fun f => f.value.name == name && f.value.body == body

/-- Lists a fragment behind all others. -/
def add (r : Registry) (f : Instance Fragment) : Registry := ⟨r.fragments ++ [f]⟩

def register (r : Registry) (f : Instance Fragment) : Registration × Registry :=
  match r.get? f.value.name f.value.body with
  | some earlier => (.known earlier, r)
  | none =>
    match r.bodies f.value.name with
    | first :: _ => (.collision first, r.add f)
    | [] => (.registered, r.add f)

end Registry

end QueryDoc
