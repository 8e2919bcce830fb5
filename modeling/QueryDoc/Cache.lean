import QueryDoc.Document.Basic

/-!
# The cache of documents

A cache lists documents by their keys, in the order in which the keys were first stored. A key that
is stored again keeps its place.
-/
namespace QueryDoc

structure Cache where
  entries : List (String × Instance Document)
  deriving Repr

namespace Cache

def empty : Cache := ⟨[]⟩

def keys (c : Cache) : List String := c.entries.map Prod.fst

def size (c : Cache) : Nat := c.entries.length

def get? (c : Cache) (key : String) : Option (Instance Document) := c.entries.lookup key

/-- Replaces the document under the key, or lists it behind all others. -/
def insert (key : String) (d : Instance Document) :
    List (String × Instance Document) → List (String × Instance Document)
  | [] => [(key, d)]
  | e :: es => if e.1 = key then (key, d) :: es else e :: insert key d es

def put (c : Cache) (key : String) (d : Instance Document) : Cache := ⟨insert key d c.entries⟩

end Cache

end QueryDoc
