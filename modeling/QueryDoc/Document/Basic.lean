import QueryDoc.Ast.Printer

/-!
# Documents

A definition is a syntax tree with its body, the key of its own text. Fragments with one name and
one body are taken for the same fragment. A document holds instances of definitions, which are
told apart by numbers, so that one instance can be part of many documents.
-/
namespace QueryDoc

/-- The variables of a fragment, and the text of their group if it has one. -/
structure FragmentVariables where
  definitions : List Ast.VariableDefinition
  source : Option String
  deriving Repr

structure Operation where
  ast : Ast.Operation
  body : String
  deriving Repr

/-- A fragment. Its variables are absent if they were not asked for when it was read. -/
structure Fragment where
  ast : Ast.Fragment
  body : String
  declared : Option FragmentVariables
  deriving Repr

namespace Fragment

def name (f : Fragment) : String := f.ast.name

/-- The variables' group stands behind the name, as it was written. -/
def print (f : Fragment) : String :=
  f.ast.print ((f.declared.bind FragmentVariables.source).getD "")

end Fragment

/-- Something that has a number of its own. -/
structure Instance (α : Type) where
  id : Nat
  value : α
  deriving Repr

/-- The definitions of a text, operations and fragments in the order they stand in. -/
inductive Definition where
  | operation (o : Operation)
  | fragment (f : Fragment)
  deriving Repr

/-- An instance of a definition. -/
inductive Node where
  | operation (o : Instance Operation)
  | fragment (f : Instance Fragment)
  deriving Repr

def Definition.instance (id : Nat) : Definition → Node
  | operation o => .operation ⟨id, o⟩
  | fragment f => .fragment ⟨id, f⟩

namespace Node

def id : Node → Nat
  | operation o => o.id
  | fragment f => f.id

/-- The kind of a definition, by its name in the reference syntax tree. -/
def kind : Node → String
  | operation _ => "OperationDefinition"
  | fragment _ => "FragmentDefinition"

def name? : Node → Option String
  | operation o => o.value.ast.name
  | fragment f => some f.value.name

def body : Node → String
  | operation o => o.value.body
  | fragment f => f.value.body

def fragment? : Node → Option (Instance Fragment)
  | operation _ => none
  | fragment f => some f

def operation? : Node → Option (Instance Operation)
  | operation o => some o
  | fragment _ => none

def print : Node → String
  | operation o => o.value.ast.print
  | fragment f => f.value.print

/-- Two nodes are the same if they are one instance. -/
def same : Node → Node → Bool
  | operation a, operation b => a.id == b.id
  | fragment a, fragment b => a.id == b.id
  | _, _ => false

end Node

/-- The nodes of a text, and the text itself. -/
structure Document where
  definitions : List Node
  source : String
  deriving Repr

namespace Document

def fragments (d : Document) : List (Instance Fragment) := d.definitions.filterMap Node.fragment?

def operations (d : Document) : List (Instance Operation) :=
  d.definitions.filterMap Node.operation?

/-- The first fragment with the given name. -/
def fragment? (d : Document) (name : String) : Option (Instance Fragment) :=
  d.fragments.find? fun f => f.value.name == name

/-- The definitions with an empty line between them. -/
def print (d : Document) : String := "\n".intercalate (d.definitions.map Node.print)

end Document

end QueryDoc
