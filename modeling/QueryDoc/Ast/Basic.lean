import QueryDoc.Decimal.Binary64

/-!
# Syntax trees

The syntax tree of an executable document. Positions count lines and columns from one.
-/
namespace QueryDoc.Ast

structure Position where
  line : Nat
  column : Nat
  deriving DecidableEq, Repr

/-- A value, which may refer to variables. The keys of an object are ascending and distinct. -/
inductive Value where
  | variable (name : String)
  | int (value : Int)
  | float (value : Binary64)
  | string (value : String)
  | boolean (value : Bool)
  | null
  | enum (name : String)
  | list (values : List Value)
  | object (fields : List (String × Value))
  deriving Repr

inductive TypeRef where
  | named (name : String)
  | list (element : TypeRef)
  | nonNull (type : TypeRef)
  deriving DecidableEq, Repr

abbrev Arguments := List (String × Value)

structure Directive where
  position : Position
  name : String
  arguments : Arguments
  deriving Repr

structure VariableDefinition where
  position : Position
  name : String
  type : TypeRef
  default : Option Value
  deriving Repr

/-- The positions of a pair of braces. -/
structure Braces where
  opening : Position
  closing : Position
  deriving DecidableEq, Repr

/-- A selection. A field without a selection set has no items, and its own position twice in place
of the braces. -/
inductive Selection where
  | field (position : Position) (responseName : Option String) (name : String)
    (arguments : Arguments) (directives : List Directive) (braces : Braces)
    (items : List Selection)
  | spread (position : Position) (fragment : String) (directives : List Directive)
  | inline (position : Position) (type : Option String) (directives : List Directive)
    (braces : Braces) (items : List Selection)
  deriving Repr

structure SelectionSet where
  braces : Braces
  items : List Selection
  deriving Repr

inductive OperationType where
  | query | mutation | subscription
  deriving DecidableEq, Repr

def OperationType.keyword : OperationType → String
  | query => "query"
  | mutation => "mutation"
  | subscription => "subscription"

/-- What stands in front of the selection set of an operation, unless it is a bare set. -/
structure OperationHead where
  position : Position
  type : OperationType
  name : Option String
  declared : List VariableDefinition
  directives : List Directive
  deriving Repr

structure Operation where
  head : Option OperationHead
  selections : SelectionSet
  deriving Repr

namespace Operation

/-- A bare selection set is a query. -/
def type (o : Operation) : OperationType := o.head.elim .query OperationHead.type

def name (o : Operation) : Option String := o.head.bind OperationHead.name

def declared (o : Operation) : List VariableDefinition := o.head.elim [] OperationHead.declared

def directives (o : Operation) : List Directive := o.head.elim [] OperationHead.directives

end Operation

structure Fragment where
  position : Position
  name : String
  typeCondition : String
  directives : List Directive
  selections : SelectionSet
  deriving Repr

inductive Definition where
  | operation (o : Operation)
  | fragment (f : Fragment)
  deriving Repr

end QueryDoc.Ast
