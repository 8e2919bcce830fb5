import QueryDoc.Ast.Basic
import QueryDoc.Decimal.Notation
import QueryDoc.Text.Blank
import QueryDoc.Text.Lines

/-!
# Printing syntax trees

A definition is printed with one selection a line, each block two columns further in than the one
around it. Strings of several lines are printed as block strings where that can be read back.
-/
namespace QueryDoc.Ast

/-- The columns by which a block is further in than the text around it. -/
def indentStep : Nat := 2

def margin (indent : Nat) : String := String.ofList (List.replicate indent ' ')

/-! ## Strings -/

/-- A character that a string of either form can hold as it is, line breaks and tabs apart. -/
def isPlain (c : Char) : Bool := 0x20 ≤ c.toNat && c.toNat ≤ 0xFFFF

/-- Is the text printed as a block string? It has several lines, and nothing to be escaped. -/
def isBlockText (s : List Char) : Bool :=
  s.contains '\n' && s.all fun c => c == '\n' || c == '\r' || c == '\t' || isPlain c

/-- Other characters are written with their code point in decimal, in four digits at least. -/
def decimalEscape (c : Char) : String :=
  let digits := Nat.toDigits 10 c.toNat
  "\\u" ++ String.ofList (List.replicate (4 - digits.length) '0' ++ digits)

def escapedChar (c : Char) : String :=
  match c with
  | '\r' => "\\r"
  | '\n' => "\\n"
  | '\t' => "\\t"
  | '"' => "\\\""
  | '\\' => "\\\\"
  | c => if isPlain c then String.ofList [c] else decimalEscape c

def printQuoted (s : List Char) : String := "\"" ++ String.join (s.map escapedChar) ++ "\""

/-- Three quotes inside a block string are written behind a backslash. -/
def escapeQuotes : List Char → List Char
  | '"' :: '"' :: '"' :: rest => '\\' :: '"' :: '"' :: '"' :: escapeQuotes rest
  | c :: rest => c :: escapeQuotes rest
  | [] => []

/-- A line of a block string; blank lines are left empty. -/
def blockLine (indent : Nat) (line : List Char) : String :=
  if Text.isBlankText line then "\n"
  else margin indent ++ String.ofList (escapeQuotes line) ++ "\n"

def printBlock (indent : Nat) (s : List Char) : String :=
  "\"\"\"\n" ++ String.join ((Text.lines s).map (blockLine (indent + indentStep))) ++
    margin indent ++ "\"\"\""

def printString (indent : Nat) (s : String) : String :=
  if isBlockText s.toList then printBlock indent s.toList else printQuoted s.toList

/-! ## Values and types -/

mutual

/-- A value inside a block that is `indent` columns in. -/
def Value.print (indent : Nat) : Value → String
  | .variable name => "$" ++ name
  | .int value => toString value
  | .float value => value.text
  | .string value => printString indent value
  | .boolean true => "true"
  | .boolean false => "false"
  | .null => "null"
  | .enum name => name
  | .list values => "[" ++ ", ".intercalate (printValues indent values) ++ "]"
  | .object fields => "\x7b" ++ ", ".intercalate (printFields indent fields) ++ "\x7d"

def printValues (indent : Nat) : List Value → List String
  | [] => []
  | v :: vs => v.print indent :: printValues indent vs

def printFields (indent : Nat) : List (String × Value) → List String
  | [] => []
  | (name, v) :: fields => (name ++ ": " ++ v.print indent) :: printFields indent fields

end

def TypeRef.print : TypeRef → String
  | named name => name
  | list element => "[" ++ element.print ++ "]"
  | nonNull type => type.print ++ "!"

/-! ## Definitions -/

def printArguments (indent : Nat) (arguments : Arguments) : String :=
  if arguments.isEmpty then ""
  else "(" ++ ", ".intercalate (printFields indent arguments) ++ ")"

def printDirectives (indent : Nat) (directives : List Directive) : String :=
  String.join (directives.map fun d => " @" ++ d.name ++ printArguments indent d.arguments)

def VariableDefinition.print (indent : Nat) (v : VariableDefinition) : String :=
  "$" ++ v.name ++ ": " ++ v.type.print ++ v.default.elim "" fun d => " = " ++ d.print indent

mutual

/-- A selection on lines of its own. -/
def Selection.print (indent : Nat) : Selection → String
  | .field _ responseName name arguments directives _ items =>
    margin indent ++ responseName.elim "" (· ++ ": ") ++ name ++ printArguments indent arguments ++
      printDirectives indent directives ++
      (if items.isEmpty then "" else " \x7b\n" ++ printItems (indent + indentStep) items ++
        margin indent ++ "\x7d") ++ "\n"
  | .spread _ fragment directives =>
    margin indent ++ "..." ++ fragment ++ printDirectives indent directives ++ "\n"
  | .inline _ type directives _ items =>
    margin indent ++ "..." ++ type.elim "" (" on " ++ ·) ++ printDirectives indent directives ++
      " \x7b\n" ++ printItems (indent + indentStep) items ++ margin indent ++ "\x7d\n"

def printItems (indent : Nat) : List Selection → String
  | [] => ""
  | s :: items => s.print indent ++ printItems indent items

end

/-- The selection set of a definition. -/
def SelectionSet.print (s : SelectionSet) : String :=
  "\x7b\n" ++ printItems indentStep s.items ++ "\x7d\n"

/-- The variables of an operation. A subscription shows them only behind its name, and puts nothing
between them. -/
def OperationHead.printVariables (h : OperationHead) : String :=
  let printed := h.declared.map (VariableDefinition.print 0)
  if printed.isEmpty then ""
  else if h.type == .subscription then
    if h.name.isNone then "" else "(" ++ String.join printed ++ ")"
  else "(" ++ ", ".intercalate printed ++ ")"

def OperationHead.print (h : OperationHead) : String :=
  h.type.keyword ++ h.name.elim "" (" " ++ ·) ++ h.printVariables ++
    printDirectives 0 h.directives ++ " "

def Operation.print (o : Operation) : String :=
  o.head.elim "" OperationHead.print ++ o.selections.print

/-- A fragment; `group` is the text between its name and its type condition, if any. -/
def Fragment.print (group : String) (f : Fragment) : String :=
  "fragment " ++ f.name ++ group ++ " on " ++ f.typeCondition ++
    printDirectives 0 f.directives ++ " " ++ f.selections.print

def Definition.print : Definition → String
  | operation o => o.print
  | fragment f => f.print ""

end QueryDoc.Ast
