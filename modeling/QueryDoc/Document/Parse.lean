import QueryDoc.Document.Basic
import QueryDoc.Document.VariableGroup
import QueryDoc.Grammar.Reader

/-!
# Parsing documents

A text is read by the grammar, and each definition gets its body: the key of the part of the text
that it was cut into, or that of its printed form if the text is not cut into as many parts as it
has definitions. On request fragments may declare variables, whose groups are read on their own.
-/
namespace QueryDoc

open QueryDoc.Grammar (Reason)

/-- A place in a text where the grammar refused it, and the reason if there is one. -/
structure GrammarError where
  position : Ast.Position
  reason : Option Reason
  deriving DecidableEq, Repr

def GrammarError.message (e : GrammarError) : String :=
  "query parse error: Parse error at " ++ toString e.position.line ++ ":" ++
    toString e.position.column ++ "\n" ++ e.reason.elim "" (·.message ++ "\n")

/-- Why a text is refused: by the grammar, or for a group that holds no variables. -/
inductive SyntaxError where
  | grammar (e : GrammarError)
  | group (fragment : String) (position : Ast.Position) (cause : Option GrammarError)
  deriving DecidableEq, Repr

def SyntaxError.message : SyntaxError → String
  | grammar e => e.message
  | group fragment position cause =>
    "Invalid variable definitions on fragment `" ++ fragment ++ "` at " ++
      toString position.line ++ ":" ++ toString position.column ++ ": " ++
      cause.elim "expected a list of variable definitions" GrammarError.message

/-- How parsing fails: with an error, or by stopping the whole program. -/
inductive ParseFailure where
  | error (e : SyntaxError)
  | abort
  deriving DecidableEq, Repr

structure ParseOptions where
  fragmentVariables : Bool := false
  deriving DecidableEq, Repr

/-! ## Variable groups -/

/-- The variables between the brackets of a group, read as those of a query. -/
def VariableGroup.read (g : VariableGroup) (text : List Char) :
    Except ParseFailure FragmentVariables :=
  let inner := slice g.opening.span.last.offset g.closing.span.first.offset text
  let place : Ast.Position := ⟨g.opening.span.first.line + 1, g.opening.span.first.column + 1⟩
  let query := "query(".toList ++ inner ++ ") \x7b __typename \x7d".toList
  match Grammar.read query with
  | .ok [.operation ⟨some ⟨_, .query, _, declared, _⟩, _⟩] =>
    .ok ⟨declared, some (String.ofList (slice g.first g.last text))⟩
  | .ok _ => .error (.error (.group g.fragment place none))
  | .error (.ungrammatical position reason) =>
    .error (.error (.group g.fragment place (some ⟨position, reason⟩)))
  | .error .splitCharacter => .error .abort

/-- The text that the grammar reads, and the variables of each group with the number of its
definition. -/
def liftGroups (text : List Char) :
    Except ParseFailure (List Char × List (Nat × FragmentVariables)) := do
  let groups := VariableGroup.ofText text
  let declared ← groups.mapM fun g => do return (g.definition, ← g.read text)
  return (blankGroups groups text, declared)

/-! ## Definitions -/

/-- The definition that stands at `index` in a text. Of several groups in one definition the last
one counts. -/
def Definition.ofAst (options : ParseOptions) (groups : List (Nat × FragmentVariables))
    (index : Nat) (body : String) : Ast.Definition → Definition
  | .operation o => .operation ⟨o, body⟩
  | .fragment f =>
    let declared := (groups.reverse.lookup index).getD ⟨[], none⟩
    .fragment ⟨f, body, if options.fragmentVariables then some declared else none⟩

/-- The bodies of the definitions of a text. -/
def bodies (text : String) (asts : List Ast.Definition) : List String :=
  let cut := definitionKeys text
  if cut.length = asts.length then cut else asts.map fun a => key a.print

/-- Reads the definitions of a text. -/
def parse (options : ParseOptions) (text : String) : Except ParseFailure (List Definition) := do
  let (grammarText, groups) ←
    if options.fragmentVariables then liftGroups text.toList else pure (text.toList, [])
  match Grammar.read grammarText with
  | .ok asts =>
    return (asts.zip (bodies text asts)).mapIdx fun i (ast, body) =>
      .ofAst options groups i body ast
  | .error (.ungrammatical position reason) => throw (.error (.grammar ⟨position, reason⟩))
  | .error .splitCharacter => throw .abort

end QueryDoc
