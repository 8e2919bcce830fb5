import QueryDoc.Lexis.Lexer
import QueryDoc.Text.Pieces

/-!
# Keys

The key of a text is the text of its significant tokens, joined by single spaces. Texts that differ
only in what the grammar ignores have one key. A text is cut into definitions behind each closing
brace that brings the nesting back to the ground.
-/
namespace QueryDoc.Lexis

/-- All tokens but the end. -/
def significant (s : List Char) : List Token := (tokens s).filter Token.isSignificant

/-- The texts of tokens, joined by single spaces. -/
def joined (ts : List Token) : List Char := [' '].intercalate (ts.map Token.text)

/-- Does a token that leaves the nesting at `depth` end a definition? -/
def closesDefinition (t : Token) (depth : Int) : Bool :=
  t.kind == .punctuator .braceClose && depth ≤ 0

/-- Cuts tokens into definitions; `depth` is the nesting in front. -/
def cutDefinitions (depth : Int) : List Token → List (List Token)
  | [] => []
  | t :: ts =>
    let depth := depth + t.kind.nesting
    if closesDefinition t depth then [t] :: cutDefinitions 0 ts
    else Text.consFirst t (cutDefinitions depth ts)

/-- Cutting loses nothing. -/
@[simp] theorem flatten_cutDefinitions (depth : Int) (ts : List Token) :
    (cutDefinitions depth ts).flatten = ts := by
  fun_induction cutDefinitions depth ts <;> simp_all

end QueryDoc.Lexis

namespace QueryDoc

/-- The key of a text. -/
def key (text : String) : String := String.ofList (Lexis.joined (Lexis.significant text.toList))

/-- Is there anything in the text but ignored characters? -/
def hasTokens (text : String) : Bool := !(Lexis.significant text.toList).isEmpty

/-- The key of each definition in the text. Tokens behind the last definition make one more. -/
def definitionKeys (text : String) : List String :=
  (Lexis.cutDefinitions 0 (Lexis.significant text.toList)).map fun ts =>
    String.ofList (Lexis.joined ts)

end QueryDoc
