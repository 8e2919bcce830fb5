import QueryDoc.Grammar.Lexer
import QueryDoc.Grammar.Literal

/-!
# Reading syntax trees

A reader takes lexemes off the front of a list. The next lexeme always decides how to go on, so a
reader that refuses one has no other way to try, and the first refusal is the answer. Readers of
nested forms take the number of levels they may descend; a text of `n` lexemes has fewer than `n`.
-/
namespace QueryDoc.Grammar

open QueryDoc.Ast

/-- Why reading stopped: at a lexeme, at the end of them, or at a literal without a value. -/
inductive Refusal where
  | unexpected (l : Lexeme)
  | exhausted
  | literal (position : Position) (fault : LiteralFault)
  deriving DecidableEq, Repr

abbrev Reader := StateT (List Lexeme) (Except Refusal)

namespace Reader

/-- Refuses the next lexeme. -/
def refuse {α : Type} : Reader α := fun
  | [] => .error .exhausted
  | l :: _ => .error (.unexpected l)

/-- Takes the next lexeme if it satisfies `p`. -/
def lexeme (p : Lexeme → Bool) : Reader Lexeme := fun
  | [] => .error .exhausted
  | l :: ls => if p l then .ok (l, ls) else .error (.unexpected l)

def punctuator (p : Punctuator) : Reader Lexeme := lexeme (·.isPunctuator p)

def name : Reader Lexeme := lexeme (·.category == .name)

def word (text : String) : Reader Lexeme := lexeme (·.isWord text)

/-- Does the next lexeme satisfy `p`? At the end none does. -/
def next (p : Lexeme → Bool) : Reader Bool := fun ls => .ok (ls.head?.any p, ls)

def nextIs (p : Punctuator) : Reader Bool := next (·.isPunctuator p)

/-- Reads if the next lexeme satisfies `p`. -/
def optional {α : Type} (p : Lexeme → Bool) (r : Reader α) : Reader (Option α) := do
  if ← next p then return some (← r) else return none

/-- Reads again and again, at most `n` times, as long as the next lexeme satisfies `p`. -/
def atMost {α : Type} (p : Lexeme → Bool) (r : Reader α) : Nat → Reader (List α)
  | 0 => pure []
  | n + 1 => do
    if ← next p then
      let a ← r
      return a :: (← atMost p r n)
    else return []

/-- Reads as long as the next lexeme satisfies `p`. Each time takes a lexeme at least. -/
def many {α : Type} (p : Lexeme → Bool) (r : Reader α) : Reader (List α) := fun ls =>
  atMost p r ls.length ls

/-- Reads once, and then again up to the given punctuator or the end. -/
def someUpTo {α : Type} (close : Punctuator) (r : Reader α) : Reader (List α) := do
  let a ← r
  return a :: (← many (!·.isPunctuator close) r)

/-- The value of a literal. -/
def literal {α : Type} (l : Lexeme) : Except LiteralFault α → Reader α
  | .ok a => pure a
  | .error fault => throw (.literal l.position fault)

end Reader

open Reader

/-! ## Values -/

/-- Puts a field where the order of keys asks for it, in place of one with the same key. -/
def insertField (name : String) (v : Value) : List (String × Value) → List (String × Value)
  | [] => [(name, v)]
  | (other, w) :: fields =>
    if name < other then (name, v) :: (other, w) :: fields
    else if name = other then (name, v) :: fields
    else (other, w) :: insertField name v fields

/-- The fields of an object: in the order of their keys, and of a repeated key the last one. -/
def sortFields (fields : List (String × Value)) : List (String × Value) :=
  fields.foldl (fun sorted f => insertField f.1 f.2 sorted) []

def wordValue (text : String) : Value :=
  if text == "true" then .boolean true
  else if text == "false" then .boolean false
  else if text == "null" then .null
  else .enum text

/-- A name, a colon and a value. -/
def readField (value : Reader Value) : Reader (String × Value) := do
  let name ← name
  let _ ← punctuator .colon
  return (name.word, ← value)

/-- A value of at most `depth` levels. A constant refers to no variable. -/
def readValue (constant : Bool) : (depth : Nat) → Reader Value
  | 0 => refuse
  | depth + 1 => do
    let l ← lexeme fun l => match l.category with
      | .punctuator .dollar => !constant
      | .punctuator p => p == .squareOpen || p == .braceOpen
      | _ => true
    match l.category with
    | .name => return wordValue l.word
    | .int => return .int (← literal l ((intValue l.text).mapError .reason))
    | .float => return .float (← literal l ((floatValue l.text).mapError .reason))
    | .string => return .string (← literal l ((stringValue l.text).mapError .reason))
    | .block => return .string (← literal l (blockValue l.text))
    | .punctuator .squareOpen =>
      let values ← many (!·.isPunctuator .squareClose) (readValue constant depth)
      let _ ← punctuator .squareClose
      return .list values
    | .punctuator .braceOpen =>
      let fields ← many (!·.isPunctuator .braceClose) (readField (readValue constant depth))
      let _ ← punctuator .braceClose
      return .object (sortFields fields)
    | .punctuator _ => return .variable (← name).word

/-! ## Parts of definitions -/

def readArguments (depth : Nat) : Reader Arguments := do
  if ← nextIs .parenOpen then
    let _ ← punctuator .parenOpen
    let arguments ← someUpTo .parenClose (readField (readValue false depth))
    let _ ← punctuator .parenClose
    return arguments
  else return []

def readDirective (depth : Nat) : Reader Directive := do
  let l ← punctuator .atSign
  let name ← name
  return ⟨l.position, name.word, ← readArguments depth⟩

def readDirectives (depth : Nat) : Reader (List Directive) :=
  many (·.isPunctuator .atSign) (readDirective depth)

/-- A type of at most `depth` levels. -/
def readType : (depth : Nat) → Reader TypeRef
  | 0 => refuse
  | depth + 1 => do
    let type ← do
      if ← nextIs .squareOpen then
        let _ ← punctuator .squareOpen
        let element ← readType depth
        let _ ← punctuator .squareClose
        pure (TypeRef.list element)
      else pure (TypeRef.named (← name).word)
    if ← nextIs .bang then
      let _ ← punctuator .bang
      return .nonNull type
    else return type

def readVariable (depth : Nat) : Reader VariableDefinition := do
  let l ← punctuator .dollar
  let name ← name
  let _ ← punctuator .colon
  let type ← readType depth
  let default ← optional (·.isPunctuator .equals) do
    let _ ← punctuator .equals
    readValue true depth
  return ⟨l.position, name.word, type, default⟩

def readVariables (depth : Nat) : Reader (List VariableDefinition) := do
  if ← nextIs .parenOpen then
    let _ ← punctuator .parenOpen
    let declared ← someUpTo .parenClose (readVariable depth)
    let _ ← punctuator .parenClose
    return declared
  else return []

/-! ## Selections -/

def readSelectionSet (selection : Reader Selection) : Reader SelectionSet := do
  let opening ← punctuator .braceOpen
  let items ← someUpTo .braceClose selection
  let closing ← punctuator .braceClose
  return ⟨⟨opening.position, closing.position⟩, items⟩

/-- Does the lexeme behind three dots start an inline fragment? -/
def startsInline (l : Lexeme) : Bool :=
  l.isWord "on" || l.isPunctuator .atSign || l.isPunctuator .braceOpen

/-- The position of the next lexeme. -/
def here : Reader Position := fun
  | [] => .error .exhausted
  | l :: ls => .ok (l.position, l :: ls)

/-- Behind three dots: an inline fragment or a spread, which stand where the next lexeme stands. -/
def readSpread (depth : Nat) (selection : Reader Selection) : Reader Selection := do
  let position ← here
  if ← next startsInline then
    let type ← optional (·.isWord "on") do
      let _ ← word "on"
      name
    let directives ← readDirectives depth
    let set ← readSelectionSet selection
    return .inline position (type.map Lexeme.word) directives set.braces set.items
  else
    let name ← name
    return .spread position name.word (← readDirectives depth)

/-- A field, with the name of its value in the response in front, if it is not the field's. -/
def readFieldSelection (depth : Nat) (selection : Reader Selection) : Reader Selection := do
  let first ← name
  let second ← optional (·.isPunctuator .colon) do
    let _ ← punctuator .colon
    name
  let arguments ← readArguments depth
  let directives ← readDirectives depth
  let set ← optional (·.isPunctuator .braceOpen) (readSelectionSet selection)
  return .field first.position (second.map fun _ => first.word) (second.getD first).word arguments
    directives ((set.map SelectionSet.braces).getD ⟨first.position, first.position⟩)
    ((set.map SelectionSet.items).getD [])

/-- A selection of at most `depth` levels. -/
def readSelection : (depth : Nat) → Reader Selection
  | 0 => refuse
  | depth + 1 => do
    if ← nextIs .spread then
      let _ ← punctuator .spread
      readSpread depth (readSelection depth)
    else readFieldSelection depth (readSelection depth)

/-! ## Definitions -/

def operationType? (l : Lexeme) : Option OperationType :=
  if l.isWord "query" then some .query
  else if l.isWord "mutation" then some .mutation
  else if l.isWord "subscription" then some .subscription
  else none

def readOperation (depth : Nat) (type : OperationType) : Reader Ast.Operation := do
  let l ← name
  let name ← optional (·.category == .name) name
  let declared ← readVariables depth
  let directives ← readDirectives depth
  let selections ← readSelectionSet (readSelection depth)
  return ⟨some ⟨l.position, type, name.map Lexeme.word, declared, directives⟩, selections⟩

def readFragment (depth : Nat) : Reader Ast.Fragment := do
  let l ← word "fragment"
  let name ← name
  let _ ← word "on"
  let type ← Reader.name
  let directives ← readDirectives depth
  let selections ← readSelectionSet (readSelection depth)
  return ⟨l.position, name.word, type.word, directives, selections⟩

def readDefinition (depth : Nat) : Reader Ast.Definition := fun ls =>
  match ls with
  | [] => .error .exhausted
  | l :: _ =>
    if l.isPunctuator .braceOpen then
      (readSelectionSet (readSelection depth) ls).map fun (s, rest) =>
        (.operation ⟨none, s⟩, rest)
    else if l.isWord "fragment" then
      (readFragment depth ls).map fun (f, rest) => (.fragment f, rest)
    else
      match operationType? l with
      | some type => (readOperation depth type ls).map fun (o, rest) => (.operation o, rest)
      | none => .error (.unexpected l)

/-- One definition and any that follow, up to the last lexeme. -/
def readDefinitions (depth : Nat) : Reader (List Ast.Definition) := do
  let first ← readDefinition depth
  return first :: (← many (fun _ => true) (readDefinition depth))

/-! ## Documents -/

/-- Why a text is no document. A fault where one more definition could start has no reason. -/
inductive Failure where
  | ungrammatical (position : Position) (reason : Option Reason)
  | splitCharacter
  deriving DecidableEq, Repr

/-- Why reading failed, for lexemes that end in the given way. -/
def Failure.ofRefusal (ending : Ending) : Refusal → Failure
  | .unexpected l => ungrammatical l.position (some (.unexpected l))
  | .exhausted => ungrammatical ending.position (some (ending.fault.getD .endOfInput))
  | .literal position (.reason r) => ungrammatical position (some r)
  | .literal _ .splitCharacter => splitCharacter

/-- The definitions that lexemes with the given ending stand for. -/
def ofLexemes (ls : List Lexeme) (ending : Ending) : Except Failure (List Ast.Definition) :=
  match readDefinitions ls.length ls with
  | .error refusal => .error (.ofRefusal ending refusal)
  | .ok (definitions, _) =>
    if ending.fault.isNone then .ok definitions
    else .error (.ungrammatical ending.position none)

end QueryDoc.Grammar

namespace QueryDoc

/-- Reads the definitions of a text. -/
def Grammar.read (text : List Char) : Except Grammar.Failure (List Ast.Definition) :=
  Grammar.ofLexemes (Grammar.lexemes text).1 (Grammar.lexemes text).2

end QueryDoc
