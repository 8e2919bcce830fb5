import QueryDoc.Ast.Basic
import QueryDoc.Punctuator
import QueryDoc.Text.Quoted

/-!
# Lexemes of the grammar

The grammar reads lexemes, which are counted in lines and columns of their own. A text that stops
being a sequence of lexemes ends with the reason.
-/
namespace QueryDoc.Grammar

open QueryDoc.Ast (Position)

inductive Category where
  | punctuator (p : Punctuator)
  | name
  | int
  | float
  | string
  | block
  deriving DecidableEq, Repr

def Category.label : Category → String
  | punctuator _ => "Punctuator"
  | name => "Name"
  | int => "IntValue"
  | float => "FloatValue"
  | string => "StringValue"
  | block => "BlockString"

structure Lexeme where
  category : Category
  text : List Char
  position : Position
  deriving DecidableEq, Repr

namespace Lexeme

def word (l : Lexeme) : String := String.ofList l.text

def isPunctuator (l : Lexeme) (p : Punctuator) : Bool := l.category == .punctuator p

def isWord (l : Lexeme) (name : String) : Bool := l.category == .name && l.text == name.toList

end Lexeme

/-- Why a text is not in the grammar. -/
inductive Reason where
  | unexpected (l : Lexeme)
  | endOfInput
  | nestingLimit
  | bareDot
  | badInt (text : List Char)
  | badFloat (text : List Char)
  | openString
  | openBlock
  | strayCharacter (c : Char)
  | intTooLarge
  | intTooSmall
  | invalidFloat
  | notCodePoint (text : List Char)
  | shortEscape (text : List Char)
  | badEscape (c : Char)
  deriving DecidableEq, Repr

def Reason.message : Reason → String
  | unexpected l => "Unexpected `" ++ l.word ++ "[" ++ l.category.label ++ "]`"
  | endOfInput => "Unexpected end of input"
  | nestingLimit => "Recursion limit exceeded"
  | bareDot => "Unexpected bare dot '.' is not supported, only \"...\""
  | badInt text => "Unexpected unsupported integer " ++ Text.quoted (String.ofList text)
  | badFloat text => "Unexpected unsupported float " ++ Text.quoted (String.ofList text)
  | openString => "Unexpected unterminated string value"
  | openBlock => "Unexpected unterminated block string value"
  | strayCharacter c => "Unexpected unexpected character " ++ Text.quotedChar c
  | intTooLarge => "number too large to fit in target type"
  | intTooSmall => "number too small to fit in target type"
  | invalidFloat => "invalid float literal"
  | notCodePoint text => "Unexpected " ++ String.ofList text ++ " is not a valid unicode code point"
  | shortEscape text =>
    "Unexpected \\u must have 4 characters after it, only found '" ++ String.ofList text ++ "'"
  | badEscape c => "Unexpected bad escaped char " ++ Text.quotedChar c

/-- Where a sequence of lexemes ends, and why if the text goes on. -/
structure Ending where
  position : Position
  fault : Option Reason
  deriving DecidableEq, Repr

end QueryDoc.Grammar
