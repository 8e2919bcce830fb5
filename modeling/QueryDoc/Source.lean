import QueryDoc.Decimal.Notation
import QueryDoc.Document.Basic

/-!
# Sources

A source is literal text with values substituted into it. A document among the values stands for its
own text where the source is assembled, and is left out of the primary text, which holds the
definitions of the source itself.
-/
namespace QueryDoc

inductive Substitution where
  | document (d : Instance Document)
  | null
  | text (s : String)
  deriving Repr

namespace Substitution

def ofBool (b : Bool) : Substitution := text (if b then "true" else "false")

def ofChar (c : Char) : Substitution := text (String.ofList [c])

def ofInt (n : Int) : Substitution := text (toString n)

def ofFloat (x : Binary64) : Substitution := text x.text

/-- The text in place of the value. -/
def render : Substitution → String
  | document d => d.value.source
  | null => ""
  | text s => s

def document? : Substitution → Option (Instance Document)
  | document d => some d
  | _ => none

end Substitution

inductive Segment where
  | literal (s : String)
  | value (v : Substitution)
  deriving Repr

namespace Segment

def render : Segment → String
  | literal s => s
  | value v => v.render

def document? : Segment → Option (Instance Document)
  | literal _ => none
  | value v => v.document?

end Segment

structure Source where
  segments : List Segment
  deriving Repr

namespace Source

def ofText (s : String) : Source := ⟨[.literal s]⟩

/-- Takes literals and values in turn, a literal first. What is left of the longer list follows. -/
def interleave : List String → List Substitution → List Segment
  | s :: ss, v :: vs => .literal s :: .value v :: interleave ss vs
  | ss, [] => ss.map .literal
  | [], vs => vs.map .value

def ofParts (literals : List String) (values : List Substitution) : Source :=
  ⟨interleave literals values⟩

/-- The documents among the values. -/
def embedded (s : Source) : List (Instance Document) := s.segments.filterMap Segment.document?

/-- The text with all values in place. -/
def assembled (s : Source) : String := String.join (s.segments.map Segment.render)

/-- The text without the embedded documents. -/
def primary (s : Source) : String :=
  String.join ((s.segments.filter fun g => g.document?.isNone).map Segment.render)

end Source

end QueryDoc
