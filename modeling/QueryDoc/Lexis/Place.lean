/-!
# Places in a text

A place counts lines, the characters and the 16-bit units since the last line end, and the bytes
since the start of the text, all from zero. LF, CR and CR followed by LF each end one line, so a
cursor remembers whether it stands behind a CR.
-/
namespace QueryDoc.Lexis

structure Place where
  line : Nat
  column : Nat
  column16 : Nat
  offset : Nat
  deriving DecidableEq, Repr

/-- The number of 16-bit units of a character. -/
def units16 (c : Char) : Nat := if c.toNat < 0x10000 then 1 else 2

structure Cursor where
  place : Place
  afterReturn : Bool
  deriving DecidableEq, Repr

namespace Cursor

def start : Cursor := ⟨⟨0, 0, 0, 0⟩, false⟩

/-- The cursor behind the next character. -/
def advance (k : Cursor) (c : Char) : Cursor :=
  let p := k.place
  let offset := p.offset + c.utf8Size
  if c == '\n' then
    ⟨if k.afterReturn then { p with offset } else ⟨p.line + 1, 0, 0, offset⟩, false⟩
  else if c == '\r' then ⟨⟨p.line + 1, 0, 0, offset⟩, true⟩
  else ⟨⟨p.line, p.column + 1, p.column16 + units16 c, offset⟩, false⟩

/-- The cursor behind a text. -/
def past (k : Cursor) (s : List Char) : Cursor := s.foldl advance k

@[simp] theorem past_nil (k : Cursor) : k.past [] = k := rfl

@[simp] theorem past_cons (k : Cursor) (c : Char) (s : List Char) :
    k.past (c :: s) = (k.advance c).past s := rfl

@[simp] theorem past_append (k : Cursor) (s t : List Char) :
    k.past (s ++ t) = (k.past s).past t := by simp [past]

end Cursor

/-- The part of a text from one place up to another. -/
structure Span where
  first : Place
  last : Place
  deriving DecidableEq, Repr

end QueryDoc.Lexis
