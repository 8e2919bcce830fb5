/-!
# Pieces

A list is cut into pieces from its end: an element that does not end a piece goes in front of the
first piece of what follows it.
-/
namespace QueryDoc.Text

/-- Puts an element in front of the first piece, or starts one. -/
def consFirst {α : Type} (a : α) : List (List α) → List (List α)
  | [] => [[a]]
  | p :: ps => (a :: p) :: ps

@[simp] theorem flatten_consFirst {α : Type} (a : α) (ps : List (List α)) :
    (consFirst a ps).flatten = a :: ps.flatten := by
  cases ps <;> rfl

/-- The pieces of a text between separators; there is one piece more than separators. -/
def pieces (separator : Char) : List Char → List (List Char)
  | [] => [[]]
  | c :: s => if c == separator then [] :: pieces separator s else consFirst c (pieces separator s)

end QueryDoc.Text
