import QueryDoc.Text.Pieces

/-!
# Lines

Each line of a text ends with LF, and a CR in front of the LF belongs to the line end. What follows
the last LF is one more line if there is anything.
-/
namespace QueryDoc.Text

def lines : List Char → List (List Char)
  | [] => []
  | '\r' :: '\n' :: rest => [] :: lines rest
  | '\n' :: rest => [] :: lines rest
  | c :: rest => consFirst c (lines rest)

end QueryDoc.Text
