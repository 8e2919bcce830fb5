/-!
# Scanned text

The result of scanning: what was found, the text that it takes, and the rest. The source of a scan
is the text and the rest together, and the lemmas say how each way of building a scan extends it.
-/
namespace QueryDoc

structure Scanned (κ : Type) where
  kind : κ
  text : List Char
  rest : List Char
  deriving DecidableEq, Repr

namespace Scanned

variable {κ : Type}

/-- The text that was scanned. -/
def source (s : Scanned κ) : List Char := s.text ++ s.rest

/-- Puts text that was read before in front. -/
def behind (front : List Char) (s : Scanned κ) : Scanned κ := { s with text := front ++ s.text }

/-- Takes the longest start of `rest` whose characters satisfy `p`. -/
def extend (kind : κ) (text : List Char) (p : Char → Bool) (rest : List Char) : Scanned κ :=
  ⟨kind, text ++ rest.takeWhile p, rest.dropWhile p⟩

@[simp] theorem source_mk (kind : κ) (text rest : List Char) :
    (mk kind text rest).source = text ++ rest := rfl

@[simp] theorem text_behind (front : List Char) (s : Scanned κ) :
    (s.behind front).text = front ++ s.text := rfl

@[simp] theorem source_behind (front : List Char) (s : Scanned κ) :
    (s.behind front).source = front ++ s.source := by simp [behind, source]

@[simp] theorem source_extend (kind : κ) (text : List Char) (p : Char → Bool)
    (rest : List Char) : (extend kind text p rest).source = text ++ rest := by simp [extend]

theorem prefix_text_extend (kind : κ) (text : List Char) (p : Char → Bool) (rest : List Char) :
    text <+: (extend kind text p rest).text := List.prefix_append _ _

theorem length_rest_lt {s : Scanned κ} (h : s.text ≠ []) : s.rest.length < s.source.length := by
  have := List.length_pos_iff.mpr h
  simp [source]
  omega

end Scanned

end QueryDoc
