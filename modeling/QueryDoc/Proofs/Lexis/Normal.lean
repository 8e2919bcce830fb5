import QueryDoc.Proofs.Lexis.Key

/-!
# Keys as normal forms

A key is a text of its own. It has the tokens of the text that it was made from (`readings_key`), so
it is its own key, and texts have one key exactly if they have the same tokens.
-/
namespace QueryDoc

open QueryDoc.Lexis

namespace Lexis

/-- The message of a token of the given kind and text, if it is an error. -/
def Kind.message? (text : List Char) : Kind → Option String
  | .error fault => some (fault.message text)
  | _ => none

abbrev Reading := Kind × Option String × List Char

/-- A bare token as it is reported: its kind, its message and its text. -/
def Bare.reading (b : Bare) : Reading := (b.1, b.1.message? b.2, b.2)

/-- A token without its place and its trivia, as it is reported. -/
def Token.reading (t : Token) : Reading := (t.kind, t.kind.message? t.text, t.text)

end Lexis

/-- What the tokens of a text read, without the end. -/
def readings (text : String) : List Reading := (significant text.toList).map Token.reading

/-- The key has the words of the text, each of them apart from the next. -/
theorem words_key (text : String) :
    words (key text).toList = (words text.toList).map Word.apart := by
  rw [key_eq, String.toList_ofList, words_intercalate (readable_words _)]

theorem bares_key (text : String) : bares (key text).toList = bares text.toList := by
  rw [bares, words_key, List.map_map]
  rfl

theorem readings_eq (text : String) : readings text = (bares text.toList).map Bare.reading := by
  rw [← map_bare_significant, List.map_map]
  rfl

theorem readings_key (text : String) : readings (key text) = readings text := by
  rw [readings_eq, readings_eq, bares_key]

/-- The key is made of what the tokens read. -/
theorem key_eq_of_readings (text : String) : key text =
    String.ofList ([' '].intercalate ((readings text).map fun r => r.2.2)) := by
  rw [readings, List.map_map]
  rfl

/-- A key is its own key. -/
theorem key_key (text : String) : key (key text) = key text := by
  rw [key_eq_of_readings (key text), readings_key, ← key_eq_of_readings]

theorem key_eq_iff {s t : String} : key s = key t ↔ readings s = readings t := by
  constructor
  · intro h
    rw [← readings_key s, h, readings_key]
  · intro h
    rw [key_eq_of_readings, h, ← key_eq_of_readings]

/-- The key of a text has the tokens of the text, with their kinds, messages and texts. So it is its
own key, and texts have one key exactly if their tokens read the same, for which the texts of the
tokens are enough. -/
theorem key_faithful (s : String) :
    readings (key s) = readings s ∧ key (key s) = key s ∧
      ∀ t, (key s = key t ↔ readings s = readings t) ∧
        (key s = key t ↔
          (significant s.toList).map Token.text = (significant t.toList).map Token.text) := by
  have htexts (t : String) : (readings t).map (fun r => r.2.2) =
      (significant t.toList).map Token.text := by
    rw [readings, List.map_map]
    rfl
  refine ⟨readings_key s, key_key s, ?_⟩
  intro t
  refine ⟨key_eq_iff, ?_, ?_⟩
  · intro h
    rw [← htexts, ← htexts, key_eq_iff.mp h]
  · intro h
    rw [key_eq_of_readings, key_eq_of_readings, htexts, htexts, h]

end QueryDoc
