import QueryDoc.Lexis.Key

/-!
# Variable groups

A fragment may declare variables in a group of brackets behind its name. The grammar does not know
such groups, so they are found among the tokens of a text and blanked out: every character becomes a
space but LF and CR, and what stands behind a group keeps its line.
-/
namespace QueryDoc

open QueryDoc.Lexis

/-- A group of variables: the number of the definition that it stands in, the name in front of it,
and its tokens from the opening bracket to the closing one. -/
structure VariableGroup where
  definition : Nat
  fragment : String
  opening : Token
  closing : Token
  deriving Repr

namespace VariableGroup

/-- The first token that brings the nesting back to the ground, and the tokens behind it. The
nesting in front is `depth`, and all kinds of brackets count alike. -/
def close? (depth : Int) : List Token → Option (Token × List Token)
  | [] => none
  | t :: ts =>
    let depth := depth + t.kind.nesting
    if depth = 0 then some (t, ts)
    else if t.kind = .eof then none
    else close? depth ts

theorem length_close? {depth : Int} {ts : List Token} {t : Token} {rest : List Token}
    (h : close? depth ts = some (t, rest)) : rest.length < ts.length := by
  induction ts generalizing depth with
  | nil => simp [close?] at h
  | cons u us ih =>
    simp only [close?] at h
    split at h
    · cases h; simp
    · split at h
      · cases h
      · have := ih h
        simp only [List.length_cons]
        omega

/-- The group behind `fragment` and a name at the front of the tokens, and the tokens behind it. -/
def front? (definition : Nat) : List Token → Option (VariableGroup × List Token)
  | word :: name :: opening :: ts =>
    if word.isName "fragment" && name.kind == .name && opening.kind == .punctuator .parenOpen then
      (close? 1 ts).map fun (closing, rest) =>
        (⟨definition, String.ofList name.text, opening, closing⟩, rest)
    else none
  | _ => none

theorem length_front? {definition : Nat} {ts : List Token} {g : VariableGroup} {rest : List Token}
    (h : front? definition ts = some (g, rest)) : rest.length < ts.length := by
  unfold front? at h
  split at h
  · split at h
    · obtain ⟨⟨t, r⟩, ht, he⟩ := Option.map_eq_some_iff.mp h
      cases he
      have := length_close? ht
      simp only [List.length_cons]
      omega
    · cases h
  · cases h

/-- The groups of the given tokens, in front of which the nesting is `depth` and as many definitions
have ended as `definition` says. -/
def find (depth : Int) (definition : Nat) (ts : List Token) : List VariableGroup :=
  match _h : if depth = 0 then front? definition ts else none with
  | some (g, rest) => g :: find depth definition rest
  | none =>
    match ts with
    | [] => []
    | t :: ts =>
      let depth := depth + t.kind.nesting
      if closesDefinition t depth then find 0 (definition + 1) ts else find depth definition ts
termination_by ts.length
decreasing_by
  · split at _h
    · exact length_front? _h
    · cases _h
  · simp
  · simp

/-- The groups of a text. -/
def ofText (text : List Char) : List VariableGroup := find 0 0 (tokens text)

/-- The bytes of a group, from its first up to the one behind its last. -/
def first (g : VariableGroup) : Nat := g.opening.span.first.offset
def last (g : VariableGroup) : Nat := g.closing.span.last.offset

end VariableGroup

/-- The characters of a text with the offsets of their first bytes. -/
def withOffsets (offset : Nat) : List Char → List (Nat × Char)
  | [] => []
  | c :: s => (offset, c) :: withOffsets (offset + c.utf8Size) s

/-- The part of a text between two offsets. -/
def slice (first last : Nat) (text : List Char) : List Char :=
  ((withOffsets 0 text).filter fun (i, _) => first ≤ i && i < last).map Prod.snd

/-- A text with its groups blanked out. -/
def blankGroups (groups : List VariableGroup) (text : List Char) : List Char :=
  (withOffsets 0 text).map fun (i, c) =>
    if groups.any (fun g => g.first ≤ i && i < g.last) && !isLineEnd c then ' ' else c

end QueryDoc
