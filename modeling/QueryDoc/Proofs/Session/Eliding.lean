import QueryDoc.Proofs.Document.Meaning
import QueryDoc.Proofs.Lexis.Gluing
import QueryDoc.Source

/-!
# Leaving out embedded documents

The primary text of a source puts the texts between the embedded documents side by side. So a token
or a comment may go on over a document, and if no token does, the texts are read one by one
(`readings_primary`).
-/
namespace QueryDoc

open QueryDoc.Lexis

namespace Source

/-- The texts between the embedded documents of a source. -/
def runs (s : Source) : List (List Char) :=
  (s.segments.splitOnP fun g => g.document?.isSome).map fun gs =>
    (String.join (gs.map Segment.render)).toList

/-- A document between two pieces of text. -/
def around (front : String) (d : Instance Document) (back : String) : Source :=
  ⟨[.literal front, .value (.document d), .literal back]⟩

theorem primary_around (front : String) (d : Instance Document) (back : String) :
    (around front d back).primary = front ++ back := by
  simp [primary, around, Segment.document?, Substitution.document?, Segment.render]

theorem runs_around (front : String) (d : Instance Document) (back : String) :
    (around front d back).runs = [front.toList, back.toList] := by
  simp [runs, around, List.splitOnP_cons_eq_if_modifyHead, Segment.document?,
    Substitution.document?, Segment.render]

end Source

theorem flatten_splitOnP {α : Type} (p : α → Bool) (as : List α) :
    (as.splitOnP p).flatten = as.filter (!p ·) := by
  induction as with
  | nil => rfl
  | cons a as ih =>
    obtain ⟨q, qs, hq⟩ := List.exists_cons_of_ne_nil (List.splitOnP_ne_nil p as)
    rw [List.splitOnP_cons_eq_if_modifyHead]
    rw [hq] at ih ⊢
    cases hp : p a <;> simpa [hp] using ih

/-- The primary text is made of the texts between the documents. -/
theorem Source.flatten_runs (s : Source) : s.runs.flatten = s.primary.toList := by
  have hrun (gs : List Segment) : (String.join (gs.map Segment.render)).toList =
      gs.flatMap fun g => g.render.toList := by rw [String.toList_join, List.flatMap_map]
  have hsplit := flatten_splitOnP (fun g : Segment => g.document?.isSome) s.segments
  simp only [Option.not_isSome] at hsplit
  rw [runs, primary, ← hsplit, hrun]
  simp only [hrun, List.flatMap_def, List.map_flatten, List.flatten_flatten, List.map_map]
  rfl

/-- The primary text is made of the texts between the embedded documents, one right behind the
other. Its tokens are those of these texts, of which one behind an open comment is read from the end
of its first line on, exactly if none of the tokens goes on over an embedded document. If one does,
the first token that differs is longer in the primary text. Where no comment goes on over a document
either, each text is read as it is. -/
theorem readings_primary (source : Source) :
    source.runs.flatten = source.primary.toList ∧
    ((significant source.primary.toList).map Token.bare =
      (readParts [] source.runs).flatMap (fun s => (significant s).map Token.bare) ↔
        Separate source.runs) ∧
    (¬ Separate source.runs → Ahead ((significant source.primary.toList).map Token.bare)
      ((readParts [] source.runs).flatMap fun s => (significant s).map Token.bare)) ∧
    ((∀ before behind, source.runs = before ++ behind → behind ≠ [] →
      leavesComment before.flatten = false) → readParts [] source.runs = source.runs) := by
  have hglued := glued source.runs
  refine ⟨source.flatten_runs, ?_⟩
  simp only [map_bare_significant, ← source.flatten_runs]
  refine ⟨⟨fun he => ?_, fun h => ?_⟩, fun h => ?_, fun h => readParts_eq_self h⟩
  · exact hglued.elim And.left fun h => absurd he h.2.ne
  · exact hglued.elim And.right fun hnot => absurd h hnot.1
  · exact hglued.elim (fun h' => absurd h'.1 h) And.right

/-- A comment that goes on over the document takes what follows on its line. -/
theorem readings_primary_comment : ∃ ds, parse {} "fragment F on T \x7b f \x7d" = .ok ds ∧
    ((significant (Source.around "\x7b a # b" ⟨1, ⟨ds.map (Definition.instance 0),
      "fragment F on T \x7b f \x7d"⟩⟩ "c\n d \x7d").primary.toList).map Token.bare =
        [(.punctuator .braceOpen, ['{']), (.name, ['a']), (.name, ['d']),
          (.punctuator .braceClose, ['}'])] ∧
      Separate (Source.around "\x7b a # b" ⟨1, ⟨ds.map (Definition.instance 0),
        "fragment F on T \x7b f \x7d"⟩⟩ "c\n d \x7d").runs) := by
  obtain ⟨ds, hds⟩ := @exists_parse_of_isSome {} "fragment F on T \x7b f \x7d" (by decide +kernel)
  have htokens : (significant (Source.around "\x7b a # b" ⟨1, ⟨ds.map (Definition.instance 0),
      "fragment F on T \x7b f \x7d"⟩⟩ "c\n d \x7d").primary.toList).map Token.bare =
        [(.punctuator .braceOpen, ['{']), (.name, ['a']), (.name, ['d']),
          (.punctuator .braceClose, ['}'])] := by
    rw [Source.primary_around]
    decide +kernel
  refine ⟨ds, hds, htokens, (readings_primary _).2.1.mp ?_⟩
  rw [htokens, Source.runs_around]
  decide +kernel

/-- Where two names meet, they become one. -/
theorem exists_fused_name : ∃ ds, parse {} "fragment F on T \x7b x \x7d" = .ok ds ∧
    (significant (Source.around "\x7b a" ⟨1, ⟨ds.map (Definition.instance 0),
      "fragment F on T \x7b x \x7d"⟩⟩ "b \x7d").primary.toList).map Token.bare ≠
        (Source.around "\x7b a" ⟨1, ⟨ds.map (Definition.instance 0),
          "fragment F on T \x7b x \x7d"⟩⟩ "b \x7d").runs.flatMap
            fun s => (significant s).map Token.bare := by
  obtain ⟨ds, hds⟩ := @exists_parse_of_isSome {} "fragment F on T \x7b x \x7d" (by decide +kernel)
  refine ⟨ds, hds, ?_⟩
  rw [Source.primary_around, Source.runs_around]
  decide +kernel

end QueryDoc
