import QueryDoc.Proofs.Document.Matching
import QueryDoc.Proofs.Grammar.Faults

/-!
# Faults are refused

The first fault among the words of a text is either among the words that the grammar reads or
between the brackets of a group (`firstFault?_sources`), and in both places it is the first one. So
no text is accepted in spite of its first fault, whether variable groups are looked for or not
(`exists_failure_of_firstFault`).
-/
namespace QueryDoc

open QueryDoc.Lexis QueryDoc.Grammar

/-! ## The first fault -/

namespace Lexis

/-- The words around what a frame holds are without faults. -/
structure Frame.Sound (f : Frame Word) : Prop where
  word : f.word.kind.isError = false
  name : f.name.kind.isError = false
  opening : f.opening.kind.isError = false
  closing : f.closing.kind.isError = false

theorem Frame.IsFrame.sound {f : Frame Word} (h : f.IsFrame Word.bare) : f.Sound := by
  have hword : f.word.kind = .name := congrArg Prod.fst h.word
  have hname : f.name.kind = .name := h.name
  have hopening : f.opening.kind = .punctuator .parenOpen := h.opening
  have hclosing : f.closing.kind.nesting = -1 := nesting_of_closing? (Int.le_refl 1) (h.closing [])
  refine ⟨by rw [hword]; rfl, by rw [hname]; rfl, by rw [hopening]; rfl, ?_⟩
  cases hk : f.closing.kind with
  | error fault => rw [hk] at hclosing; cases hclosing
  | _ => rfl

theorem sound_of_mem_frames {text : List Char} {f : Frame Word}
    (h : f ∈ frames (items Word.bare 0 (words text))) : f.Sound :=
  ((itemized_items Word.bare 0 (words text)).1.isFrame (mem_frames.mp h)).sound

theorem firstFault?_append (as bs : List Word) :
    firstFault? (as ++ bs) = (firstFault? as).or (firstFault? bs) := List.find?_append

/-- In a frame the first fault is one of the words inside. -/
theorem Frame.Sound.firstFault?_source {f : Frame Word} (h : f.Sound) :
    firstFault? f.source = firstFault? f.inner := by
  simp [Frame.source, firstFault?, h.word, h.name, h.opening, h.closing]

theorem Frame.Sound.firstFault?_kept {f : Frame Word} (h : f.Sound) :
    firstFault? [f.word, f.name] = none := by
  simp [firstFault?, h.word, h.name]

/-- The first fault of a text's words is the first one of those that are kept, or of those inside of
a frame. -/
theorem firstFault?_sources {is : List (Item Word)} (hsound : ∀ f ∈ frames is, f.Sound) {w : Word}
    (h : firstFault? (sources is) = some w) :
    firstFault? (kepts is) = some w ∨ ∃ f ∈ frames is, firstFault? f.inner = some w := by
  induction is with
  | nil => cases h
  | cons i is ih =>
    rw [sources, List.flatMap_cons, ← sources, firstFault?_append] at h
    rw [kepts, List.flatMap_cons, ← kepts, firstFault?_append]
    cases i with
    | plain a =>
      have hkept : (Item.plain a).kept = (Item.plain a).source := rfl
      grind [frames_plain, Option.or_eq_some_iff]
    | frame f =>
      have hf : f.Sound := hsound f List.mem_cons_self
      have hsource : firstFault? (Item.frame f).source = firstFault? f.inner :=
        hf.firstFault?_source
      have hkept : firstFault? (Item.frame f).kept = none := hf.firstFault?_kept
      grind [frames_frame, Option.or_eq_some_iff]

end Lexis

/-! ## Refusals -/

theorem firstFault?_queryWords {inner : List Word} {w : Word} (h : firstFault? inner = some w) :
    firstFault? (queryWords inner) = some w := by
  have hfront : firstFault? queryFront = none := by decide
  rw [queryWords, firstFault?_append, firstFault?_append, hfront, h]
  rfl

/-- A group with a fault inside is not read. -/
theorem Lexis.Located.not_read {text : List Char} {n : Nat} {f : Frame Word} {g : VariableGroup}
    (h : Located text (n, f) g) {w : Word} (hw : firstFault? f.inner = some w)
    (hcut : ¬ CutAtReturn w.bare) {v : FragmentVariables} : g.read text ≠ .ok v := by
  intro hread
  obtain ⟨head, selections, hok, -, -⟩ := groupRead_eq_ok_iff.mp hread
  obtain ⟨mid, c, p, -, -, hslice, -, hmid⟩ := h.slices
  rw [hslice] at hok
  have hfault := firstFault?_queryWords hw
  rw [← words_query hmid] at hfault
  obtain ⟨failure, hfailure⟩ := exists_failure_of_fault hfault hcut
  cases hok.symm.trans hfailure

/-- Each frame in a text is a group. -/
theorem Lexis.exists_located {text : List Char} {f : Frame Word}
    (hf : f ∈ frames (items Word.bare 0 (words text))) :
    ∃ n, ∃ g ∈ VariableGroup.ofText text, Located text (n, f) g := by
  rw [← map_snd_numbered Word.bare 0 0] at hf
  obtain ⟨⟨n, f⟩, hx, rfl⟩ := List.mem_map.mp hf
  obtain ⟨i, hi⟩ := List.mem_iff_getElem?.mp hx
  obtain ⟨g, hg, hlocated⟩ := exists_of_forall₂ (located_ofText text) hi
  exact ⟨n, g, List.mem_of_getElem? hg, hlocated⟩

/-- No text is accepted whose first fault is something else than a string cut at a carriage
return. -/
theorem exists_failure_of_firstFault {text : String} {w : Word}
    (h : firstFault? (words text.toList) = some w) (hcut : ¬ CutAtReturn w.bare)
    (o : ParseOptions) : ∃ failure, parse o text = .error failure := by
  cases hparse : parse o text with
  | error failure => exact ⟨failure, rfl⟩
  | ok ds =>
    exfalso
    obtain ⟨groups, asts, hgroups, hread, -⟩ := parse_eq_ok_iff.mp hparse
    have hkept : firstFault? (words (grammarText o text.toList)) ≠ some w := by
      intro hkept
      obtain ⟨failure, hfailure⟩ := exists_failure_of_fault hkept hcut
      cases hread.symm.trans hfailure
    obtain ⟨fragmentVariables⟩ := o
    cases fragmentVariables with
    | false => exact hkept h
    | true =>
      have hwords : words (grammarText ⟨true⟩ text.toList) =
          kepts (items Word.bare 0 (words text.toList)) := words_blankGroups text.toList
      rw [hwords] at hkept
      rw [← (itemized_items Word.bare 0 (words text.toList)).2] at h
      obtain hkept' | ⟨f, hf, hinner⟩ := firstFault?_sources (fun f => sound_of_mem_frames) h
      · exact hkept hkept'
      · obtain ⟨n, g, hg, hlocated⟩ := exists_located hf
        obtain ⟨v, hv⟩ := exists_groupRead_of_parse hparse hg
        exact hlocated.not_read hinner hcut hv

end QueryDoc
