import QueryDoc.Document.Parse
import QueryDoc.Proofs.Document.Lift
import QueryDoc.Proofs.Grammar.Spelling
import QueryDoc.Proofs.Lexis.Definitions

/-!
# Declared variables

A group is read as the variables of a query. Which variables these are depends on the words between
the brackets alone (`exists_groupRead_iff`).
-/
namespace QueryDoc

open QueryDoc.Lexis QueryDoc.Grammar

/-- Variables with their positions moved to the origin, and the key of their text. -/
def FragmentVariables.shape (v : FragmentVariables) : FragmentVariables :=
  ⟨v.definitions.map Ast.VariableDefinition.shape, v.source.map key⟩

/-! ## The query of a group -/

/-- The words in front of a group's words in the query that it is read as. -/
def queryFront : List Word :=
  [⟨.name, "query".toList, false⟩, ⟨.punctuator .parenOpen, ['('], false⟩]

/-- The words behind them. -/
def queryBack : List Word :=
  [⟨.punctuator .parenClose, [')'], false⟩, ⟨.punctuator .braceOpen, ['{'], false⟩,
    ⟨.name, "__typename".toList, false⟩, ⟨.punctuator .braceClose, ['}'], false⟩]

def queryWords (inner : List Word) : List Word := queryFront ++ inner ++ queryBack

def queryBares (inner : List Bare) : List Bare :=
  queryFront.map Word.bare ++ inner ++ queryBack.map Word.bare

theorem words_of_ofChar? {c : Char} {p : Punctuator} (h : Punctuator.ofChar? c = some p)
    (rest : List Char) : words (c :: rest) = ⟨.punctuator p, [c], false⟩ :: words rest := by
  have hdrop := dropIgnored_cons_of_startsToken (startsToken_of_ofChar? h) rest
  rw [words_of_dropIgnored_cons hdrop, scan_punctuator h]
  rfl

theorem readable_queryBack : Readable queryBack := by
  refine ⟨?_, by simp [queryBack, Kind.isOpen]⟩
  simp only [queryBack, List.forall_mem_cons]
  exact ⟨⟨')', [], [], rfl, rfl, rfl⟩, ⟨'{', [], [], rfl, rfl, rfl⟩,
    ⟨'_', "_typename".toList, [], rfl, rfl, rfl⟩, ⟨'}', [], [], rfl, rfl, rfl⟩, by simp⟩

/-- The words of a query whose variables and what follows them are still to be read. -/
theorem words_queryFront (rest : List Char) :
    words ("query(".toList ++ rest) = queryFront ++ words rest := by
  have hfront : words ("query".toList ++ '(' :: rest) =
      ⟨.name, "query".toList, false⟩ :: words ('(' :: rest) :=
    words_text_append (w := ⟨.name, "query".toList, false⟩)
      ⟨'q', "uery".toList, [], rfl, rfl, rfl⟩ _ ⟨rfl, rfl, by simp⟩
  rw [words_of_ofChar? (c := '(') rfl] at hfront
  exact hfront

theorem words_queryBack : words ") \x7b __typename \x7d".toList = queryBack :=
  words_intercalate readable_queryBack

theorem words_query {mid : List Char} {inner : List Word}
    (h : ∀ d, (Punctuator.ofChar? d).isSome = true → ∀ post,
      words (mid ++ d :: post) = inner ++ words (d :: post)) :
    words ("query(".toList ++ mid ++ ") \x7b __typename \x7d".toList) = queryWords inner := by
  have hmid : words (mid ++ ") \x7b __typename \x7d".toList) =
      inner ++ words ") \x7b __typename \x7d".toList := h ')' rfl _
  rw [List.append_assoc, words_queryFront, hmid, words_queryBack, queryWords, List.append_assoc]

theorem map_bare_queryWords (inner : List Word) :
    (queryWords inner).map Word.bare = queryBares (inner.map Word.bare) := by
  simp [queryWords, queryBares]

theorem faultless_queryWords {inner : List Word} (h : Faultless inner) :
    Faultless (queryWords inner) := by
  intro w hw
  simp only [queryWords, List.mem_append] at hw
  rcases hw with (hw | hw) | hw
  · revert w; decide
  · exact h w hw
  · revert w; decide

theorem unglued_queryWords {inner : List Word} : Unglued (queryWords inner) ↔ Unglued inner := by
  refine ⟨fun h w hw => h w (by simp [queryWords, hw]), fun h w hw => ?_⟩
  simp only [queryWords, List.mem_append] at hw
  rcases hw with (hw | hw) | hw
  · revert w; decide
  · exact h w hw
  · revert w; decide

/-! ## Reading a group -/

/-- The words of a frame spell the variables of a query. -/
structure Declares (f : Frame Bare) (v : FragmentVariables) : Prop where
  spells : ∃ head selections, head.type = .query ∧ head.declared = v.definitions ∧
    Spells (queryBares f.inner) [.operation ⟨some head, selections⟩]
  source : v.source = some (textOf f.group)

theorem Declares.unique {f : Frame Bare} {v v' : FragmentVariables} (h : Declares f v)
    (h' : Declares f v') : v = v' := by
  obtain ⟨head, selections, -, hdeclared, hs⟩ := h.spells
  obtain ⟨head', selections', -, hdeclared', hs'⟩ := h'.spells
  have hshapes := hs.unique hs'
  simp only [List.cons.injEq, Ast.Definition.operation.injEq, Ast.Operation.mk.injEq,
    Option.some.injEq, and_true] at hshapes
  have hdefinitions : v.definitions = v'.definitions := by
    rw [← hdeclared, ← hdeclared', hshapes.1]
  have hsource := h.source.trans h'.source.symm
  cases v
  cases v'
  simp_all only

/-- The words of a group, in front of any text. -/
theorem Lexis.Located.words_group {text : List Char} {x : Nat × Frame Word} {g : VariableGroup}
    (h : Located text x g) (rest : List Char) :
    words (slice g.first g.last text ++ rest) = x.2.group ++ words rest := by
  obtain ⟨mid, c, p, hc, hclosing, -, hslice, hmid⟩ := h.slices
  rw [hslice, List.cons_append, words_of_ofChar? (c := '(') rfl, List.append_assoc,
    List.singleton_append, hmid c (by rw [hc]; rfl), words_of_ofChar? hc, Frame.group, h.opening,
    hclosing]
  simp

theorem key_slice_group {text : List Char} {n : Nat} {f : Frame Word} {g : VariableGroup}
    (h : Located text (n, f) g) : key (String.ofList (slice g.first g.last text)) =
      textOf (f.map Word.bare).group := by
  have hwords := h.words_group []
  rw [List.append_nil, words_of_dropIgnored_nil (s := []) rfl, List.append_nil] at hwords
  rw [key_eq_textOf, String.toList_ofList, bares, hwords]
  simp [Frame.group, Frame.map]

theorem exists_of_map_shape_eq {ds : List Ast.Definition} {head : Ast.OperationHead}
    {selections : Ast.SelectionSet}
    (h : ds.map Ast.Definition.shape = [.operation ⟨some head, selections⟩]) :
    ∃ head' selections', ds = [.operation ⟨some head', selections'⟩] ∧ head'.shape = head := by
  obtain ⟨d, rfl, hd⟩ := List.map_eq_singleton_iff.mp h
  cases d with
  | fragment f => cases hd
  | operation o =>
    simp only [Ast.Definition.shape, Ast.Operation.shape, Ast.Definition.operation.injEq,
      Ast.Operation.mk.injEq] at hd
    obtain ⟨head', hhead', hshape⟩ := Option.map_eq_some_iff.mp hd.1
    refine ⟨head', o.selections, ?_, hshape⟩
    rw [← hhead']

/-- A group is read exactly if the query that is made of it is one, and it declares what that query
declares. -/
theorem groupRead_eq_ok_iff {g : VariableGroup} {text : List Char} {vars : FragmentVariables} :
    g.read text = .ok vars ↔ ∃ head selections,
      read ("query(".toList ++ slice g.opening.span.last.offset g.closing.span.first.offset text ++
        ") \x7b __typename \x7d".toList) = .ok [.operation ⟨some head, selections⟩] ∧
      head.type = .query ∧
      vars = ⟨head.declared, some (String.ofList (slice g.first g.last text))⟩ := by
  unfold VariableGroup.read
  dsimp only
  constructor
  · intro h
    split at h
    · exact ⟨_, _, ‹_›, rfl, (Except.ok.inj h).symm⟩
    · cases h
    · cases h
    · cases h
  · rintro ⟨⟨position, type, name, declared, directives⟩, selections, hread, rfl, rfl⟩
    simp only [hread]

theorem exists_groupRead_iff {text : List Char} {n : Nat} {f : Frame Word} {g : VariableGroup}
    (h : Located text (n, f) g) (hf : Faultless f.inner) {v : FragmentVariables} :
    (∃ vars, g.read text = .ok vars ∧ vars.shape = v) ↔
      Unglued f.inner ∧ Declares (f.map Word.bare) v := by
  obtain ⟨mid, c, p, -, -, hslice, -, hmid⟩ := h.slices
  have hwords := words_query hmid
  have hread {shapes : List Ast.Definition} := @exists_read_iff_spells _
    (hwords ▸ faultless_queryWords hf) shapes
  have hbares : bares ("query(".toList ++ mid ++ ") \x7b __typename \x7d".toList) =
      queryBares (f.map Word.bare).inner := by
    rw [bares, hwords, map_bare_queryWords]
    rfl
  rw [hbares, hwords] at hread
  simp only [unglued_queryWords] at hread
  have hkey := key_slice_group h
  simp only [groupRead_eq_ok_iff, hslice]
  constructor
  · rintro ⟨vars, ⟨head, selections, hok, htype, rfl⟩, rfl⟩
    obtain ⟨hu, hs⟩ := hread.mp ⟨_, hok, rfl⟩
    refine ⟨hu, ⟨head.shape, _, htype, rfl, hs⟩, ?_⟩
    rw [FragmentVariables.shape, Option.map_some, hkey]
  · rintro ⟨hu, hd⟩
    obtain ⟨head, selections, htype, hdeclared, hs⟩ := hd.spells
    obtain ⟨ds, hds, hshapes⟩ := hread.mpr ⟨hu, hs⟩
    obtain ⟨head', selections', rfl, rfl⟩ := exists_of_map_shape_eq hshapes
    refine ⟨_, ⟨head', selections', hds, htype, rfl⟩, ?_⟩
    have hv : v = ⟨v.definitions, v.source⟩ := rfl
    rw [hv, ← hdeclared, hd.source, FragmentVariables.shape, Option.map_some, hkey]
    rfl

end QueryDoc
