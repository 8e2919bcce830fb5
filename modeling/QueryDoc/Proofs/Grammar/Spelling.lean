import QueryDoc.Proofs.Grammar.Pieces

/-!
# Spelling

A text without faults is read or refused for its words alone, once no number is glued to the text
behind it, and each of the parts that its words are cut into spells a definition of one shape
(`exists_read_iff_spells`).
-/
namespace QueryDoc.Grammar

open QueryDoc.Ast QueryDoc.Lexis

/-- The parts that words are cut into. -/
def chunks (bs : List Bare) : List (List Bare) := cut (fun b => b.1.punctuator?) 0 bs

theorem map_bare_parts_eq_chunks (s : List Char) :
    (parts s).map (List.map Word.bare) = chunks (bares s) := map_bare_parts s

/-- Behind whole parts, words are cut anew. -/
theorem chunks_take_append {bs : List Bare} {i : Nat} (hi : i < (chunks bs).length)
    (rest : List Bare) :
    chunks (((chunks bs).take i).flatten ++ rest) = (chunks bs).take i ++ chunks rest := by
  have htake := cut_take_append (p := fun b : Bare => b.1.punctuator?) hi rest
  rwa [ite_self] at htake

theorem punctuator?_category (b : Bare) : (category b).punctuator? = b.1.punctuator? := by
  obtain ⟨k, text⟩ := b
  cases k with
  | string => simp only [category]; split <;> rfl
  | _ => rfl

/-- The words spell a definition of the given shape. -/
def Means (depth : Nat) (bs : List Bare) (shape : Ast.Definition) : Prop :=
  ∃ piece, piece.map Lexeme.face = bs.map face ∧ Stands depth piece shape

theorem Means.unique {n m : Nat} {bs : List Bare} {shape shape' : Ast.Definition}
    (h : Means n bs shape) (h' : Means m bs shape') : shape = shape' := by
  obtain ⟨piece, hface, hs⟩ := h
  obtain ⟨piece', hface', hs'⟩ := h'
  exact hs.unique hs' (hface'.trans hface.symm)

/-- The words spell definitions of the given shapes, one each part. -/
structure Spells (bs : List Bare) (shapes : List Ast.Definition) : Prop where
  fault : fault? nestingBudget bs = none
  ne_nil : bs ≠ []
  means : List.Forall₂ (Means bs.length) (chunks bs) shapes

theorem Spells.unique {bs : List Bare} {shapes shapes' : List Ast.Definition} (h : Spells bs shapes)
    (h' : Spells bs shapes') : shapes = shapes' :=
  List.right_unique_forall₂' (fun _ _ _ hm hm' => hm.unique hm') h.means h'.means

/-- Words that spell a single definition are its words. -/
theorem means_of_spells {bs : List Bare} {shape : Ast.Definition} (h : Spells bs [shape]) :
    Means bs.length bs shape := by
  obtain ⟨part, rest, hpart, hrest, hchunks⟩ := List.forall₂_cons_right_iff.mp h.means
  cases hrest
  have hflat := flatten_cut (p := fun b : Bare => b.1.punctuator?) 0 bs
  rw [show cut (fun b : Bare => b.1.punctuator?) 0 bs = [part] from hchunks] at hflat
  rw [List.flatten_singleton] at hflat
  rwa [hflat] at hpart

/-- Lexemes are cut where their words are. -/
theorem map_face_pieces {ls : List Lexeme} {bs : List Bare}
    (h : ls.map Lexeme.face = bs.map face) :
    (pieces 0 ls).map (List.map Lexeme.face) = (chunks bs).map (List.map face) := by
  have hls := cut_map (p := fun f : Face => f.1.punctuator?) Lexeme.face 0 ls
  have hbs := cut_map (p := fun f : Face => f.1.punctuator?) face 0 bs
  have hface : (fun f : Face => f.1.punctuator?) ∘ face = fun b => b.1.punctuator? :=
    funext punctuator?_category
  rw [hface] at hbs
  exact hls.symm.trans ((congrArg _ h).trans hbs)

/-- Pieces with the faces of words stand for what the words spell. -/
theorem forall₂_stands_iff {n : Nat} {ps : List (List Lexeme)} {cs : List (List Bare)}
    (h : ps.map (List.map Lexeme.face) = cs.map (List.map face)) {shapes : List Ast.Definition} :
    List.Forall₂ (Stands n) ps shapes ↔ List.Forall₂ (Means n) cs shapes := by
  induction ps generalizing cs shapes with
  | nil =>
    obtain rfl : cs = [] := by simpa using h.symm
    simp
  | cons p ps ih =>
    obtain ⟨c, cs, rfl⟩ : ∃ c cs', cs = c :: cs' := by
      rcases cs with _ | ⟨c, cs⟩
      · simp at h
      · exact ⟨c, cs, rfl⟩
    simp only [List.map_cons, List.cons.injEq] at h
    have hp (shape : Ast.Definition) : Stands n p shape ↔ Means n c shape := by
      refine ⟨fun hs => ⟨p, h.1, hs⟩, ?_⟩
      rintro ⟨piece, hface, hs⟩
      exact hs.congr le_rfl (h.1.trans hface.symm)
    cases shapes with
    | nil => simp
    | cons shape shapes => rw [List.forall₂_cons, List.forall₂_cons, hp, ih h.2]

/-- A text without faults is read for its words. -/
theorem exists_read_iff_spells {text : List Char} (h : Faultless (words text))
    {shapes : List Ast.Definition} :
    (∃ ds, read text = .ok ds ∧ ds.map Ast.Definition.shape = shapes) ↔
      Unglued (words text) ∧ Spells (bares text) shapes := by
  obtain ⟨hfault, hfaces⟩ := lexemesFrom_of_faultless nestingBudget start h
  have spells (hf : (lexemes text).1.map Lexeme.face = (bares text).map face) :
      (lexemes text).1 ≠ [] ∧ List.Forall₂ (Stands (lexemes text).1.length)
        (pieces 0 (lexemes text).1) shapes ↔
      bares text ≠ [] ∧ List.Forall₂ (Means (bares text).length) (chunks (bares text)) shapes := by
    have hlength : (lexemes text).1.length = (bares text).length := by
      simpa using congrArg List.length hf
    rw [forall₂_stands_iff (map_face_pieces hf), hlength, ← List.length_pos_iff,
      ← List.length_pos_iff, hlength]
  rw [exists_read_iff]
  constructor
  · rintro ⟨hnone, hread⟩
    obtain ⟨hu, hf⟩ := hfaces hnone
    obtain ⟨hne, hmeans⟩ := (spells hf).mp hread
    exact ⟨hu, (hfault hu).symm.trans hnone, hne, hmeans⟩
  · rintro ⟨hu, hs⟩
    have hnone : (lexemes text).2.fault = none := (hfault hu).trans hs.fault
    exact ⟨hnone, (spells (hfaces hnone).2).mpr ⟨hs.ne_nil, hs.means⟩⟩

end QueryDoc.Grammar
