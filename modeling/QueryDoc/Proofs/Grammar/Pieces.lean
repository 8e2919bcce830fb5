import QueryDoc.Proofs.Grammar.Shape

/-!
# The pieces of a document

The definitions of a document are the pieces that its lexemes are cut into: each piece stands for
one definition, whatever its neighbours are (`exists_read_iff`). So pieces with the same faces
stand for definitions of one shape.
-/
namespace QueryDoc.Grammar

open QueryDoc.Ast

theorem finishes_selectionSet {n m : Nat} (h : n ≤ m) :
    Finishes 0 SelectionSet.shape (readSelectionSet (readSelection n))
      (readSelectionSet (readSelection m)) := by
  refine (reads_punctuator .braceOpen).finishes (by decide) fun _ _ _ =>
    ((reads_selection h).someUpTo .braceClose (reads_selection (le_refl m)) rfl rfl
      (by decide)).finishes (by decide) fun items items' hitems =>
        finishes_braceClose.bind_pure fun _ _ _ => ?_
  simp [SelectionSet.shape, shapes_eq_map, hitems]

theorem finishes_operation {n m : Nat} (h : n ≤ m) (type : OperationType) :
    Finishes 0 Ast.Operation.shape (readOperation n type) (readOperation m type) := by
  have name := reads_name.optional (faced_category (· == .name)) (by decide) (by decide)
  refine reads_name.finishes (by decide) fun _ _ _ => name.finishes (by decide) fun l l' hl =>
    (reads_variables h).finishes (by decide) fun vs vs' hvs =>
      (reads_directives h).finishes (by decide) fun ds ds' hds =>
        (finishes_selectionSet h).bind_pure fun s s' hs => ?_
  simp [Ast.Operation.shape, OperationHead.shape, map_word_eq hl, hvs, hds, hs]

theorem finishes_fragment {n m : Nat} (h : n ≤ m) :
    Finishes 0 Ast.Fragment.shape (readFragment n) (readFragment m) := by
  refine (reads_word "fragment").finishes (by decide) fun _ _ _ =>
    reads_name.finishes (by decide) fun l l' hl =>
      (reads_word "on").finishes (by decide) fun _ _ _ =>
        reads_name.finishes (by decide) fun t t' ht =>
          (reads_directives h).finishes (by decide) fun ds ds' hds =>
            (finishes_selectionSet h).bind_pure fun s s' hs => ?_
  simp [Ast.Fragment.shape, word_eq_of_face_eq hl, word_eq_of_face_eq ht, hds, hs]

/-- A reader that is chosen by the face of the first lexeme. -/
theorem FinishesOff.first {α β γ δ : Type} {e : α → γ} {g : β → δ} {r : Reader α} {d : Reader β}
    {f : α → β} {p : Lexeme → Prop} (hp : ∀ l l' : Lexeme, l'.face = l.face → p l → p l')
    (hd : ∀ l ls, p l → d (l :: ls) = (r (l :: ls)).map fun x => (f x.1, x.2))
    (hf : ∀ a a', e a' = e a → g (f a') = g (f a)) {l : Lexeme} {ls rest : List Lexeme} {a : α}
    (hl : p l) (h : FinishesOff 0 e r (l :: ls) a rest) :
    FinishesOff 0 g d (l :: ls) (f a) rest := by
  obtain ⟨taken, hls, hcut, hread⟩ := h
  refine ⟨taken, hls, hcut, fun taken' rest' hface => ?_⟩
  obtain ⟨a', ha', hea⟩ := hread taken' rest' hface
  rcases taken with _ | ⟨k, taken⟩
  · have hnil := hcut []
    simp [pieces, Lexis.cut] at hnil
  · rcases taken' with _ | ⟨l', taken'⟩
    · simp at hface
    · obtain ⟨rfl, -⟩ := List.cons.inj hls
      simp only [List.map_cons, List.cons.injEq] at hface
      refine ⟨f a', ?_, hf a a' hea⟩
      rw [List.cons_append] at ha' ⊢
      rw [hd l' _ (hp l l' hface.1 hl), ha']
      rfl

theorem map_eq_ok_iff {ε α β : Type} {x : Except ε α} {f : α → β} {b : β} :
    x.map f = .ok b ↔ ∃ a, x = .ok a ∧ f a = b := by
  cases x <;> simp [Except.map]

theorem finishes_definition {n m : Nat} (h : n ≤ m) :
    Finishes 0 Ast.Definition.shape (readDefinition n) (readDefinition m) := by
  intro ls d rest hr
  cases ls with
  | nil => cases hr
  | cons l ls =>
    by_cases brace : l.isPunctuator .braceOpen = true
    · simp only [readDefinition, brace, if_true] at hr
      obtain ⟨⟨s, rest'⟩, hs, he⟩ := map_eq_ok_iff.mp hr
      cases he
      refine FinishesOff.first (p := fun l => l.isPunctuator .braceOpen = true)
        (f := fun s => Ast.Definition.operation ⟨none, s⟩) (fun l l' hl hp => ?_)
        (fun l ls hp => ?_) (fun s s' hs => ?_) brace (finishes_selectionSet h _ _ _ hs)
      · rwa [isPunctuator_congr hl]
      · simp only [readDefinition, hp, if_true]
      · simp [Ast.Definition.shape, Ast.Operation.shape, hs]
    by_cases word : l.isWord "fragment" = true
    · simp only [readDefinition, brace, word, if_true, Bool.false_eq_true, if_false] at hr
      obtain ⟨⟨f, rest'⟩, hf, he⟩ := map_eq_ok_iff.mp hr
      cases he
      refine FinishesOff.first
        (p := fun l => ¬ l.isPunctuator .braceOpen = true ∧ l.isWord "fragment" = true)
        (f := Ast.Definition.fragment) (fun l l' hl hp => ?_) (fun l ls hp => ?_)
        (fun f f' hf => congrArg Ast.Definition.fragment hf) ⟨brace, word⟩
        (finishes_fragment h _ _ _ hf)
      · rwa [isPunctuator_congr hl, isWord_congr hl]
      · simp only [readDefinition, hp.1, hp.2, if_true, Bool.false_eq_true, if_false]
    · simp only [readDefinition, brace, word, Bool.false_eq_true, if_false] at hr
      cases ho : operationType? l with
      | none => simp [ho] at hr
      | some type =>
        simp only [ho] at hr
        obtain ⟨⟨o, rest'⟩, ho', he⟩ := map_eq_ok_iff.mp hr
        cases he
        refine FinishesOff.first
          (p := fun l => ¬ l.isPunctuator .braceOpen = true ∧ ¬ l.isWord "fragment" = true ∧
            operationType? l = some type)
          (f := Ast.Definition.operation) (fun l l' hl hp => ?_) (fun l ls hp => ?_)
          (fun o o' ho => congrArg Ast.Definition.operation ho) ⟨brace, word, ho⟩
          (finishes_operation h type _ _ _ ho')
        · unfold operationType? at hp ⊢
          simpa only [isPunctuator_congr hl, isWord_congr hl] using hp
        · simp only [readDefinition, hp.1, hp.2.1, hp.2.2, Bool.false_eq_true, if_false]

/-! ## One piece -/

/-- The piece stands for a definition of the given shape. -/
def Stands (depth : Nat) (piece : List Lexeme) (shape : Ast.Definition) : Prop :=
  ∃ d, readDefinition depth piece = .ok (d, []) ∧ d.shape = shape

theorem Stands.congr {n m : Nat} {piece piece' : List Lexeme} {shape : Ast.Definition}
    (h : Stands n piece shape) (hn : n ≤ m)
    (hface : piece'.map Lexeme.face = piece.map Lexeme.face) : Stands m piece' shape := by
  obtain ⟨d, hd, rfl⟩ := h
  obtain ⟨taken, hls, -, hread⟩ := finishes_definition hn piece d [] hd
  obtain rfl : piece = taken := by simpa using hls
  obtain ⟨d', hd', hshape⟩ := hread piece' [] hface
  exact ⟨d', by simpa using hd', hshape⟩

theorem Stands.unique {n m : Nat} {piece piece' : List Lexeme} {shape shape' : Ast.Definition}
    (h : Stands n piece shape) (h' : Stands m piece' shape')
    (hface : piece'.map Lexeme.face = piece.map Lexeme.face) : shape = shape' := by
  obtain ⟨d, hd, rfl⟩ := h.congr (le_max_left n m) hface
  obtain ⟨d', hd', rfl⟩ := h'.congr (le_max_right n m) rfl
  rw [hd] at hd'
  cases hd'
  rfl

/-- A piece that stands for a definition is read whatever follows, and is cut off. -/
theorem Stands.append {n : Nat} {piece : List Lexeme} {shape : Ast.Definition}
    (h : Stands n piece shape) (rest : List Lexeme) : piece ≠ [] ∧
      pieces 0 (piece ++ rest) = piece :: pieces 0 rest ∧
      ∃ d, readDefinition n (piece ++ rest) = .ok (d, rest) ∧ d.shape = shape := by
  obtain ⟨d, hd, rfl⟩ := h
  obtain ⟨taken, hls, hcut, hread⟩ := finishes_definition (le_refl n) piece d [] hd
  obtain rfl : piece = taken := by simpa using hls
  refine ⟨?_, hcut rest, hread piece rest rfl⟩
  rintro rfl
  have hnil := hcut []
  simp [pieces, Lexis.cut] at hnil

theorem stands_of_readDefinition {n : Nat} {ls rest : List Lexeme} {d : Ast.Definition}
    (h : readDefinition n ls = .ok (d, rest)) :
    ∃ piece, ls = piece ++ rest ∧ Stands n piece d.shape := by
  obtain ⟨taken, hls, -, hread⟩ := finishes_definition (le_refl n) ls d rest h
  obtain ⟨d', hd', hshape⟩ := hread taken [] rfl
  exact ⟨taken, hls, d', by simpa using hd', hshape⟩

/-! ## All pieces -/

theorem length_readDefinition_lt {n : Nat} (ls : List Lexeme) (d : Ast.Definition)
    (rest : List Lexeme) (h : readDefinition n ls = .ok (d, rest)) : rest.length < ls.length := by
  obtain ⟨piece, rfl, hp⟩ := stands_of_readDefinition h
  have := List.length_pos_iff.mpr (hp.append []).1
  simp only [List.length_append]
  omega

/-- Definitions are read up to the end. -/
def readAll (n : Nat) : Reader (List Ast.Definition) :=
  Reader.many (fun _ => true) (readDefinition n)

theorem readAll_of_ok {n : Nat} {ls rest : List Lexeme} {d : Ast.Definition}
    (h : readDefinition n ls = .ok (d, rest)) :
    readAll n ls = (readAll n >>= fun ds => pure (d :: ds)) rest := by
  have hne : ls ≠ [] := by rintro rfl; cases h
  obtain ⟨l, ls, rfl⟩ := List.exists_cons_of_ne_nil hne
  refine (congrFun (many_eq length_readDefinition_lt) (l :: ls)).trans ?_
  change (readDefinition n >>= fun d => readAll n >>= fun ds => pure (d :: ds)) (l :: ls) = _
  exact bind_of_ok h

theorem readDefinitions_eq_readAll {n : Nat} {ls : List Lexeme} (h : ls ≠ []) :
    readDefinitions n ls = readAll n ls := by
  obtain ⟨l, ls, rfl⟩ := List.exists_cons_of_ne_nil h
  rw [readAll, many_eq length_readDefinition_lt]
  rfl

theorem stands_of_readAll {n : Nat} {ls rest : List Lexeme} {ds : List Ast.Definition}
    (h : readAll n ls = .ok (ds, rest)) :
    rest = [] ∧ List.Forall₂ (Stands n) (pieces 0 ls) (ds.map Ast.Definition.shape) := by
  induction hk : ls.length using Nat.strong_induction_on generalizing ls ds with
  | _ k ih =>
    subst hk
    cases ls with
    | nil => cases h; exact ⟨rfl, .nil⟩
    | cons l ls =>
      rw [readAll, many_eq length_readDefinition_lt] at h
      change (readDefinition n >>= fun d => readAll n >>= fun ds => pure (d :: ds)) (l :: ls) =
        _ at h
      obtain ⟨d, between, hd, h⟩ := bind_eq_ok h
      obtain ⟨es, rest', hes, h⟩ := bind_eq_ok h
      cases h
      obtain ⟨piece, hls, hp⟩ := stands_of_readDefinition hd
      obtain ⟨hrest, hall⟩ := ih between.length (length_readDefinition_lt _ _ _ hd) hes rfl
      rw [hls, (hp.append between).2.1]
      exact ⟨hrest, .cons hp hall⟩

theorem readAll_of_stands {n : Nat} {ls : List Lexeme} {shapes : List Ast.Definition}
    (h : List.Forall₂ (Stands n) (pieces 0 ls) shapes) :
    ∃ ds, readAll n ls = .ok (ds, []) ∧ ds.map Ast.Definition.shape = shapes := by
  generalize hps : pieces 0 ls = ps at h
  induction h generalizing ls with
  | nil =>
    have hflat := Lexis.flatten_cut (p := Lexeme.punctuator?) 0 ls
    rw [show Lexis.cut Lexeme.punctuator? 0 ls = [] from hps] at hflat
    obtain rfl : ls = [] := by simpa using hflat.symm
    exact ⟨[], rfl, rfl⟩
  | cons hp hps' ih =>
    rename_i piece shape ps shapes
    have hflat := Lexis.flatten_cut (p := Lexeme.punctuator?) 0 ls
    rw [show Lexis.cut Lexeme.punctuator? 0 ls = piece :: ps from hps, List.flatten_cons] at hflat
    obtain ⟨-, hcut, d, hd, hshape⟩ := hp.append ps.flatten
    rw [hflat] at hcut hd
    obtain ⟨-, hrest⟩ := List.cons.inj (hcut.symm.trans hps)
    obtain ⟨ds, hds, hshapes⟩ := ih hrest
    refine ⟨d :: ds, ?_, by rw [List.map_cons, hshape, hshapes]⟩
    rw [readAll_of_ok hd, bind_of_ok hds]
    rfl

/-- A text is read if its lexemes go on to its end and each piece stands for a definition. -/
theorem exists_read_iff {text : List Char} {shapes : List Ast.Definition} :
    (∃ ds, read text = .ok ds ∧ ds.map Ast.Definition.shape = shapes) ↔
      (lexemes text).2.fault = none ∧ (lexemes text).1 ≠ [] ∧
        List.Forall₂ (Stands (lexemes text).1.length) (pieces 0 (lexemes text).1) shapes := by
  unfold read ofLexemes
  generalize (lexemes text).1 = ls, (lexemes text).2 = ending
  constructor
  · rintro ⟨ds, h, rfl⟩
    split at h
    · cases h
    · rename_i es rest hr
      split at h
      · cases h
        have hne : ls ≠ [] := by rintro rfl; cases hr
        rw [readDefinitions_eq_readAll hne] at hr
        exact ⟨by simpa using ‹ending.fault.isNone = true›, hne, (stands_of_readAll hr).2⟩
      · cases h
  · rintro ⟨hf, hne, hall⟩
    obtain ⟨ds, hds, hshapes⟩ := readAll_of_stands hall
    rw [readDefinitions_eq_readAll hne, hds]
    exact ⟨ds, by simp [hf], hshapes⟩

end QueryDoc.Grammar
