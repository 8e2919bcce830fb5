import QueryDoc.Proofs.Grammar.Reading

/-!
# Shapes

The shape of a syntax tree is the tree with all positions moved to the origin. The readers of the
grammar make trees of one shape of lexemes with the same faces.
-/
namespace QueryDoc.Ast

def origin : Position := ⟨0, 0⟩

def Directive.shape (d : Directive) : Directive := { d with position := origin }

def VariableDefinition.shape (v : VariableDefinition) : VariableDefinition :=
  { v with position := origin }

def Braces.origin : Braces := ⟨Ast.origin, Ast.origin⟩

mutual

def Selection.shape : Selection → Selection
  | .field _ responseName name arguments directives _ items =>
    .field origin responseName name arguments (directives.map Directive.shape) .origin
      (shapes items)
  | .spread _ fragment directives => .spread origin fragment (directives.map Directive.shape)
  | .inline _ type directives _ items =>
    .inline origin type (directives.map Directive.shape) .origin (shapes items)

def shapes : List Selection → List Selection
  | [] => []
  | s :: items => s.shape :: shapes items

end

theorem shapes_eq_map (items : List Selection) : shapes items = items.map Selection.shape := by
  induction items with
  | nil => rfl
  | cons s items ih => rw [shapes, List.map_cons, ih]

def SelectionSet.shape (s : SelectionSet) : SelectionSet := ⟨.origin, shapes s.items⟩

def OperationHead.shape (h : OperationHead) : OperationHead :=
  { h with
    position := origin
    declared := h.declared.map VariableDefinition.shape
    directives := h.directives.map Directive.shape }

def Operation.shape (o : Operation) : Operation :=
  ⟨o.head.map OperationHead.shape, o.selections.shape⟩

def Fragment.shape (f : Fragment) : Fragment :=
  { f with
    position := origin
    directives := f.directives.map Directive.shape
    selections := f.selections.shape }

def Definition.shape : Definition → Definition
  | .operation o => .operation o.shape
  | .fragment f => .fragment f.shape

end QueryDoc.Ast

namespace QueryDoc.Grammar

open QueryDoc.Ast

theorem text_eq_of_face_eq {l l' : Lexeme} (h : l'.face = l.face) : l'.text = l.text :=
  congrArg Prod.snd h

theorem word_eq_of_face_eq {l l' : Lexeme} (h : l'.face = l.face) : l'.word = l.word :=
  congrArg String.ofList (text_eq_of_face_eq h)

/-! ## Values -/

/-- The manner of a value, which may have braces of its own. -/
def Manner.value : Manner := ⟨true, false, 1, 0⟩

theorem reads_field {r r' : Reader Value} (h : Reads .value id r r') :
    Reads .value id (readField r) (readField r') := by
  refine (reads_name.bind fun l l' hl => (reads_punctuator .colon).bind fun _ _ _ =>
    h.bind_pure fun v v' hv => ?_).weaken (by decide)
  rw [word_eq_of_face_eq hl, show v' = v from hv]

/-- Whether a value can start with a lexeme of the category. -/
def startsValue (constant : Bool) : Category → Bool
  | .punctuator .dollar => !constant
  | .punctuator p => p == .squareOpen || p == .braceOpen
  | _ => true

theorem reads_value (constant : Bool) {n m : Nat} (h : n ≤ m) :
    Reads .value id (readValue constant n) (readValue constant m) := by
  induction m generalizing n with
  | zero =>
    obtain rfl : n = 0 := by omega
    exact reads_of_refuses fun ls a rest hr => by cases ls <;> cases hr
  | succ m ih =>
    cases n with
    | zero => exact reads_of_refuses fun ls a rest hr => by cases ls <;> cases hr
    | succ n =>
      have element := ih (by omega : n ≤ m)
      have element' := ih (le_refl m)
      refine Reads.lexeme_bind (faced_category (startsValue constant)) fun l l' hl hface => ?_
      obtain ⟨c, t, p⟩ := l
      obtain ⟨_, _, p'⟩ := l'
      obtain ⟨rfl, rfl⟩ := Prod.mk.inj hface.symm
      cases c with
      | name => exact ⟨_, .pure rfl, by dsimp only [Lexeme.punctuator?]; decide⟩
      | int =>
        exact ⟨_, (reads_literal _).bind_pure fun a a' h => congrArg Value.int h,
          by dsimp only [Lexeme.punctuator?]; decide⟩
      | float =>
        exact ⟨_, (reads_literal _).bind_pure fun a a' h => congrArg Value.float h,
          by dsimp only [Lexeme.punctuator?]; decide⟩
      | string | block =>
        exact ⟨_, (reads_literal _).bind_pure fun a a' h => congrArg Value.string h,
          by dsimp only [Lexeme.punctuator?]; decide⟩
      | punctuator p =>
        cases p with
        | dollar =>
          exact ⟨_,
            reads_name.bind_pure fun a a' h => congrArg Value.variable (word_eq_of_face_eq h),
            by dsimp only [Lexeme.punctuator?]; decide⟩
        | squareOpen =>
          have many := element.many (faced_not (faced_isPunctuator .squareClose)) element' rfl rfl
            (by decide)
          exact ⟨_, many.bind fun vs vs' hvs => (reads_punctuator .squareClose).bind_pure
            fun _ _ _ => by simpa using hvs, by dsimp only [Lexeme.punctuator?]; decide⟩
        | braceOpen =>
          have many := (reads_field element).many (faced_not (faced_isPunctuator .braceClose))
            (reads_field element') rfl rfl (by decide)
          exact ⟨_, many.bind fun vs vs' hvs => (reads_punctuator .braceClose).bind_pure
            fun _ _ _ => by simpa using congrArg sortFields hvs,
            by dsimp only [Lexeme.punctuator?]; decide⟩
        | _ => simp [startsValue] at hl

/-! ## Parts of definitions -/

/-- The manner of a part that may be absent. -/
def Manner.part : Manner := ⟨false, true, 0, 0⟩

theorem reads_arguments {n m : Nat} (h : n ≤ m) :
    Reads .part id (readArguments n) (readArguments m) := by
  have some := (reads_field (reads_value false h)).someUpTo .parenClose
    (reads_field (reads_value false (le_refl m))) rfl rfl (by decide)
  refine (Reads.ifNext .part (faced_isPunctuator .parenOpen)
    ((reads_punctuator .parenOpen).bind fun _ _ _ => some.bind fun vs vs' hvs =>
      (reads_punctuator .parenClose).bind_pure fun _ _ _ => ?_)
    (.pure rfl) (by decide) (by decide)).weaken (by decide)
  simpa using hvs

theorem reads_directive {n m : Nat} (h : n ≤ m) :
    Reads ⟨true, true, 0, 0⟩ Directive.shape (readDirective n) (readDirective m) := by
  refine ((reads_punctuator .atSign).bind fun _ _ _ => reads_name.bind fun l l' hl =>
    (reads_arguments h).bind_pure fun a a' ha => ?_).weaken (by decide)
  simp [Directive.shape, word_eq_of_face_eq hl, show a' = a from ha]

theorem reads_directives {n m : Nat} (h : n ≤ m) :
    Reads .part (List.map Directive.shape) (readDirectives n) (readDirectives m) :=
  (reads_directive h).many (faced_isPunctuator .atSign) (reads_directive (le_refl m)) rfl rfl
    (by decide)

theorem reads_type {n m : Nat} (h : n ≤ m) :
    Reads ⟨true, true, 0, 0⟩ id (readType n) (readType m) := by
  induction n generalizing m with
  | zero => exact reads_of_refuses fun ls a rest hr => by cases ls <;> cases hr
  | succ n ih =>
    obtain ⟨m, rfl⟩ : ∃ k, m = k + 1 := ⟨m - 1, by omega⟩
    have element := ih (by omega : n ≤ m)
    have bang (t t' : TypeRef) (ht : t' = t) := Reads.ifNext (e := id) .part
      (faced_isPunctuator .bang)
      (Reads.bind_pure (f := fun _ => TypeRef.nonNull t) (reads_punctuator .bang)
        fun _ _ _ => show TypeRef.nonNull t' = TypeRef.nonNull t from congrArg TypeRef.nonNull ht)
      (.pure ht) (by decide) (by decide)
    have list {t t' : TypeRef} (ht : t' = t) : Reads .idle id (pure t.list) (pure t'.list) :=
      .pure (congrArg TypeRef.list ht)
    have named {l l' : Lexeme} (hl : l'.face = l.face) :
        Reads .idle id (pure (TypeRef.named l.word)) (pure (TypeRef.named l'.word)) :=
      .pure (congrArg TypeRef.named (word_eq_of_face_eq hl))
    exact (Reads.ifNext ⟨true, true, 0, 0⟩ (faced_isPunctuator .squareOpen)
      ((reads_punctuator .squareOpen).bind fun _ _ _ => element.bind fun t t' ht =>
        (reads_punctuator .squareClose).bind fun _ _ _ => (list ht).bind bang)
      (reads_name.bind fun l l' hl => (named hl).bind bang)
      (by decide) (by decide)).weaken (by decide)

theorem reads_variable {n m : Nat} (h : n ≤ m) :
    Reads ⟨true, true, 1, 0⟩ VariableDefinition.shape (readVariable n) (readVariable m) := by
  have value := ((reads_punctuator .equals).bind fun _ _ _ => reads_value true h).optional
    (faced_isPunctuator .equals) (by decide) (by decide)
  refine ((reads_punctuator .dollar).bind fun _ _ _ => reads_name.bind fun l l' hl =>
    (reads_punctuator .colon).bind fun _ _ _ => (reads_type h).bind fun t t' ht =>
      value.bind_pure fun d d' hd => ?_).weaken (by decide)
  have hd : d' = d := by simpa using hd
  simp [VariableDefinition.shape, word_eq_of_face_eq hl, show t' = t from ht, hd]

theorem reads_variables {n m : Nat} (h : n ≤ m) :
    Reads .part (List.map VariableDefinition.shape) (readVariables n) (readVariables m) := by
  have some := (reads_variable h).someUpTo .parenClose (reads_variable (le_refl m)) rfl rfl
    (by decide)
  exact (Reads.ifNext .part (faced_isPunctuator .parenOpen)
    ((reads_punctuator .parenOpen).bind fun _ _ _ => some.bind fun vs vs' hvs =>
      (reads_punctuator .parenClose).bind_pure fun _ _ _ => hvs)
    (.pure rfl) (by decide) (by decide)).weaken (by decide)

/-! ## Selections -/

/-- The manner of a selection. -/
def Manner.selection : Manner := ⟨true, true, 1, 0⟩

theorem reads_selectionSet {r r' : Reader Selection} (h : Reads .selection Selection.shape r r')
    (h' : Reads .selection Selection.shape r' r') :
    Reads .value SelectionSet.shape (readSelectionSet r) (readSelectionSet r') := by
  refine ((reads_punctuator .braceOpen).bind fun _ _ _ =>
    (h.someUpTo .braceClose h' rfl rfl (by decide)).bind fun items items' hitems =>
      (reads_punctuator .braceClose).bind_pure fun _ _ _ => ?_).weaken (by decide)
  simp [SelectionSet.shape, shapes_eq_map, hitems]

theorem faced_startsInline : Faced startsInline := fun l l' h => by
  simp only [startsInline, faced_isWord _ l l' h, faced_isPunctuator _ l l' h]

theorem map_word_eq {l l' : Option Lexeme} (h : l'.map Lexeme.face = l.map Lexeme.face) :
    l'.map Lexeme.word = l.map Lexeme.word := by
  have := congrArg (Option.map fun f : Face => String.ofList f.2) h
  rwa [Option.map_map, Option.map_map] at this

theorem reads_spread {n m : Nat} (hn : n ≤ m) {r r' : Reader Selection}
    (h : Reads .selection Selection.shape r r') (h' : Reads .selection Selection.shape r' r') :
    Reads .selection Selection.shape (readSpread n r) (readSpread m r') := by
  have type := ((reads_word "on").bind fun _ _ _ => reads_name).optional (faced_isWord "on")
    (by decide) (by decide)
  refine (reads_here.bind fun p p' _ => Reads.ifNext .selection faced_startsInline
    (type.bind fun t t' ht => (reads_directives hn).bind fun ds ds' hds =>
      (reads_selectionSet h h').bind_pure fun s s' hs => ?_)
    (reads_name.bind fun l l' hl => (reads_directives hn).bind_pure fun ds ds' hds => ?_)
    (by decide) (by decide)).weaken (by decide)
  · have hs : shapes s'.items = shapes s.items := congrArg SelectionSet.items hs
    simp [Selection.shape, map_word_eq ht, hds, hs]
  · simp [Selection.shape, word_eq_of_face_eq hl, hds]

theorem reads_fieldSelection {n m : Nat} (hn : n ≤ m) {r r' : Reader Selection}
    (h : Reads .selection Selection.shape r r') (h' : Reads .selection Selection.shape r' r') :
    Reads .selection Selection.shape (readFieldSelection n r) (readFieldSelection m r') := by
  have second := ((reads_punctuator .colon).bind fun _ _ _ => reads_name).optional
    (faced_isPunctuator .colon) (by decide) (by decide)
  have set := (reads_selectionSet h h').optional (faced_isPunctuator .braceOpen) (by decide)
    (by decide)
  refine (reads_name.bind fun l l' hl => second.bind fun o o' ho =>
    (reads_arguments hn).bind fun as as' has => (reads_directives hn).bind fun ds ds' hds =>
      set.bind_pure fun s s' hs => ?_).weaken (by decide)
  have hs : shapes ((s'.map SelectionSet.items).getD []) =
      shapes ((s.map SelectionSet.items).getD []) := by
    have := congrArg (fun x => (x.map SelectionSet.items).getD []) hs
    cases s <;> cases s' <;> simp_all [SelectionSet.shape]
  have ho : o'.map (fun _ => l'.word) = o.map (fun _ => l.word) ∧
      (o'.getD l').word = (o.getD l).word := by
    have hw := word_eq_of_face_eq hl
    have := map_word_eq ho
    cases o <;> cases o' <;> simp_all
  simp [Selection.shape, ho, show as' = as from has, hds, hs]

theorem reads_selection {n m : Nat} (h : n ≤ m) :
    Reads .selection Selection.shape (readSelection n) (readSelection m) := by
  induction m generalizing n with
  | zero =>
    obtain rfl : n = 0 := by omega
    exact reads_of_refuses fun ls a rest hr => by cases ls <;> cases hr
  | succ m ih =>
    cases n with
    | zero => exact reads_of_refuses fun ls a rest hr => by cases ls <;> cases hr
    | succ n =>
      have item := ih (by omega : n ≤ m)
      have item' := ih (le_refl m)
      have hn : n ≤ m := by omega
      exact (Reads.ifNext .selection (faced_isPunctuator .spread)
        ((reads_punctuator .spread).bind fun _ _ _ => reads_spread hn item item')
        (reads_fieldSelection hn item item') (by decide) (by decide)).weaken (by decide)

end QueryDoc.Grammar
