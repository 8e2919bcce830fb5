import QueryDoc.Proofs.Grammar.Outline

/-!
# Literals have values

A reader takes no literal that has no value: whatever it takes, the faces are `Valued`. So all
lexemes of a text that is read are, and they go on to its end (`valued_of_read`).
-/
namespace QueryDoc.Grammar

open QueryDoc.Ast

/-- Has the literal a value? What is no literal needs none. -/
def Valued : Face → Prop
  | (.int, text) => ∃ n, intValue text = .ok n
  | (.float, text) => ∃ x, floatValue text = .ok x
  | (.string, text) => ∃ s, stringValue text = .ok s
  | (.block, text) => ∃ s, blockValue text = .ok s
  | _ => True

/-- All of the literals have values. -/
def AllValued (fs : List Face) : Prop := ∀ f ∈ fs, Valued f

theorem allValued_nil : AllValued [] := List.forall_mem_nil _

theorem adds_allValued : Adds AllValued :=
  ⟨allValued_nil, fun hf hg => List.forall_mem_append.mpr ⟨hf, hg⟩⟩

theorem Spans.andThen {α β : Type} {r : Reader α} {f : α → Reader β} (h : Spans AllValued r)
    (hf : ∀ a, Spans AllValued (f a)) : Spans AllValued (r >>= f) :=
  h.bind_of_adds adds_allValued hf

/-- What stands behind a lexeme that needs no value or has one. -/
theorem Spans.behind {α : Type} {r : Reader α} {l : Lexeme} (hl : Valued l.face)
    (h : Spans AllValued r) : Spans (fun fs => AllValued (l.face :: fs)) r :=
  h.mono fun _ hfs => List.forall_mem_cons.mpr ⟨hl, hfs⟩

theorem valued_of_punctuator {l : Lexeme} {p : Punctuator} (h : l.category = .punctuator p) :
    Valued l.face := by
  simp [Lexeme.face, h, Valued]

theorem valued_of_name {l : Lexeme} (h : l.category = .name) : Valued l.face := by
  simp [Lexeme.face, h, Valued]

theorem takes_punctuator (p : Punctuator) : Spans AllValued (Reader.punctuator p) := by
  refine spans_lexeme fun l hl => List.forall_mem_singleton.mpr ?_
  exact valued_of_punctuator (p := p) (by simpa [Lexeme.isPunctuator] using hl)

theorem takes_name : Spans AllValued Reader.name := by
  refine spans_lexeme fun l hl => List.forall_mem_singleton.mpr ?_
  exact valued_of_name (by simpa using hl)

theorem takes_word (text : String) : Spans AllValued (Reader.word text) := by
  refine spans_lexeme fun l hl => List.forall_mem_singleton.mpr ?_
  have hword : l.category = .name ∧ l.text = text.toList := by simpa [Lexeme.isWord] using hl
  exact valued_of_name hword.1

/-! ## Values and types -/

/-- A literal is taken only with its value. -/
theorem takes_literal {α γ : Type} {l : Lexeme} {x : Except LiteralFault γ} {f : γ → α}
    (h : ∀ a, x = .ok a → Valued l.face) :
    Spans (fun fs => AllValued (l.face :: fs)) (Reader.literal l x >>= fun a => pure (f a)) := by
  cases x with
  | ok a => exact (Spans.pure allValued_nil (f a)).behind (h a rfl)
  | error fault => exact spans_of_refuses fun ls b rest hr => by cases hr

theorem ok_of_mapError {ε δ α : Type} {x : Except ε α} {f : ε → δ} {a : α}
    (h : x.mapError f = .ok a) : x = .ok a := by
  cases x with
  | error e => cases h
  | ok b => exact congrArg Except.ok (Except.ok.inj h)

theorem takes_field {value : Reader Value} (h : Spans AllValued value) :
    Spans AllValued (readField value) :=
  takes_name.andThen fun _ =>
    (takes_punctuator .colon).andThen fun _ => h.bind_pure

theorem takes_value (constant : Bool) (depth : Nat) :
    Spans AllValued (readValue constant depth) := by
  induction depth with
  | zero => exact spans_refuse
  | succ depth ih =>
    refine .lexeme_bind (p := fun l => startsValue constant l.category) fun l hl => ?_
    have valued {c : Category} (hc : l.category = c) (h : Valued (c, l.text)) : Valued l.face := by
      rwa [Lexeme.face, hc]
    rcases hc : l.category with p | _ | _ | _ | _ | _
    · have hp := valued_of_punctuator hc
      rw [hc] at hl
      cases p with
      | squareOpen =>
        exact ((ih.many_of_adds adds_allValued).andThen fun _ =>
          (takes_punctuator .squareClose).bind_pure).behind hp
      | braceOpen =>
        exact (((takes_field ih).many_of_adds adds_allValued).andThen fun _ =>
          (takes_punctuator .braceClose).bind_pure).behind hp
      | dollar => exact takes_name.bind_pure.behind hp
      | _ => simp [startsValue] at hl
    · exact (Spans.pure allValued_nil _).behind (valued_of_name hc)
    · exact takes_literal fun n hn => valued hc ⟨n, ok_of_mapError hn⟩
    · exact takes_literal fun x hx => valued hc ⟨x, ok_of_mapError hx⟩
    · exact takes_literal fun s hs => valued hc ⟨s, ok_of_mapError hs⟩
    · exact takes_literal fun s hs => valued hc ⟨s, hs⟩

theorem takes_type (depth : Nat) : Spans AllValued (readType depth) := by
  induction depth with
  | zero => exact spans_refuse
  | succ depth ih =>
    have bang (t : TypeRef) : Spans AllValued (Reader.nextIs .bang >>= fun b =>
        if b then Reader.punctuator .bang >>= fun _ => pure t.nonNull else pure t) :=
      (takes_punctuator .bang).bind_pure.ifNext (.pure allValued_nil t)
    exact Spans.ifNext
      ((takes_punctuator .squareOpen).andThen fun _ =>
        ih.andThen fun t =>
          (takes_punctuator .squareClose).andThen fun _ =>
            (Spans.pure allValued_nil (TypeRef.list t)).andThen bang)
      (takes_name.andThen fun l =>
        (Spans.pure allValued_nil (TypeRef.named l.word)).andThen bang)

/-! ## Parts of definitions -/

theorem takes_arguments (depth : Nat) : Spans AllValued (readArguments depth) :=
  Spans.ifNext
    ((takes_punctuator .parenOpen).andThen fun _ =>
      ((takes_field (takes_value false depth)).someUpTo_of_adds adds_allValued).andThen
        fun _ => (takes_punctuator .parenClose).bind_pure)
    (.pure allValued_nil [])

theorem takes_directives (depth : Nat) : Spans AllValued (readDirectives depth) := by
  have directive : Spans AllValued (readDirective depth) :=
    (takes_punctuator .atSign).andThen fun _ =>
      takes_name.andThen fun _ => (takes_arguments depth).bind_pure
  exact directive.many_of_adds adds_allValued

theorem takes_variable (depth : Nat) : Spans AllValued (readVariable depth) := by
  have default : Spans AllValued (Reader.optional (·.isPunctuator .equals) do
      let _ ← Reader.punctuator .equals
      readValue true depth) :=
    .optional allValued_nil ((takes_punctuator .equals).andThen fun _ =>
      takes_value true depth)
  exact (takes_punctuator .dollar).andThen fun _ =>
    takes_name.andThen fun _ =>
      (takes_punctuator .colon).andThen fun _ =>
        (takes_type depth).andThen fun _ => default.bind_pure

theorem takes_variables (depth : Nat) : Spans AllValued (readVariables depth) :=
  Spans.ifNext
    ((takes_punctuator .parenOpen).andThen fun _ =>
      ((takes_variable depth).someUpTo_of_adds adds_allValued).andThen
        fun _ => (takes_punctuator .parenClose).bind_pure)
    (.pure allValued_nil [])

/-! ## Selections -/

theorem takes_selectionSet {selection : Reader Selection} (h : Spans AllValued selection) :
    Spans AllValued (readSelectionSet selection) :=
  (takes_punctuator .braceOpen).andThen fun _ =>
    (h.someUpTo_of_adds adds_allValued).andThen fun _ =>
      (takes_punctuator .braceClose).bind_pure

theorem takes_spread {selection : Reader Selection} (depth : Nat) (h : Spans AllValued selection) :
    Spans AllValued (readSpread depth selection) := by
  have type : Spans AllValued (Reader.optional (·.isWord "on") do
      let _ ← Reader.word "on"
      Reader.name) :=
    .optional allValued_nil ((takes_word "on").andThen fun _ => takes_name)
  exact (spans_here allValued_nil).andThen fun _ => .ifNext
    (type.andThen fun _ =>
      (takes_directives depth).andThen fun _ =>
        (takes_selectionSet h).bind_pure)
    (takes_name.andThen fun _ => (takes_directives depth).bind_pure)

theorem takes_fieldSelection {selection : Reader Selection} (depth : Nat)
    (h : Spans AllValued selection) : Spans AllValued (readFieldSelection depth selection) := by
  have second : Spans AllValued (Reader.optional (·.isPunctuator .colon) do
      let _ ← Reader.punctuator .colon
      Reader.name) :=
    .optional allValued_nil ((takes_punctuator .colon).andThen fun _ =>
      takes_name)
  exact takes_name.andThen fun _ => second.andThen fun _ =>
    (takes_arguments depth).andThen fun _ =>
      (takes_directives depth).andThen fun _ =>
        ((takes_selectionSet h).optional allValued_nil).bind_pure

theorem takes_selection (depth : Nat) : Spans AllValued (readSelection depth) := by
  induction depth with
  | zero => exact spans_refuse
  | succ depth ih =>
    exact .ifNext
      ((takes_punctuator .spread).andThen fun _ => takes_spread depth ih)
      (takes_fieldSelection depth ih)

/-! ## Definitions -/

theorem takes_operation (depth : Nat) (type : OperationType) :
    Spans AllValued (readOperation depth type) :=
  takes_name.andThen fun _ =>
    (takes_name.optional allValued_nil).andThen fun _ =>
      (takes_variables depth).andThen fun _ =>
        (takes_directives depth).andThen fun _ =>
          (takes_selectionSet (takes_selection depth)).bind_pure

theorem takes_fragment (depth : Nat) : Spans AllValued (readFragment depth) :=
  (takes_word "fragment").andThen fun _ =>
    takes_name.andThen fun _ =>
      (takes_word "on").andThen fun _ =>
        takes_name.andThen fun _ =>
          (takes_directives depth).andThen fun _ =>
            (takes_selectionSet (takes_selection depth)).bind_pure

theorem takes_definition (depth : Nat) : Spans AllValued (readDefinition depth) := by
  intro ls d rest hr
  cases ls with
  | nil => cases hr
  | cons l ls =>
    unfold readDefinition at hr
    dsimp only at hr
    split at hr
    · obtain ⟨⟨s, rest'⟩, hs, he⟩ := map_eq_ok_iff.mp hr
      cases he
      exact takes_selectionSet (takes_selection depth) _ _ _ hs
    · split at hr
      · obtain ⟨⟨f, rest'⟩, hf, he⟩ := map_eq_ok_iff.mp hr
        cases he
        exact takes_fragment depth _ _ _ hf
      · split at hr
        · obtain ⟨⟨o, rest'⟩, ho, he⟩ := map_eq_ok_iff.mp hr
          cases he
          exact takes_operation depth _ _ _ _ ho
        · cases hr

/-- The lexemes of a text that is read go on to its end, and its literals have values. -/
theorem valued_of_read {text : List Char} {ds : List Ast.Definition} (h : read text = .ok ds) :
    (lexemes text).2.fault = none ∧ ∀ l ∈ (lexemes text).1, Valued l.face := by
  unfold read ofLexemes at h
  split at h
  · cases h
  · rename_i es rest hr
    split at h
    · rename_i hfault
      refine ⟨Option.isNone_iff_eq_none.mp hfault, ?_⟩
      have hne : (lexemes text).1 ≠ [] := by
        intro hnil
        rw [hnil] at hr
        cases hr
      rw [readDefinitions_eq_readAll hne] at hr
      obtain ⟨rfl, -⟩ := stands_of_readAll hr
      obtain ⟨taken, hls, hall⟩ :=
        (takes_definition (lexemes text).1.length).many_of_adds adds_allValued _ _ _ hr
      rw [hls, List.append_nil]
      exact List.forall_mem_map.mp hall
    · cases h

end QueryDoc.Grammar
