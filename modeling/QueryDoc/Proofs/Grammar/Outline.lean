import QueryDoc.Proofs.Grammar.Spelling
import QueryDoc.Proofs.Lexis.Nesting

/-!
# Outlines

Whatever a reader takes has its brackets nested. Of what a definition has on the ground, outside all
brackets, its names come first (`lead`): no name stands right behind them, and no two names stand
side by side any more (`outline_of_means`). So the word `fragment` stands in front of another name
in two places at most (`Outline.fragment_name`), and something else than a name stands behind the
variables of an operation (`words_behind_variables`).
-/
namespace QueryDoc.Grammar

open QueryDoc.Ast QueryDoc.Lexis

/-- The punctuator that a face shows. -/
def shown (f : Face) : Option Punctuator := f.1.punctuator?

/-! ## Faces outside brackets -/

/-- No name stands behind a name, and none stands first. -/
def Apart (fs : List Face) : Prop :=
  ((.name, []) :: fs : List Face).IsChain fun f g => f.1 = .name → g.1 ≠ .name

theorem apart_nil : Apart [] := .singleton _

theorem apart_cons_of_ne {f : Face} (hf : f.1 ≠ .name) {fs : List Face} (h : Apart fs) :
    Apart (f :: fs) := by
  refine .cons_cons (fun _ => hf) ?_
  cases fs with
  | nil => exact .singleton _
  | cons g fs => exact .cons_cons (fun h => absurd h hf) (List.isChain_cons_cons.mp h).2

/-- A name can stand behind something that is none. -/
theorem apart_cons_name {f g : Face} (hf : f.1 ≠ .name) {fs : List Face} (h : Apart fs) :
    Apart (f :: g :: fs) := by
  refine .cons_cons (fun _ => hf) (.cons_cons (fun h => absurd h hf) ?_)
  cases fs with
  | nil => exact .singleton _
  | cons k fs =>
    obtain ⟨hk, hchain⟩ := List.isChain_cons_cons.mp h
    exact .cons_cons (fun _ => hk rfl) hchain

theorem Apart.append {fs gs : List Face} (hf : Apart fs) (hg : Apart gs) : Apart (fs ++ gs) := by
  refine List.isChain_append.mpr ⟨hf, (List.isChain_cons.mp hg).2, fun f _ g hg' _ => ?_⟩
  exact (List.isChain_cons.mp hg).1 g hg' rfl

/-- Even behind something else, no two names stand side by side. -/
theorem Apart.ne_name {fs : List Face} (h : Apart fs) {n f g : Face} {pre post : List Face}
    (he : n :: fs = pre ++ f :: g :: post) (hf : f.1 = .name) : g.1 ≠ .name := by
  have hchain : (n :: fs).IsChain fun f g => f.1 = .name → g.1 ≠ .name :=
    List.isChain_cons.mpr ⟨fun g hg _ => (List.isChain_cons.mp h).1 g hg rfl,
      (List.isChain_cons.mp h).2⟩
  rw [he] at hchain
  exact (List.isChain_cons_cons.mp (List.isChain_append.mp hchain).2.1).1 hf

/-! ## Kinds of faces -/

abbrev NestedFaces : List Face → Prop := Nested shown

/-- Nested faces without names side by side outside brackets. -/
structure Spaced (fs : List Face) : Prop where
  nested : NestedFaces fs
  apart : Apart (ground shown 0 fs)

/-- Faces of this kind may stand behind each other. -/
structure Adds (L : List Face → Prop) : Prop where
  nil : L []
  append : ∀ {fs gs : List Face}, L fs → L gs → L (fs ++ gs)

/-- Faces of this kind may stand behind each other and behind what brackets hold. -/
structure Joins (L : List Face → Prop) : Prop where
  nil : L []
  append : ∀ {fs gs : List Face}, L fs → L gs → L (fs ++ gs)
  bracket : ∀ {o c : Face} {inner fs : List Face}, Partners shown o c → NestedFaces inner → L fs →
    L (o :: (inner ++ c :: fs))

theorem Joins.adds {L : List Face → Prop} (h : Joins L) : Adds L := ⟨h.nil, h.append⟩

theorem joins_nested : Joins NestedFaces := ⟨.nil, .append, .bracket⟩

theorem ne_name_of_shown {f : Face} {p : Punctuator} (h : shown f = some p) : f.1 ≠ .name := by
  intro hn
  rw [shown, hn] at h
  cases h

theorem joins_spaced : Joins Spaced := by
  refine ⟨⟨.nil, apart_nil⟩, fun hf hg => ⟨hf.1.append hg.1, ?_⟩, fun hoc hinner h =>
    ⟨.bracket hoc hinner h.1, ?_⟩⟩
  · rw [hf.1.ground_append]
    exact hf.2.append hg.2
  · obtain ⟨ho, hc⟩ := hoc.turn_eq
    rw [ground, if_pos rfl, ho, ground_append, hinner.ground_eq_nil (by decide), hinner.level_eq,
      ground, if_neg (by decide), hc]
    obtain ⟨p, -, hp, -⟩ := hoc
    exact apart_cons_of_ne (ne_name_of_shown hp) h.2

/-! ## What readers take -/

/-- Whatever the reader reads, the faces of the lexemes that it takes are of the given kind. -/
def Spans {α : Type} (L : List Face → Prop) (r : Reader α) : Prop :=
  ∀ ls a rest, r ls = .ok (a, rest) → ∃ taken, ls = taken ++ rest ∧ L (taken.map Lexeme.face)

section

variable {α β : Type} {L M : List Face → Prop} {r : Reader α}

theorem Spans.mono (h : Spans L r) (hLM : ∀ fs, L fs → M fs) : Spans M r := by
  intro ls a rest hr
  obtain ⟨taken, hls, ht⟩ := h ls a rest hr
  exact ⟨taken, hls, hLM _ ht⟩

theorem Spans.pure (h : L []) (a : α) : Spans L (Pure.pure a) := by
  intro ls b rest hr
  obtain ⟨-, rfl⟩ := pure_eq_ok hr
  exact ⟨[], rfl, h⟩

theorem Spans.bind_of_adds {f : α → Reader β} (hL : Adds L) (h : Spans L r)
    (hf : ∀ a, Spans L (f a)) : Spans L (r >>= f) := by
  intro ls b rest hr
  obtain ⟨a, between, ha, hb⟩ := bind_eq_ok hr
  obtain ⟨taken, hls, ht⟩ := h ls a between ha
  obtain ⟨more, hbetween, hm⟩ := hf a between b rest hb
  exact ⟨taken ++ more, by rw [hls, hbetween, List.append_assoc], by
    rw [List.map_append]
    exact hL.append ht hm⟩

theorem Spans.bind {f : α → Reader β} (hL : Joins L) (h : Spans L r) (hf : ∀ a, Spans L (f a)) :
    Spans L (r >>= f) := h.bind_of_adds hL.adds hf

theorem Spans.bind_pure {f : α → β} (h : Spans L r) : Spans L (r >>= fun a => Pure.pure (f a)) := by
  intro ls b rest hr
  obtain ⟨a, between, ha, hb⟩ := bind_eq_ok hr
  obtain ⟨-, rfl⟩ := pure_eq_ok hb
  exact h ls a between ha

theorem spans_of_refuses (h : ∀ ls a rest, r ls ≠ .ok (a, rest)) : Spans L r :=
  fun ls a rest hr => absurd hr (h ls a rest)

theorem spans_refuse : Spans L (Reader.refuse : Reader α) :=
  spans_of_refuses fun ls a rest hr => by cases ls <;> cases hr

theorem spans_literal (h : L []) (l : Lexeme) (x : Except LiteralFault α) :
    Spans L (Reader.literal l x) := by
  cases x with
  | ok a => exact .pure h a
  | error fault => exact spans_of_refuses fun ls a rest hr => by cases hr

theorem spans_here (h : L []) : Spans L here := by
  intro ls a rest hr
  cases ls with
  | nil => cases hr
  | cons l ls => cases hr; exact ⟨[], rfl, h⟩

theorem next_eq_ok {p : Lexeme → Bool} {ls rest : List Lexeme} {b : Bool}
    (h : Reader.next p ls = .ok (b, rest)) : ls.head?.any p = b ∧ ls = rest := by
  simpa [Reader.next] using h

theorem lexeme_eq_ok {p : Lexeme → Bool} {ls rest : List Lexeme} {l : Lexeme}
    (h : Reader.lexeme p ls = .ok (l, rest)) : p l = true ∧ ls = l :: rest := by
  unfold Reader.lexeme at h
  split at h
  · cases h
  · split at h
    · cases h; exact ⟨‹_›, rfl⟩
    · cases h

theorem Spans.ifNext {p : Lexeme → Bool} {r' : Reader α} (h : Spans L r) (h' : Spans L r') :
    Spans L (Reader.next p >>= fun b => if b then r else r') := by
  intro ls a rest hr
  obtain ⟨b, between, hb, hr⟩ := bind_eq_ok hr
  obtain ⟨-, rfl⟩ := next_eq_ok hb
  cases b with
  | true => exact h ls a rest hr
  | false => exact h' ls a rest hr

theorem Spans.optional {p : Lexeme → Bool} (hL : L []) (h : Spans L r) :
    Spans L (Reader.optional p r) :=
  h.bind_pure.ifNext (.pure hL none)

theorem Spans.many_of_adds {p : Lexeme → Bool} (hL : Adds L) (h : Spans L r) :
    Spans L (Reader.many p r) := by
  have times (n : Nat) : Spans L (Reader.atMost p r n) := by
    induction n with
    | zero => exact .pure hL.nil []
    | succ n ih => exact (h.bind_of_adds hL fun a => ih.bind_pure).ifNext (.pure hL.nil [])
  exact fun ls a rest hr => times ls.length ls a rest hr

theorem Spans.many {p : Lexeme → Bool} (hL : Joins L) (h : Spans L r) :
    Spans L (Reader.many p r) := h.many_of_adds hL.adds

theorem Spans.someUpTo_of_adds {close : Punctuator} (hL : Adds L) (h : Spans L r) :
    Spans L (Reader.someUpTo close r) :=
  h.bind_of_adds hL fun _ => (h.many_of_adds hL).bind_pure

theorem Spans.someUpTo {close : Punctuator} (hL : Joins L) (h : Spans L r) :
    Spans L (Reader.someUpTo close r) := h.someUpTo_of_adds hL.adds

theorem Spans.lexeme_bind {p : Lexeme → Bool} {f : Lexeme → Reader β}
    (h : ∀ l, p l = true → Spans (fun fs => L (l.face :: fs)) (f l)) :
    Spans L (Reader.lexeme p >>= f) := by
  intro ls b rest hr
  obtain ⟨l, between, hl, hb⟩ := bind_eq_ok hr
  obtain ⟨hp, rfl⟩ := lexeme_eq_ok hl
  obtain ⟨taken, rfl, ht⟩ := h l hp between b rest hb
  exact ⟨l :: taken, rfl, ht⟩

theorem spans_lexeme {p : Lexeme → Bool} (h : ∀ l, p l = true → L [l.face]) :
    Spans L (Reader.lexeme p) := by
  intro ls l rest hr
  obtain ⟨hp, rfl⟩ := lexeme_eq_ok hr
  exact ⟨[l], rfl, h l hp⟩

/-! ### Words and brackets -/

theorem shown_of_isPunctuator {l : Lexeme} {q : Punctuator} (h : l.isPunctuator q = true) :
    shown l.face = some q := by
  have hc : l.category = .punctuator q := by simpa [Lexeme.isPunctuator] using h
  simp [shown, Lexeme.face, Category.punctuator?, hc]

theorem spans_punctuator {q : Punctuator} (h : q.nesting = 0) :
    Spans NestedFaces (Reader.punctuator q) :=
  spans_lexeme fun l hl => .word (by simp [turn, shown_of_isPunctuator hl, h]) .nil

/-- The face of a name. -/
def nameFace (name : String) : Face := (.name, name.toList)

theorem turn_nameFace (name : String) : turn shown (nameFace name) = 0 := rfl

theorem face_of_isName {l : Lexeme} (h : (l.category == .name) = true) :
    l.face = nameFace l.word := by
  have hc : l.category = .name := by simpa using h
  simp [Lexeme.face, nameFace, Lexeme.word, hc]

theorem face_of_isWord {l : Lexeme} {text : String} (h : l.isWord text = true) :
    l.face = nameFace text := by
  have hl : l.category = .name ∧ l.text = text.toList := by simpa [Lexeme.isWord] using h
  simp [Lexeme.face, nameFace, hl]

theorem spans_name : Spans NestedFaces Reader.name :=
  spans_lexeme fun _ hl => .word (face_of_isName hl ▸ turn_nameFace _) .nil

theorem spans_word (text : String) : Spans NestedFaces (Reader.word text) :=
  spans_lexeme fun _ hl => .word (face_of_isWord hl ▸ turn_nameFace _) .nil

/-- What is read behind an opening bracket, up to its partner and beyond. -/
theorem Spans.closed {o q : Punctuator} (hoq : o.partner? = some q) (h : Spans NestedFaces r)
    {f : α → Lexeme → Reader β} (hf : ∀ a c, Spans L (f a c)) {l : Lexeme}
    (hl : shown l.face = some o) : Spans (fun fs => ∃ inner c more, fs = inner ++ c :: more ∧
        Partners shown l.face c ∧ NestedFaces inner ∧ L more)
      (r >>= fun a => Reader.punctuator q >>= fun c => f a c) := by
  intro ls b rest hr
  obtain ⟨a, between, ha, hr⟩ := bind_eq_ok hr
  obtain ⟨c, behind, hc, hb⟩ := bind_eq_ok hr
  obtain ⟨taken, rfl, ht⟩ := h ls a between ha
  obtain ⟨hp, rfl⟩ := lexeme_eq_ok hc
  obtain ⟨more, rfl, hm⟩ := hf a c behind b rest hb
  exact ⟨taken ++ c :: more, by simp, taken.map Lexeme.face, c.face, more.map Lexeme.face, by simp,
    ⟨o, q, hl, hoq, shown_of_isPunctuator hp⟩, ht, hm⟩

theorem Spans.closed_bind {o q : Punctuator} (hL : Joins L) (hoq : o.partner? = some q)
    (h : Spans NestedFaces r) {f : α → Lexeme → Reader β} (hf : ∀ a c, Spans L (f a c)) {l : Lexeme}
    (hl : shown l.face = some o) : Spans (fun fs => L (l.face :: fs))
      (r >>= fun a => Reader.punctuator q >>= fun c => f a c) := by
  refine (h.closed hoq hf hl).mono ?_
  rintro _ ⟨inner, c, more, rfl, hoc, hinner, hm⟩
  exact hL.bracket hoc hinner hm

/-- What is read between two brackets. -/
theorem Spans.enclosed {o q : Punctuator} (hoq : o.partner? = some q) (h : Spans NestedFaces r)
    {f : Lexeme → α → Lexeme → β} : Spans (Enclosed shown o) (Reader.punctuator o >>= fun l =>
      r >>= fun a => Reader.punctuator q >>= fun c => Pure.pure (f l a c)) := by
  refine .lexeme_bind fun l hl => ?_
  have hp := shown_of_isPunctuator hl
  refine (h.closed (L := Eq []) hoq (fun a c => .pure rfl (f l a c)) hp).mono ?_
  rintro _ ⟨inner, c, _, rfl, hoc, hinner, rfl⟩
  exact ⟨l.face, inner, c, rfl, hp, hoc, hinner⟩

theorem Joins.enclosed (hL : Joins L) {q : Punctuator} {fs : List Face} (h : Enclosed shown q fs) :
    L fs := by
  obtain ⟨o, inner, c, rfl, -, hoc, hinner⟩ := h
  exact hL.bracket hoc hinner hL.nil

/-! ### Values and types -/

theorem spans_field {value : Reader Value} (h : Spans NestedFaces value) :
    Spans NestedFaces (readField value) :=
  spans_name.bind joins_nested fun _ => (spans_punctuator rfl).bind joins_nested fun _ =>
    h.bind_pure

theorem spans_value (constant : Bool) (depth : Nat) :
    Spans NestedFaces (readValue constant depth) := by
  induction depth with
  | zero => exact spans_refuse
  | succ depth ih =>
    refine .lexeme_bind (p := fun l => startsValue constant l.category) fun l hl => ?_
    have word (h : turn shown l.face = 0) {r : Reader Value} (hr : Spans NestedFaces r) :
        Spans (fun fs => NestedFaces (l.face :: fs)) r := hr.mono fun _ => .word h
    have literal {γ : Type} {x : Except LiteralFault γ} {f : γ → Value} : Spans NestedFaces
        (Reader.literal l x >>= fun a => Pure.pure (f a)) := (spans_literal .nil l x).bind_pure
    have done {γ δ : Type} (f : γ → Value) (a : γ) (_ : δ) : Spans NestedFaces (Pure.pure (f a)) :=
      .pure .nil _
    rcases hc : l.category with p | _ | _ | _ | _ | _
    · have hp : shown l.face = some p := by simp [shown, Lexeme.face, Category.punctuator?, hc]
      rw [hc] at hl
      cases p with
      | squareOpen => exact (ih.many joins_nested).closed_bind joins_nested rfl (done .list) hp
      | braceOpen =>
        exact ((spans_field ih).many joins_nested).closed_bind joins_nested rfl
          (done fun fields => .object (sortFields fields)) hp
      | dollar => exact word (by simp [turn, hp, Punctuator.nesting]) spans_name.bind_pure
      | _ => simp [startsValue] at hl
    all_goals
      refine word (by simp [turn, shown, Lexeme.face, Category.punctuator?, hc]) ?_
      first | exact .pure .nil _ | exact literal

theorem spans_type (depth : Nat) : Spans NestedFaces (readType depth) := by
  induction depth with
  | zero => exact spans_refuse
  | succ depth ih =>
    have bang (t : TypeRef) : Spans NestedFaces (Reader.nextIs .bang >>= fun b =>
        if b then Reader.punctuator .bang >>= fun _ => Pure.pure t.nonNull else Pure.pure t) :=
      (spans_punctuator rfl).bind_pure.ifNext (.pure .nil t)
    exact Spans.ifNext
      (.lexeme_bind fun _ hl => ih.closed_bind joins_nested rfl
        (fun t _ => (Spans.pure .nil (TypeRef.list t)).bind joins_nested bang)
        (shown_of_isPunctuator hl))
      (spans_name.bind joins_nested fun l =>
        (Spans.pure .nil (TypeRef.named l.word)).bind joins_nested bang)

/-! ### Parts of definitions -/

theorem spans_arguments (hL : Joins L) (depth : Nat) : Spans L (readArguments depth) :=
  Spans.ifNext ((((spans_field (spans_value false depth)).someUpTo joins_nested).enclosed rfl).mono
    fun _ => hL.enclosed) (.pure hL.nil [])

theorem spans_variable (depth : Nat) : Spans NestedFaces (readVariable depth) := by
  have default : Spans NestedFaces (Reader.optional (·.isPunctuator .equals) do
      let _ ← Reader.punctuator .equals
      readValue true depth) :=
    .optional .nil ((spans_punctuator rfl).bind joins_nested fun _ => spans_value true depth)
  exact (spans_punctuator rfl).bind joins_nested fun _ => spans_name.bind joins_nested fun _ =>
    (spans_punctuator rfl).bind joins_nested fun _ => (spans_type depth).bind joins_nested fun _ =>
      default.bind_pure

theorem spans_variables (hL : Joins L) (depth : Nat) : Spans L (readVariables depth) :=
  Spans.ifNext ((((spans_variable depth).someUpTo joins_nested).enclosed rfl).mono
    fun _ => hL.enclosed) (.pure hL.nil [])

/-- The name of a directive stands behind the sign, and no name stands behind it. -/
theorem spans_directive (depth : Nat) : Spans Spaced (readDirective depth) := by
  refine .lexeme_bind fun l hl => .lexeme_bind fun n hn =>
    ((spans_arguments joins_spaced depth).mono fun fs h => ?_).bind_pure
  have hp := shown_of_isPunctuator hl
  have hsign : turn shown l.face = 0 := by rw [turn, hp]; rfl
  have hname : turn shown n.face = 0 := face_of_isName hn ▸ turn_nameFace _
  refine ⟨.word hsign (.word hname h.nested), ?_⟩
  rw [ground_cons hsign, ground_cons hname]
  exact apart_cons_name (ne_name_of_shown hp) h.apart

theorem spans_directives (depth : Nat) : Spans Spaced (readDirectives depth) :=
  (spans_directive depth).many joins_spaced

/-! ### Selections -/

theorem spans_selectionSet {selection : Reader Selection} (h : Spans NestedFaces selection) :
    Spans (Enclosed shown .braceOpen) (readSelectionSet selection) :=
  (h.someUpTo joins_nested).enclosed rfl

theorem spans_spread {selection : Reader Selection} (depth : Nat)
    (h : Spans NestedFaces selection) :
    Spans NestedFaces (readSpread depth selection) := by
  have directives := (spans_directives depth).mono fun _ h => h.nested
  have type : Spans NestedFaces (Reader.optional (·.isWord "on") do
      let _ ← Reader.word "on"
      Reader.name) :=
    .optional .nil ((spans_word "on").bind joins_nested fun _ => spans_name)
  exact (spans_here .nil).bind joins_nested fun _ => .ifNext
    (type.bind joins_nested fun _ => directives.bind joins_nested fun _ =>
      ((spans_selectionSet h).mono fun _ => Enclosed.nested).bind_pure)
    (spans_name.bind joins_nested fun _ => directives.bind_pure)

theorem spans_fieldSelection {selection : Reader Selection} (depth : Nat)
    (h : Spans NestedFaces selection) :
    Spans NestedFaces (readFieldSelection depth selection) := by
  have second : Spans NestedFaces (Reader.optional (·.isPunctuator .colon) do
      let _ ← Reader.punctuator .colon
      Reader.name) :=
    .optional .nil ((spans_punctuator rfl).bind joins_nested fun _ => spans_name)
  exact spans_name.bind joins_nested fun _ => second.bind joins_nested fun _ =>
    (spans_arguments joins_nested depth).bind joins_nested fun _ =>
      ((spans_directives depth).mono fun _ h => h.nested).bind joins_nested fun _ =>
        (((spans_selectionSet h).mono fun _ => Enclosed.nested).optional .nil).bind_pure

theorem spans_selection (depth : Nat) : Spans NestedFaces (readSelection depth) := by
  induction depth with
  | zero => exact spans_refuse
  | succ depth ih =>
    exact .ifNext ((spans_punctuator rfl).bind joins_nested fun _ => spans_spread depth ih)
      (spans_fieldSelection depth ih)

end

/-! ## Definitions -/

/-- The names at the front of a definition. -/
def lead : Ast.Definition → List String
  | .operation ⟨none, _⟩ => []
  | .operation ⟨some head, _⟩ => head.type.keyword :: head.name.toList
  | .fragment f => ["fragment", f.name, "on", f.typeCondition]

/-- A definition starts with its names, no name follows them, and selections in braces are last. -/
def Outline (fs : List Face) (d : Ast.Definition) : Prop :=
  ∃ tail block, fs = (lead d).map nameFace ++ (tail ++ block) ∧ Spaced tail ∧
    Enclosed shown .braceOpen block

theorem optional_eq_ok {α : Type} {p : Lexeme → Bool} {r : Reader α} {ls rest : List Lexeme}
    {o : Option α} (h : Reader.optional p r ls = .ok (o, rest)) :
    (o = none ∧ ls = rest) ∨ ∃ a, o = some a ∧ r ls = .ok (a, rest) := by
  obtain ⟨b, between, hb, h⟩ := bind_eq_ok h
  obtain ⟨-, rfl⟩ := next_eq_ok hb
  cases b with
  | true =>
    obtain ⟨a, behind, ha, h⟩ := bind_eq_ok h
    obtain ⟨rfl, rfl⟩ := pure_eq_ok h
    exact .inr ⟨a, rfl, ha⟩
  | false =>
    obtain ⟨rfl, rfl⟩ := pure_eq_ok h
    exact .inl ⟨rfl, rfl⟩

theorem outline_of_readFragment {depth : Nat} {ls rest : List Lexeme} {f : Ast.Fragment}
    (h : readFragment depth ls = .ok (f, rest)) :
    ∃ taken, ls = taken ++ rest ∧ Outline (taken.map Lexeme.face) (.fragment f) := by
  obtain ⟨l, _, h₁, h⟩ := bind_eq_ok h
  obtain ⟨name, _, h₂, h⟩ := bind_eq_ok h
  obtain ⟨on, _, h₃, h⟩ := bind_eq_ok h
  obtain ⟨type, _, h₄, h⟩ := bind_eq_ok h
  obtain ⟨ds, _, hds, h⟩ := bind_eq_ok h
  obtain ⟨s, _, hs, h⟩ := bind_eq_ok h
  obtain ⟨rfl, rfl⟩ := pure_eq_ok h
  obtain ⟨hl, rfl⟩ := lexeme_eq_ok h₁
  obtain ⟨hname, rfl⟩ := lexeme_eq_ok h₂
  obtain ⟨hon, rfl⟩ := lexeme_eq_ok h₃
  obtain ⟨htype, rfl⟩ := lexeme_eq_ok h₄
  obtain ⟨t, rfl, ht⟩ := spans_directives depth _ _ _ hds
  obtain ⟨u, rfl, hu⟩ := spans_selectionSet (spans_selection depth) _ _ _ hs
  refine ⟨l :: name :: on :: type :: (t ++ u), by simp, t.map Lexeme.face, u.map Lexeme.face, ?_,
    ht, hu⟩
  simp [lead, face_of_isWord hl, face_of_isName hname, face_of_isWord hon, face_of_isName htype]

theorem isWord_keyword {l : Lexeme} {type : OperationType} (h : operationType? l = some type) :
    l.isWord type.keyword = true := by
  unfold operationType? at h
  split at h
  · cases h; assumption
  · split at h
    · cases h; assumption
    · split at h
      · cases h; assumption
      · cases h

theorem outline_of_readOperation {depth : Nat} {l : Lexeme} {ls rest : List Lexeme}
    {type : OperationType} (hl : operationType? l = some type) {o : Ast.Operation}
    (h : readOperation depth type (l :: ls) = .ok (o, rest)) :
    ∃ taken, l :: ls = taken ++ rest ∧ Outline (taken.map Lexeme.face) (.operation o) := by
  obtain ⟨k, _, hk, h⟩ := bind_eq_ok h
  obtain ⟨name, _, ho, h⟩ := bind_eq_ok h
  obtain ⟨vs, _, hvs, h⟩ := bind_eq_ok h
  obtain ⟨ds, _, hds, h⟩ := bind_eq_ok h
  obtain ⟨s, _, hs, h⟩ := bind_eq_ok h
  obtain ⟨rfl, rfl⟩ := pure_eq_ok h
  obtain ⟨-, hcons⟩ := lexeme_eq_ok hk
  obtain ⟨rfl, rfl⟩ := List.cons.inj hcons
  obtain ⟨t, rfl, ht⟩ := spans_variables joins_spaced depth _ _ _ hvs
  obtain ⟨u, rfl, hu⟩ := spans_directives depth _ _ _ hds
  obtain ⟨v, rfl, hv⟩ := spans_selectionSet (spans_selection depth) _ _ _ hs
  have hkeyword := face_of_isWord (isWord_keyword hl)
  have htail := joins_spaced.append ht hu
  obtain ⟨rfl, rfl⟩ | ⟨n, rfl, hn⟩ := optional_eq_ok ho
  · exact ⟨l :: (t ++ u ++ v), by simp, _, v.map Lexeme.face, by simp [lead, hkeyword], htail, hv⟩
  · obtain ⟨hname, rfl⟩ := lexeme_eq_ok hn
    exact ⟨l :: n :: (t ++ u ++ v), by simp, _, v.map Lexeme.face,
      by simp [lead, hkeyword, face_of_isName hname], htail, hv⟩

theorem outline_of_readDefinition {depth : Nat} {ls rest : List Lexeme} {d : Ast.Definition}
    (h : readDefinition depth ls = .ok (d, rest)) :
    ∃ taken, ls = taken ++ rest ∧ Outline (taken.map Lexeme.face) d := by
  unfold readDefinition at h
  split at h
  · cases h
  · split at h
    · obtain ⟨⟨s, rest'⟩, hs, he⟩ := map_eq_ok_iff.mp h
      cases he
      obtain ⟨t, hls, ht⟩ := spans_selectionSet (spans_selection depth) _ _ _ hs
      exact ⟨t, hls, [], t.map Lexeme.face, rfl, joins_spaced.nil, ht⟩
    · split at h
      · obtain ⟨⟨f, rest'⟩, hf, he⟩ := map_eq_ok_iff.mp h
        cases he
        exact outline_of_readFragment hf
      · split at h
        · obtain ⟨⟨o, rest'⟩, ho, he⟩ := map_eq_ok_iff.mp h
          cases he
          exact outline_of_readOperation ‹_› ho
        · cases h

theorem lead_shape (d : Ast.Definition) : lead d.shape = lead d := by
  rcases d with ⟨_ | head, _⟩ | f <;> rfl

/-- The words of a definition have its outline. -/
theorem outline_of_means {n : Nat} {bs : List Bare} {shape : Ast.Definition}
    (h : Means n bs shape) : Outline (bs.map face) shape := by
  obtain ⟨piece, hface, d, hd, rfl⟩ := h
  obtain ⟨taken, hpiece, tail, block, htaken, htail, hblock⟩ := outline_of_readDefinition hd
  obtain rfl : piece = taken := by simpa using hpiece
  exact ⟨tail, block, by rw [← hface, htaken, lead_shape], htail, hblock⟩

/-! ## What is on the ground -/

theorem nested_names (names : List String) : NestedFaces (names.map nameFace) := by
  induction names with
  | nil => exact .nil
  | cons name names ih => exact .word rfl ih

theorem ground_names (names : List String) (tail : List Face) :
    ground shown 0 (names.map nameFace ++ tail) = names.map nameFace ++ ground shown 0 tail := by
  induction names with
  | nil => rfl
  | cons name names ih =>
    rw [List.map_cons, List.cons_append, ground_cons (turn_nameFace name), ih, List.cons_append]

theorem Outline.nested {fs : List Face} {d : Ast.Definition} (h : Outline fs d) :
    NestedFaces fs := by
  obtain ⟨tail, block, rfl, ht, hblock⟩ := h
  exact (nested_names _).append (ht.nested.append hblock.nested)

/-- A brace is last. -/
theorem Outline.exists_last {fs : List Face} {d : Ast.Definition} (h : Outline fs d) :
    ∃ front c, fs = front ++ [c] ∧ shown c = some .braceClose := by
  obtain ⟨tail, block, rfl, -, o, inner, c, rfl, ho, ⟨q, r, hq, hqr, hc⟩, -⟩ := h
  obtain rfl := Option.some.inj (ho.symm.trans hq)
  cases hqr
  exact ⟨(lead d).map nameFace ++ (tail ++ o :: inner), c, by simp, hc⟩

theorem keyword_ne_fragment (type : OperationType) :
    nameFace type.keyword ≠ nameFace "fragment" := by
  cases type <;> decide

/-- Outside brackets, the word `fragment` stands in front of a name at the start of a fragment only,
or else as the name of a fragment. -/
theorem Outline.fragment_name {fs : List Face} {d : Ast.Definition} (h : Outline fs d)
    {pre post : List Face} {g : Face}
    (hfs : ground shown 0 fs = pre ++ nameFace "fragment" :: g :: post) (hg : g.1 = .name) :
    ∃ f tail, d = .fragment f ∧
      ((pre = [] ∧ g = nameFace f.name ∧
          post = nameFace "on" :: nameFace f.typeCondition :: tail) ∨
        (pre = [nameFace "fragment"] ∧ f.name = "fragment" ∧ g = nameFace "on" ∧
          post = nameFace f.typeCondition :: tail)) := by
  obtain ⟨front, block, rfl, hfront, hblock⟩ := h
  generalize htail : front ++ block = tail at hfs
  have ht : Spaced tail := htail ▸ joins_spaced.append hfront (joins_spaced.enclosed hblock)
  rw [ground_names] at hfs
  -- behind the last of the names, two names never stand side by side
  have apart {n : Face} {pre : List Face}
      (he : n :: ground shown 0 tail = pre ++ nameFace "fragment" :: g :: post) : False :=
    ht.apart.ne_name he rfl hg
  have apart' {pre : List Face}
      (he : ground shown 0 tail = pre ++ nameFace "fragment" :: g :: post) : False :=
    @apart g (g :: pre) (congrArg (g :: ·) he)
  rcases d with ⟨_ | head, _⟩ | f
  · exact (apart' hfs).elim
  · rcases pre with _ | ⟨k, pre⟩
    · exact (keyword_ne_fragment head.type (List.cons.inj hfs).1).elim
    · obtain ⟨-, hfs⟩ := List.cons.inj hfs
      cases hname : head.name with
      | none =>
        rw [hname] at hfs
        exact (apart' hfs).elim
      | some name =>
        rw [hname] at hfs
        exact (apart hfs).elim
  · rcases pre with _ | ⟨k, _ | ⟨name, _ | ⟨on, pre⟩⟩⟩
    · obtain ⟨-, hfs⟩ := List.cons.inj hfs
      obtain ⟨rfl, rfl⟩ := List.cons.inj hfs
      exact ⟨f, _, rfl, .inl ⟨rfl, rfl, rfl⟩⟩
    · obtain ⟨rfl, hrest⟩ := List.cons.inj hfs
      obtain ⟨hname, hrest⟩ := List.cons.inj hrest
      obtain ⟨rfl, rfl⟩ := List.cons.inj hrest
      have hf : f.name = "fragment" := String.toList_injective (congrArg Prod.snd hname)
      exact ⟨f, _, rfl, .inr ⟨rfl, hf, rfl, rfl⟩⟩
    · obtain ⟨-, hfs⟩ := List.cons.inj hfs
      obtain ⟨-, hfs⟩ := List.cons.inj hfs
      exact absurd (List.cons.inj hfs).1 (by decide)
    · obtain ⟨-, hfs⟩ := List.cons.inj hfs
      obtain ⟨-, hfs⟩ := List.cons.inj hfs
      exact (apart (List.cons.inj hfs).2).elim

/-! ## Behind the variables -/

/-- No name stands first. -/
theorem Spaced.ne_name {f : Face} {fs : List Face} (h : Spaced (f :: fs)) : f.1 ≠ .name := by
  have hapart := h.apart
  rw [ground, if_pos rfl] at hapart
  exact (List.isChain_cons_cons.mp hapart).1 rfl

theorem isPunctuator_of_shown {l : Lexeme} {q : Punctuator} (h : shown l.face = some q) :
    l.isPunctuator q = true := by
  have hc : l.category.punctuator? = some q := h
  cases hl : l.category <;> rw [hl] at hc <;> cases hc
  simp [Lexeme.isPunctuator, hl]

/-- What stands behind the variables of an operation without a name is not a name. -/
theorem behind_variables {depth : Nat} {l o : Lexeme} {ls rest : List Lexeme} {type : OperationType}
    (ho : shown o.face = some .parenOpen) {a : Ast.Operation}
    (h : readOperation depth type (l :: o :: ls) = .ok (a, rest)) :
    ∃ inner c x more, ls.map Lexeme.face = inner ++ c :: x :: more ∧ Partners shown o.face c ∧
      NestedFaces inner ∧ x.1 ≠ .name := by
  obtain ⟨k, _, hk, h⟩ := bind_eq_ok h
  obtain ⟨name, _, hname, h⟩ := bind_eq_ok h
  obtain ⟨vs, _, hvs, h⟩ := bind_eq_ok h
  obtain ⟨ds, _, hds, h⟩ := bind_eq_ok h
  obtain ⟨s, behind, hs, -⟩ := bind_eq_ok h
  obtain ⟨-, hcons⟩ := lexeme_eq_ok hk
  obtain ⟨rfl, rfl⟩ := List.cons.inj hcons
  obtain ⟨-, rfl⟩ | ⟨n, -, hn⟩ := optional_eq_ok hname
  · obtain ⟨b, _, hb, hvs⟩ := bind_eq_ok hvs
    obtain ⟨rfl, rfl⟩ := next_eq_ok hb
    rw [List.head?_cons, Option.any_some, isPunctuator_of_shown ho, if_pos rfl] at hvs
    obtain ⟨t, ht, o', inner, c, hface, -, hoc, hinner⟩ :=
      ((spans_variable depth).someUpTo joins_nested).enclosed rfl _ _ _ hvs
    obtain ⟨u, rfl, hu⟩ := spans_directives depth _ _ _ hds
    obtain ⟨v, rfl, hv⟩ := spans_selectionSet (spans_selection depth) _ _ _ hs
    -- directives and selections, which are not empty
    have hspaced := joins_spaced.append hu (joins_spaced.enclosed hv)
    obtain ⟨brace, _, _, hbrace, -⟩ := hv
    obtain ⟨x, more, hmore⟩ : ∃ x more, u.map Lexeme.face ++ v.map Lexeme.face = x :: more :=
      List.exists_cons_of_ne_nil (by simp [hbrace])
    rw [hmore] at hspaced
    have hfaces := congrArg (List.map Lexeme.face) ht
    rw [List.map_cons, List.map_append, hface, List.cons_append] at hfaces
    obtain ⟨rfl, hls⟩ := List.cons.inj hfaces
    refine ⟨inner, c, x, more ++ behind.map Lexeme.face, ?_, hoc, hinner, hspaced.ne_name⟩
    rw [hls, List.map_append, List.map_append, ← List.append_assoc (u.map _), hmore]
    simp
  · obtain ⟨hn, hcons⟩ := lexeme_eq_ok hn
    obtain ⟨rfl, -⟩ := List.cons.inj hcons
    rw [face_of_isName hn] at ho
    cases ho

/-- The same for the words of an operation. -/
theorem words_behind_variables {n : Nat} {k o : Bare} {bs : List Bare} {head : Ast.OperationHead}
    {selections : Ast.SelectionSet}
    (h : Means n (k :: o :: bs) (.operation ⟨some head, selections⟩))
    (ho : o.1 = .punctuator .parenOpen) :
    ∃ inner c x more, bs.map face = inner ++ c :: x :: more ∧ Partners shown (face o) c ∧
      NestedFaces inner ∧ x.1 ≠ .name := by
  obtain ⟨piece, hface, d, hd, hshape⟩ := h
  obtain ⟨l, _, rfl, hl, hface⟩ := List.map_eq_cons_iff.mp hface
  obtain ⟨p, ls, rfl, hp, hls⟩ := List.map_eq_cons_iff.mp hface
  have hshown : shown p.face = some .parenOpen := by
    rw [hp]
    exact (punctuator?_category o).trans (congrArg Kind.punctuator? ho)
  rw [← hls, ← hp]
  unfold readDefinition at hd
  split at hd
  · cases hd
  · rename_i l' ls' hcons
    obtain ⟨rfl, rfl⟩ := List.cons.inj hcons
    split at hd
    · obtain ⟨⟨s, rest⟩, -, hx⟩ := map_eq_ok_iff.mp hd
      cases hx
      cases hshape
    · split at hd
      · obtain ⟨⟨f, rest⟩, -, hx⟩ := map_eq_ok_iff.mp hd
        cases hx
        cases hshape
      · split at hd
        · obtain ⟨⟨a, rest⟩, ha, -⟩ := map_eq_ok_iff.mp hd
          exact behind_variables hshown ha
        · cases hd

end QueryDoc.Grammar
