import QueryDoc.Proofs.Document.Declared

/-!
# The meaning of a text

A regular text is parsed for its words alone: the same words are accepted or refused together, and
their definitions have the same shapes (`exists_parse_iff`).
-/
namespace QueryDoc

open QueryDoc.Lexis QueryDoc.Grammar

/-- A text without error tokens; where variable groups are looked for, none closes with a brace. -/
structure Regular (o : ParseOptions) (text : String) : Prop where
  sound : ∀ t ∈ tokens text.toList, t.kind.isError = false
  closed : o.fragmentVariables = true →
    ∀ g ∈ VariableGroup.ofText text.toList, g.closing.kind ≠ .punctuator .braceClose

/-! ## Shapes -/

/-- The operation with its positions moved to the origin. -/
def Operation.shape (o : Operation) : Operation := { o with ast := o.ast.shape }

def Fragment.shape (f : Fragment) : Fragment :=
  { f with ast := f.ast.shape, declared := f.declared.map FragmentVariables.shape }

def Definition.shape : Definition → Definition
  | operation o => operation o.shape
  | fragment f => fragment f.shape

/-- The syntax tree of a definition. -/
def Definition.ast : Definition → Ast.Definition
  | operation o => .operation o.ast
  | fragment f => .fragment f.ast

/-- The definitions of a text, from its trees, the variables of its groups and its bodies. -/
def assemble (o : ParseOptions) (asts : List Ast.Definition)
    (groups : List (Nat × FragmentVariables)) (bodies : List String) : List Definition :=
  (asts.zip bodies).mapIdx fun i x => .ofAst o groups i x.2 x.1

def shapeGroups (groups : List (Nat × FragmentVariables)) : List (Nat × FragmentVariables) :=
  groups.map fun x => (x.1, x.2.shape)

theorem lookup_shapeGroups (groups : List (Nat × FragmentVariables)) (i : Nat) :
    (shapeGroups groups).lookup i = (groups.lookup i).map FragmentVariables.shape := by
  induction groups with
  | nil => rfl
  | cons x groups ih =>
    obtain ⟨n, v⟩ := x
    simp only [shapeGroups, List.map_cons, List.lookup_cons] at ih ⊢
    rw [ih]
    cases i == n <;> rfl

theorem shape_ofAst (o : ParseOptions) (groups : List (Nat × FragmentVariables)) (i : Nat)
    (body : String) (a : Ast.Definition) : (Definition.ofAst o groups i body a).shape =
      .ofAst o (shapeGroups groups) i body a.shape := by
  cases a with
  | operation a => rfl
  | fragment a =>
    have hreverse : (shapeGroups groups).reverse = shapeGroups groups.reverse := by
      simp [shapeGroups]
    simp only [Definition.ofAst, Definition.shape, Fragment.shape, Ast.Definition.shape, hreverse,
      lookup_shapeGroups]
    cases groups.reverse.lookup i <;> cases o.fragmentVariables <;> rfl

theorem map_shape_assemble (o : ParseOptions) (asts : List Ast.Definition)
    (groups : List (Nat × FragmentVariables)) (bodies : List String) :
    (assemble o asts groups bodies).map Definition.shape =
      assemble o (asts.map Ast.Definition.shape) (shapeGroups groups) bodies := by
  unfold assemble
  rw [List.zip_map_left, List.mapIdx_eq_zipIdx_map, List.mapIdx_eq_zipIdx_map, List.zipIdx_map,
    List.map_map, List.map_map]
  exact List.map_congr_left fun x _ => shape_ofAst o groups x.2 x.1.2 x.1.1

/-! ## What the grammar reads -/

/-- The text that the grammar reads. -/
def grammarText (o : ParseOptions) (text : List Char) : List Char :=
  if o.fragmentVariables then blankGroups (VariableGroup.ofText text) text else text

/-- The variables of the groups in a text, with the numbers of their definitions. -/
def groupsOf (o : ParseOptions) (text : List Char) :
    Except ParseFailure (List (Nat × FragmentVariables)) :=
  if o.fragmentVariables then
    (VariableGroup.ofText text).mapM fun g => (g.read text).map fun v => (g.definition, v)
  else .ok []

theorem bind_eq_ok_iff {ε α β : Type} {x : Except ε α} {f : α → Except ε β} {b : β} :
    x >>= f = .ok b ↔ ∃ a, x = .ok a ∧ f a = .ok b := by
  cases x <;> simp [bind, Except.bind]

theorem mapM_eq_ok_iff {ε α β : Type} {f : α → Except ε β} {as : List α} {bs : List β} :
    as.mapM f = .ok bs ↔ List.Forall₂ (fun a b => f a = .ok b) as bs := by
  induction as generalizing bs with
  | nil =>
    rw [List.mapM_nil, List.forall₂_nil_left_iff]
    exact ⟨fun h => (Except.ok.inj h).symm, fun h => h ▸ rfl⟩
  | cons a as ih =>
    simp only [List.mapM_cons, bind_eq_ok_iff, ih, List.forall₂_cons_left_iff]
    constructor
    · rintro ⟨b, hb, rest, hrest, h⟩
      exact ⟨b, rest, hb, hrest, (Except.ok.inj h).symm⟩
    · rintro ⟨b, rest, hb, hrest, rfl⟩
      exact ⟨b, hb, rest, hrest, rfl⟩

theorem exists_of_forall₂ {α β : Type} {R : α → β → Prop} {as : List α} {bs : List β}
    (h : List.Forall₂ R as bs) {i : Nat} {a : α} (ha : as[i]? = some a) :
    ∃ b, bs[i]? = some b ∧ R a b := by
  obtain ⟨hi, rfl⟩ := List.getElem?_eq_some_iff.mp ha
  have hi' := h.length_eq ▸ hi
  exact ⟨_, List.getElem?_eq_getElem hi', h.get hi hi'⟩

/-- The definitions of a text, from what the grammar made of it. -/
def finish (o : ParseOptions) (text : String) (groups : List (Nat × FragmentVariables)) :
    Except Grammar.Failure (List Ast.Definition) → Except ParseFailure (List Definition)
  | .ok asts => .ok (assemble o asts groups (bodies text asts))
  | .error (.ungrammatical position reason) => .error (.error (.grammar ⟨position, reason⟩))
  | .error .splitCharacter => .error .abort

theorem finish_eq_ok_iff {o : ParseOptions} {text : String}
    {groups : List (Nat × FragmentVariables)} {x : Except Grammar.Failure (List Ast.Definition)}
    {ds : List Definition} : finish o text groups x = .ok ds ↔
      ∃ asts, x = .ok asts ∧ ds = assemble o asts groups (bodies text asts) := by
  constructor
  · intro h
    cases x with
    | ok asts => exact ⟨asts, rfl, (Except.ok.inj h).symm⟩
    | error e => cases e <;> cases h
  · rintro ⟨asts, rfl, rfl⟩
    rfl

theorem parse_eq_finish (o : ParseOptions) (text : String) :
    parse o text = groupsOf o text.toList >>= fun groups =>
      finish o text groups (read (grammarText o text.toList)) := by
  unfold parse groupsOf grammarText liftGroups
  cases o.fragmentVariables with
  | false => rfl
  | true =>
    have hread (g : VariableGroup) : (do return (g.definition, ← g.read text.toList) :
        Except ParseFailure (Nat × FragmentVariables)) =
          (g.read text.toList).map fun v => (g.definition, v) := by
      cases g.read text.toList <;> rfl
    simp only [if_true, hread]
    cases (VariableGroup.ofText text.toList).mapM
      fun g => (g.read text.toList).map fun v => (g.definition, v) <;> rfl

theorem parse_eq_ok_iff {o : ParseOptions} {text : String} {ds : List Definition} :
    parse o text = .ok ds ↔ ∃ groups asts, groupsOf o text.toList = .ok groups ∧
      read (grammarText o text.toList) = .ok asts ∧
      ds = assemble o asts groups (bodies text asts) := by
  simp only [parse_eq_finish, bind_eq_ok_iff, finish_eq_ok_iff, exists_and_left]

theorem exists_parse_of_isSome {o : ParseOptions} {text : String}
    (h : (parse o text).toOption.isSome = true) : ∃ ds, parse o text = .ok ds := by
  cases hds : parse o text with
  | error e => rw [hds] at h; cases h
  | ok ds => exact ⟨ds, rfl⟩

/-! ## Words -/

/-- The words that the grammar reads. -/
def keptBares (o : ParseOptions) (bs : List Bare) : List Bare :=
  if o.fragmentVariables then kepts (items id 0 bs) else bs

/-- The frames that are set aside, with the numbers of their definitions. -/
def framesOf (o : ParseOptions) (bs : List Bare) : List (Nat × Frame Bare) :=
  if o.fragmentVariables then numbered id 0 0 (items id 0 bs) else []

theorem items_bares (text : List Char) :
    items id 0 (bares text) = (items Word.bare 0 (words text)).map (Item.map Word.bare) :=
  items_map id Word.bare 0 (words text)

theorem bares_grammarText (o : ParseOptions) (text : List Char) :
    bares (grammarText o text) = keptBares o (bares text) := by
  unfold grammarText keptBares
  split
  · rw [bares, words_blankGroups, items_bares, kepts_map]
  · rfl

theorem numbered_bares (text : List Char) : numbered id 0 0 (items id 0 (bares text)) =
    (numbered Word.bare 0 0 (items Word.bare 0 (words text))).map
      fun x => (x.1, x.2.map Word.bare) := by
  rw [items_bares]
  exact numbered_map id Word.bare 0 0 _

theorem map_closing_ofText (text : List Char) :
    (VariableGroup.ofText text).map (fun g => g.closing.kind) =
      (frames (items id 0 (bares text))).map fun f => f.closing.1 := by
  rw [← map_snd_numbered id 0 0, numbered_bares, List.map_map, List.map_map, eq_comm]
  rw [← List.forall₂_eq_eq_eq, List.forall₂_map_left_iff, List.forall₂_map_right_iff]
  exact (located_ofText text).imp fun _ _ h => h.kind.symm

theorem regular_iff {o : ParseOptions} {text : String} : Regular o text ↔
    (∀ b ∈ bares text.toList, b.1.isError = false) ∧
      (o.fragmentVariables = true → Tidy id (items id 0 (bares text.toList))) := by
  have hsound : (∀ t ∈ tokens text.toList, t.kind.isError = false) ↔
      ∀ b ∈ bares text.toList, b.1.isError = false := by
    rw [← map_bare_significant, List.forall_mem_map]
    refine ⟨fun h t ht => h t (List.mem_filter.mp ht).1, fun h t ht => ?_⟩
    by_cases heof : t.kind = .eof
    · rw [heof]
      rfl
    · exact h t (List.mem_filter.mpr ⟨ht, by simpa [Token.isSignificant] using heof⟩)
  have hclosed : (∀ g ∈ VariableGroup.ofText text.toList,
      g.closing.kind ≠ .punctuator .braceClose) ↔ Tidy id (items id 0 (bares text.toList)) := by
    rw [← List.forall_mem_map (f := fun g : VariableGroup => g.closing.kind)
      (P := fun k => k ≠ Kind.punctuator .braceClose), map_closing_ofText, List.forall_mem_map]
    exact forall_congr' fun f => by rw [mem_frames]; rfl
  exact ⟨fun h => ⟨hsound.mp h.sound, fun ho => hclosed.mp (h.closed ho)⟩,
    fun h => ⟨hsound.mpr h.1, fun ho => hclosed.mpr (h.2 ho)⟩⟩

/-- Whether a text is regular can be seen from its words. -/
theorem regular_congr {o : ParseOptions} {s t : String} (h : bares s.toList = bares t.toList) :
    Regular o s ↔ Regular o t := by
  rw [regular_iff, regular_iff, h]

theorem faultless_of_sound {text : List Char} (h : ∀ t ∈ tokens text, t.kind.isError = false) :
    Faultless (words text) := by
  intro w hw
  have hbare : w.bare ∈ bares text := List.mem_map_of_mem hw
  rw [← map_bare_significant] at hbare
  obtain ⟨t, ht, hbare⟩ := List.mem_map.mp hbare
  have hkind : t.kind = w.kind := congrArg Prod.fst hbare
  exact hkind ▸ h t (List.mem_filter.mp ht).1

theorem Regular.faultless {o : ParseOptions} {text : String} (h : Regular o text) :
    Faultless (words text.toList) := faultless_of_sound h.sound

theorem Regular.tidy {o : ParseOptions} {text : String} (h : Regular o text)
    (ho : o.fragmentVariables = true) : Tidy id (items id 0 (bares text.toList)) :=
  (regular_iff.mp h).2 ho

/-- The parts of a regular text's words are those of the words that the grammar reads. -/
theorem Regular.chunks_keptBares {o : ParseOptions} {text : String} (h : Regular o text) :
    chunks (keptBares o (bares text.toList)) =
      (chunks (bares text.toList)).map (keptBares o) := by
  unfold keptBares
  cases ho : o.fragmentVariables with
  | false => simp
  | true => exact cutWords_kepts id (h.tidy ho)

theorem definitionKeys_eq_chunks (text : String) :
    definitionKeys text = (chunks (bares text.toList)).map textOf := definitionKeys_eq_map text

/-! ## Meaning -/

/-- A group's variables stand for a frame. -/
def DeclaresAt (x : Nat × Frame Bare) (y : Nat × FragmentVariables) : Prop :=
  y.1 = x.1 ∧ Declares x.2 y.2

/-- The words of a text mean definitions of the given shapes. -/
def Meant (o : ParseOptions) (bs : List Bare) (shapes : List Definition) : Prop :=
  ∃ asts groups, Spells (keptBares o bs) asts ∧ List.Forall₂ DeclaresAt (framesOf o bs) groups ∧
    shapes = assemble o asts groups ((chunks bs).map textOf)

theorem DeclaresAt.unique {x : Nat × Frame Bare} {y y' : Nat × FragmentVariables}
    (h : DeclaresAt x y) (h' : DeclaresAt x y') : y = y' :=
  Prod.ext (h.1.trans h'.1.symm) (h.2.unique h'.2)

theorem Meant.unique {o : ParseOptions} {bs : List Bare} {shapes shapes' : List Definition}
    (h : Meant o bs shapes) (h' : Meant o bs shapes') : shapes = shapes' := by
  obtain ⟨asts, groups, hasts, hgroups, rfl⟩ := h
  obtain ⟨asts', groups', hasts', hgroups', rfl⟩ := h'
  rw [hasts.unique hasts',
    List.right_unique_forall₂' (fun _ _ _ hx hy => hx.unique hy) hgroups hgroups']

/-- A regular text is cut into as many parts as it has definitions. -/
theorem Regular.bodies_eq {o : ParseOptions} {text : String} (h : Regular o text)
    {asts : List Ast.Definition}
    (hs : Spells (keptBares o (bares text.toList)) (asts.map Ast.Definition.shape)) :
    bodies text asts = (chunks (bares text.toList)).map textOf := by
  have hlength := hs.means.length_eq
  rw [h.chunks_keptBares, List.length_map, List.length_map] at hlength
  unfold bodies
  rw [definitionKeys_eq_chunks]
  simp only [List.length_map, hlength, if_true]

/-- A group is read for the words of its frame. -/
theorem exists_groupAt_iff {text : List Char} {x : Nat × Frame Word} {g : VariableGroup}
    (h : Located text x g) (hf : Faultless x.2.inner) {z : Nat × FragmentVariables} :
    (∃ y, (g.read text).map (fun v => (g.definition, v)) = .ok y ∧ (y.1, y.2.shape) = z) ↔
      Unglued x.2.inner ∧ DeclaresAt (x.1, x.2.map Word.bare) z := by
  obtain ⟨n, f⟩ := x
  have hread := exists_groupRead_iff h hf (v := z.2)
  constructor
  · rintro ⟨y, hy, rfl⟩
    obtain ⟨v, hv, rfl⟩ := map_eq_ok_iff.mp hy
    obtain ⟨hu, hd⟩ := hread.mp ⟨v, hv, rfl⟩
    exact ⟨hu, h.definition, hd⟩
  · rintro ⟨hu, hn, hd⟩
    obtain ⟨v, hv, hz⟩ := hread.mpr ⟨hu, hd⟩
    exact ⟨(g.definition, v), map_eq_ok_iff.mpr ⟨v, hv, rfl⟩,
      Prod.ext (h.definition.trans hn.symm) hz⟩

theorem exists_groupsAt_iff {text : List Char} {xs : List (Nat × Frame Word)}
    {gs : List VariableGroup} (h : List.Forall₂ (Located text) xs gs)
    (hf : ∀ x ∈ xs, Faultless x.2.inner) {zs : List (Nat × FragmentVariables)} :
    (∃ ys, List.Forall₂ (fun g y => (g.read text).map (fun v => (g.definition, v)) = .ok y) gs ys ∧
      shapeGroups ys = zs) ↔ (∀ x ∈ xs, Unglued x.2.inner) ∧
        List.Forall₂ DeclaresAt (xs.map fun x => (x.1, x.2.map Word.bare)) zs := by
  induction h generalizing zs with
  | nil =>
    constructor
    · rintro ⟨ys, hys, rfl⟩
      cases hys
      exact ⟨by simp, .nil⟩
    · rintro ⟨-, hzs⟩
      cases hzs
      exact ⟨[], .nil, rfl⟩
  | cons hx hxs ih =>
    have hhead {z : Nat × FragmentVariables} := exists_groupAt_iff hx (hf _ (by simp)) (z := z)
    have htail {zs : List (Nat × FragmentVariables)} :=
      @ih (fun x hx => hf x (by simp [hx])) zs
    constructor
    · rintro ⟨ys, hys, rfl⟩
      obtain ⟨y, rest, hy, hrest, rfl⟩ := List.forall₂_cons_left_iff.mp hys
      obtain ⟨hu, hd⟩ := hhead.mp ⟨y, hy, rfl⟩
      obtain ⟨hus, hds⟩ := htail.mp ⟨rest, hrest, rfl⟩
      exact ⟨List.forall_mem_cons.mpr ⟨hu, hus⟩, .cons hd hds⟩
    · rintro ⟨hus, hzs⟩
      obtain ⟨z, zs, hd, hds, rfl⟩ := List.forall₂_cons_left_iff.mp hzs
      obtain ⟨hu, hus⟩ := List.forall_mem_cons.mp hus
      obtain ⟨y, hy, rfl⟩ := hhead.mpr ⟨hu, hd⟩
      obtain ⟨ys, hys, rfl⟩ := htail.mpr ⟨hus, hds⟩
      exact ⟨y :: ys, .cons hy hys, rfl⟩

/-- The frames among the words of a text, and their numbers. -/
theorem forall_numbered_iff {text : List Char} {p : Frame Word → Prop} :
    (∀ x ∈ numbered Word.bare 0 0 (items Word.bare 0 (words text)), p x.2) ↔
      ∀ f ∈ frames (items Word.bare 0 (words text)), p f := by
  rw [← map_snd_numbered Word.bare 0 0, List.forall_mem_map]

theorem inner_subset_of_mem_frames {text : List Char} {f : Frame Word}
    (h : f ∈ frames (items Word.bare 0 (words text))) : f.inner ⊆ words text := by
  rw [mem_frames] at h
  rw [← (itemized_items Word.bare 0 (words text)).2]
  intro w hw
  exact List.mem_flatMap.mpr ⟨.frame f, h, by simp [Item.source, Frame.source, hw]⟩

/-- The groups of a regular text are read for its words. -/
theorem Regular.exists_groupsOf_iff {o : ParseOptions} {text : String} (h : Regular o text)
    {groups : List (Nat × FragmentVariables)} :
    (∃ gs, groupsOf o text.toList = .ok gs ∧ shapeGroups gs = groups) ↔
      (o.fragmentVariables = true →
        ∀ f ∈ frames (items Word.bare 0 (words text.toList)), Unglued f.inner) ∧
      List.Forall₂ DeclaresAt (framesOf o (bares text.toList)) groups := by
  unfold groupsOf framesOf
  cases o.fragmentVariables with
  | false =>
    simp only [Bool.false_eq_true, if_false, false_implies, true_and, List.forall₂_nil_left_iff,
      Except.ok.injEq, exists_eq_left']
    exact eq_comm
  | true =>
    have hfaultless : ∀ x ∈ numbered Word.bare 0 0 (items Word.bare 0 (words text.toList)),
        Faultless x.2.inner := forall_numbered_iff.mpr fun f hf w hw =>
      h.faultless w (inner_subset_of_mem_frames hf hw)
    simp only [if_true, true_implies, mapM_eq_ok_iff]
    rw [exists_groupsAt_iff (located_ofText text.toList) hfaultless,
      forall_numbered_iff (p := fun f => Unglued f.inner), numbered_bares]

theorem unglued_sources {is : List (Item Word)} (h : ∀ f ∈ frames is,
    f.opening.glued = false ∧ f.closing.glued = false) : Unglued (sources is) ↔
      Unglued (kepts is) ∧ ∀ f ∈ frames is, Unglued f.inner := by
  induction is with
  | nil => simp [Unglued]
  | cons i is ih =>
    cases i with
    | plain w =>
      have ih := ih h
      simp only [Unglued, sources, kepts, List.flatMap_cons, List.forall_mem_append,
        frames_plain] at ih ⊢
      rw [ih, and_assoc]
      rfl
    | frame f =>
      obtain ⟨hf, h⟩ := List.forall_mem_cons.mp h
      have ih := ih h
      simp only [Unglued, sources, kepts, List.flatMap_cons, List.forall_mem_append,
        frames_frame, List.forall_mem_cons, Item.source, Item.kept, Frame.source] at ih ⊢
      rw [ih]
      simp [hf]
      tauto

/-- The numbers in a text that are glued to the text behind them are among the words that the
grammar reads or inside a group. -/
theorem unglued_iff (o : ParseOptions) (text : List Char) : Unglued (words text) ↔
    Unglued (words (grammarText o text)) ∧ (o.fragmentVariables = true →
      ∀ f ∈ frames (items Word.bare 0 (words text)), Unglued f.inner) := by
  unfold grammarText
  cases o.fragmentVariables with
  | false => simp
  | true =>
    simp only [if_true, true_implies]
    rw [words_blankGroups, ← unglued_sources, (itemized_items Word.bare 0 (words text)).2]
    have hlocated := (located_ofText text).imp fun x g h =>
      (⟨h.unglued, h⟩ : (x.2.opening.glued = false ∧ x.2.closing.glued = false) ∧ Located text x g)
    exact forall_numbered_iff.mp ((List.forall₂_and_left _ _).mp hlocated).1

theorem words_grammarText_subset (o : ParseOptions) (text : List Char) :
    words (grammarText o text) ⊆ words text := by
  unfold grammarText
  split
  · rw [words_blankGroups]
    intro w hw
    rw [← (itemized_items Word.bare 0 (words text)).2]
    exact kepts_subset _ hw
  · exact fun w hw => hw

theorem faultless_grammarText (o : ParseOptions) {text : List Char} (h : Faultless (words text)) :
    Faultless (words (grammarText o text)) :=
  fun w hw => h w (words_grammarText_subset o text hw)

/-- What is read of a text without faults is spelt by the words that are left to the grammar. -/
theorem spells_of_read {o : ParseOptions} {text : List Char} (h : Faultless (words text))
    {asts : List Ast.Definition} (hread : read (grammarText o text) = .ok asts) :
    Unglued (words (grammarText o text)) ∧
      Spells (bares (grammarText o text)) (asts.map Ast.Definition.shape) :=
  (exists_read_iff_spells (faultless_grammarText o h)).mp ⟨asts, hread, rfl⟩

/-- A regular text is parsed for its words: those who tell them apart are numbers that are glued to
the text behind them. -/
theorem exists_parse_iff {o : ParseOptions} {text : String} (h : Regular o text)
    {shapes : List Definition} :
    (∃ ds, parse o text = .ok ds ∧ ds.map Definition.shape = shapes) ↔
      Unglued (words text.toList) ∧ Meant o (bares text.toList) shapes := by
  rw [unglued_iff o]
  constructor
  · rintro ⟨ds, hds, rfl⟩
    obtain ⟨groups, asts, hgroups, hread, rfl⟩ := parse_eq_ok_iff.mp hds
    obtain ⟨hu, hs⟩ := spells_of_read h.faultless hread
    obtain ⟨hinner, hdeclares⟩ := h.exists_groupsOf_iff.mp ⟨groups, hgroups, rfl⟩
    rw [bares_grammarText] at hs
    refine ⟨⟨hu, hinner⟩, _, _, hs, hdeclares, ?_⟩
    rw [map_shape_assemble, h.bodies_eq hs]
  · rintro ⟨⟨hu, hinner⟩, asts, groups, hs, hdeclares, rfl⟩
    obtain ⟨gs, hgs, rfl⟩ := h.exists_groupsOf_iff.mpr ⟨hinner, hdeclares⟩
    obtain ⟨as, has, rfl⟩ := (exists_read_iff_spells (faultless_grammarText o h.faultless)).mpr
      ⟨hu, (bares_grammarText o _).symm ▸ hs⟩
    refine ⟨_, parse_eq_ok_iff.mpr ⟨gs, as, hgs, has, rfl⟩, ?_⟩
    rw [map_shape_assemble, h.bodies_eq hs]

/-- A text with the key of one that was parsed is parsed as well and means the same, unless a number
is glued to the text behind it. -/
theorem Regular.exists_parse_iff_unglued {o : ParseOptions} {s t : String} (h : Regular o s)
    (hk : key s = key t) {ds : List Definition} (hds : parse o s = .ok ds) :
    (∃ es, parse o t = .ok es ∧ es.map Definition.shape = ds.map Definition.shape) ↔
      Unglued (words t.toList) := by
  have hbares := bares_eq_of_key_eq hk
  obtain ⟨-, hmeant⟩ := (exists_parse_iff h).mp ⟨ds, hds, rfl⟩
  rw [exists_parse_iff ((regular_congr hbares).mp h), ← hbares]
  exact ⟨fun hu => hu.1, fun hu => ⟨hu, hmeant⟩⟩

theorem Regular.map_shape_eq {o : ParseOptions} {s t : String} (h : Regular o s)
    (hk : key s = key t) {ds es : List Definition} (hds : parse o s = .ok ds)
    (hes : parse o t = .ok es) :
    es.map Definition.shape = ds.map Definition.shape ∧ Unglued (words t.toList) := by
  have hbares := bares_eq_of_key_eq hk
  obtain ⟨-, hmeant⟩ := (exists_parse_iff h).mp ⟨ds, hds, rfl⟩
  obtain ⟨hu, hmeant'⟩ := (exists_parse_iff ((regular_congr hbares).mp h)).mp ⟨es, hes, rfl⟩
  rw [← hbares] at hmeant'
  exact ⟨hmeant'.unique hmeant, hu⟩

end QueryDoc
