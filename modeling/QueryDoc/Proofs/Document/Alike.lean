import QueryDoc.Proofs.Document.Meaning
import QueryDoc.Registry

/-!
# Alike fragments

The shape of a definition depends on the words of its own part of the text alone. So fragments of
regular texts that have one body have one shape, and one can stand for the other.
-/
namespace QueryDoc

open QueryDoc.Lexis QueryDoc.Grammar

/-- The words of a part mean a definition of the given shape. -/
def PartMeans (o : ParseOptions) (part : List Bare) (shape : Definition) : Prop :=
  ∃ n ast declared, Means n (keptBares o part) ast ∧
    List.Forall₂ Declares ((framesOf o part).map Prod.snd) declared ∧
    shape = .ofAst o (declared.map fun v => (0, v)) 0 (textOf part) ast

theorem PartMeans.unique {o : ParseOptions} {part : List Bare} {shape shape' : Definition}
    (h : PartMeans o part shape) (h' : PartMeans o part shape') : shape = shape' := by
  obtain ⟨n, ast, declared, hast, hdeclared, rfl⟩ := h
  obtain ⟨n', ast', declared', hast', hdeclared', rfl⟩ := h'
  rw [hast.unique hast',
    List.right_unique_forall₂' (fun _ _ _ hx hy => hx.unique hy) hdeclared hdeclared']

/-! ## Groups of a definition -/

theorem lookup_eq_head? {α : Type} (l : List (Nat × α)) (i : Nat) :
    l.lookup i = ((l.filter (·.1 == i)).map Prod.snd).head? := by
  induction l with
  | nil => rfl
  | cons x l ih =>
    obtain ⟨n, a⟩ := x
    rw [List.lookup_cons, List.filter_cons, ih]
    by_cases h : i = n
    · simp [h]
    · have hn : ¬ n = i := fun he => h he.symm
      rw [beq_false_of_ne h]
      simp [hn]

/-- Of the groups in front of a definition the last one counts. -/
theorem lookup_reverse {α : Type} (l : List (Nat × α)) (i : Nat) :
    l.reverse.lookup i = ((l.filter (·.1 == i)).map Prod.snd).getLast? := by
  rw [lookup_eq_head?, List.filter_reverse, List.map_reverse, List.head?_reverse]

theorem ofAst_congr (o : ParseOptions) {groups groups' : List (Nat × FragmentVariables)} {i j : Nat}
    (h : groups.reverse.lookup i = groups'.reverse.lookup j) (body : String) (a : Ast.Definition) :
    Definition.ofAst o groups i body a = Definition.ofAst o groups' j body a := by
  cases a with
  | operation a => rfl
  | fragment a => simp only [Definition.ofAst, h]

/-- The groups of the `i`-th definition stand for the frames of the `i`-th part. -/
theorem Regular.forall₂_declares {o : ParseOptions} {text : String} (h : Regular o text)
    {groups : List (Nat × FragmentVariables)}
    (hg : List.Forall₂ DeclaresAt (framesOf o (bares text.toList)) groups) {i : Nat}
    {part : List Bare} (hp : (chunks (bares text.toList))[i]? = some part) :
    List.Forall₂ Declares ((framesOf o part).map Prod.snd)
      ((groups.filter (·.1 == i)).map Prod.snd) := by
  have hframes : (framesOf o part).map Prod.snd =
      ((framesOf o (bares text.toList)).filter (·.1 == i)).map Prod.snd := by
    unfold framesOf
    cases ho : o.fragmentVariables with
    | false => rfl
    | true =>
      have hfilter := filter_numbered id 0 0 i (items id 0 (bares text.toList))
      rw [cutItems_items id (h.tidy ho), List.getElem?_map] at hfilter
      change _ = frames (((chunks (bares text.toList))[i]?.map (items id 0)).getD []) at hfilter
      rw [hp, Nat.zero_add] at hfilter
      simp only [if_true, map_snd_numbered, hfilter]
      rfl
  rw [hframes, List.forall₂_map_left_iff, List.forall₂_map_right_iff]
  have hfilter := List.rel_filter (R := DeclaresAt) (p := (·.1 == i)) (q := (·.1 == i))
    (fun x y hxy => by simp only [hxy.1]) hg
  exact hfilter.imp fun x y hxy => hxy.2

/-- Each definition of a regular text is what one of its parts means. -/
theorem Regular.exists_part {o : ParseOptions} {text : String} (h : Regular o text)
    {shapes : List Definition} (hm : Meant o (bares text.toList) shapes) {shape : Definition}
    (hs : shape ∈ shapes) : ∃ part ∈ chunks (bares text.toList), PartMeans o part shape := by
  obtain ⟨asts, groups, hasts, hgroups, rfl⟩ := hm
  obtain ⟨i, hi, rfl⟩ := List.mem_mapIdx.mp hs
  have hmeans := hasts.means
  rw [h.chunks_keptBares, List.forall₂_map_left_iff] at hmeans
  have hlength := hmeans.length_eq
  simp only [List.length_zip, List.length_map] at hi
  have hpart : i < (chunks (bares text.toList)).length := by omega
  have hast := hmeans.get hpart (by omega : i < asts.length)
  have hdeclares := h.forall₂_declares hgroups (List.getElem?_eq_getElem hpart)
  refine ⟨(chunks (bares text.toList))[i], List.getElem_mem hpart, _, _, _, hast, hdeclares, ?_⟩
  simp only [List.getElem_zip, List.getElem_map]
  refine ofAst_congr o ?_ _ _
  have hself (vs : List FragmentVariables) :
      ((vs.map fun v => (0, v)).filter (·.1 == 0)).map Prod.snd = vs := by
    induction vs with
    | nil => rfl
    | cons v vs ih => simpa using ih
  rw [lookup_reverse, lookup_reverse, hself]

theorem PartMeans.body_eq {o : ParseOptions} {part : List Bare} {f : Fragment}
    (h : PartMeans o part (.fragment f)) : f.body = textOf part := by
  obtain ⟨n, ast, declared, -, -, h⟩ := h
  cases ast with
  | operation a => cases h
  | fragment a => cases h; rfl

/-- A part is known by its text. -/
theorem part_eq_of_textOf_eq {s t : List Char} {part part' : List Bare}
    (h : part ∈ chunks (bares s)) (h' : part' ∈ chunks (bares t))
    (he : textOf part = textOf part') : part = part' := by
  rw [← map_bare_parts_eq_chunks] at h h'
  obtain ⟨ws, hws, rfl⟩ := List.mem_map.mp h
  obtain ⟨vs, hvs, rfl⟩ := List.mem_map.mp h'
  refine bare_eq_of_joined_eq (infix_of_mem_parts hws) (infix_of_mem_parts hvs) ?_
  simpa [textOf, Function.comp_def, Word.bare] using String.ofList_injective he

/-! ## Alike fragments -/

/-- The definition was read from a regular text. -/
def Stems (o : ParseOptions) (d : Definition) : Prop :=
  ∃ text ds, Regular o text ∧ parse o text = .ok ds ∧ d ∈ ds

theorem Stems.exists_part {o : ParseOptions} {d : Definition} (h : Stems o d) :
    ∃ text part, part ∈ chunks (bares text) ∧ PartMeans o part d.shape := by
  obtain ⟨text, ds, hregular, hds, hd⟩ := h
  obtain ⟨-, hmeant⟩ := (exists_parse_iff hregular).mp ⟨ds, hds, rfl⟩
  obtain ⟨part, hpart, hmeans⟩ := hregular.exists_part hmeant (List.mem_map_of_mem hd)
  exact ⟨_, part, hpart, hmeans⟩

theorem Stems.shape_eq {o : ParseOptions} {f g : Fragment} (hf : Stems o (.fragment f))
    (hg : Stems o (.fragment g)) (h : f.alike g = true) : f.shape = g.shape := by
  obtain ⟨s, part, hpart, hfpart⟩ := hf.exists_part
  obtain ⟨t, part', hpart', hgpart⟩ := hg.exists_part
  have hbody : f.body = g.body := by
    simp only [Fragment.alike, Bool.and_eq_true, beq_iff_eq] at h
    exact h.2
  have heq : part = part' := part_eq_of_textOf_eq hpart hpart'
    ((hfpart.body_eq (f := f.shape)).symm.trans (hbody.trans (hgpart.body_eq (f := g.shape))))
  subst heq
  exact Definition.fragment.inj (hfpart.unique hgpart)

/-- Fragments of regular texts that are alike have one shape: one type condition, the same
directives and selections, and the same variables, up to positions. -/
theorem shape_eq_of_alike {o : ParseOptions} {s t : String} {ds es : List Definition}
    {f g : Fragment} (hs : Regular o s) (ht : Regular o t) (hds : parse o s = .ok ds)
    (hes : parse o t = .ok es) (hf : .fragment f ∈ ds) (hg : .fragment g ∈ es)
    (h : f.alike g = true) : f.shape = g.shape :=
  Stems.shape_eq ⟨s, ds, hs, hds, hf⟩ ⟨t, es, ht, hes, hg⟩ h

/-- The fragments of a text, none if it is refused. -/
def fragmentsOf (o : ParseOptions) (text : String) : List Fragment :=
  (parse o text).toOption.elim [] fun ds => ds.filterMap fun
    | .operation _ => none
    | .fragment f => some f

theorem mem_fragmentsOf {o : ParseOptions} {text : String} {f : Fragment} :
    f ∈ fragmentsOf o text ↔ ∃ ds, parse o text = .ok ds ∧ .fragment f ∈ ds := by
  unfold fragmentsOf
  cases parse o text with
  | error e => simp [Except.toOption]
  | ok ds =>
    simp only [Except.toOption, Option.elim_some, Except.ok.injEq, exists_eq_left',
      List.mem_filterMap]
    refine ⟨?_, fun h => ⟨.fragment f, h, rfl⟩⟩
    rintro ⟨d, hd, he⟩
    cases d with
    | operation o => cases he
    | fragment g => cases he; exact hd

instance (o : ParseOptions) (text : String) : Decidable (Regular o text) :=
  decidable_of_iff ((∀ t ∈ tokens text.toList, t.kind.isError = false) ∧
    (o.fragmentVariables = true →
      ∀ g ∈ VariableGroup.ofText text.toList, g.closing.kind ≠ .punctuator .braceClose))
    ⟨fun h => ⟨h.1, h.2⟩, fun h => ⟨h.sound, h.closed⟩⟩

/-- Spacing and comments tell alike fragments apart no more than what stands around them. -/
theorem exists_alike_of_spacing :
    ∃ f ∈ fragmentsOf ⟨true⟩ "fragment F($a: [Int] = [1]) on T @d(x: $a) \x7b y \x7d",
    ∃ g ∈ fragmentsOf ⟨true⟩
      "\x7b q \x7d fragment F # with variables\n($a:[Int]=[1])on T@d(x:$a)\x7by,\x7d",
      f.alike g = true ∧ f.shape = g.shape := by
  have h : ∃ f ∈ fragmentsOf ⟨true⟩ "fragment F($a: [Int] = [1]) on T @d(x: $a) \x7b y \x7d",
      ∃ g ∈ fragmentsOf ⟨true⟩
        "\x7b q \x7d fragment F # with variables\n($a:[Int]=[1])on T@d(x:$a)\x7by,\x7d",
        f.alike g = true := by decide +kernel
  obtain ⟨f, hf, g, hg, halike⟩ := h
  obtain ⟨ds, hds, hfds⟩ := mem_fragmentsOf.mp hf
  obtain ⟨es, hes, hges⟩ := mem_fragmentsOf.mp hg
  exact ⟨f, hf, g, hg, halike, shape_eq_of_alike (by decide +kernel) (by decide +kernel) hds hes
    hfds hges halike⟩

/-- A string with a carriage return is cut there, so that its body does not tell what it holds. -/
theorem exists_alike_of_brokenString :
    ∃ f ∈ fragmentsOf ⟨false⟩ "fragment F on T \x7b y(a: \"x\ry\") \x7d",
    ∃ g ∈ fragmentsOf ⟨false⟩ "fragment F on T \x7b y(a: \"x\r y\") \x7d",
      f.alike g = true ∧ f.shape ≠ g.shape := by
  have h : ∃ f ∈ fragmentsOf ⟨false⟩ "fragment F on T \x7b y(a: \"x\ry\") \x7d",
      ∃ g ∈ fragmentsOf ⟨false⟩ "fragment F on T \x7b y(a: \"x\r y\") \x7d",
        f.alike g = true ∧ f.shape.print ≠ g.shape.print := by decide +kernel
  obtain ⟨f, hf, g, hg, halike, hprint⟩ := h
  exact ⟨f, hf, g, hg, halike, fun he => hprint (congrArg Fragment.print he)⟩

/-- A group that closes with a brace is left out of the body. -/
theorem exists_alike_of_braceClose :
    ∃ f ∈ fragmentsOf ⟨true⟩ "fragment F($a: Int\x7d on T \x7b y \x7d",
    ∃ g ∈ fragmentsOf ⟨true⟩ "fragment F($b: Int\x7d on T \x7b y \x7d",
      f.alike g = true ∧ f.shape ≠ g.shape := by
  have h : ∃ f ∈ fragmentsOf ⟨true⟩ "fragment F($a: Int\x7d on T \x7b y \x7d",
      ∃ g ∈ fragmentsOf ⟨true⟩ "fragment F($b: Int\x7d on T \x7b y \x7d",
        f.alike g = true ∧ f.shape.declared.map (·.definitions.map (·.name)) ≠
          g.shape.declared.map (·.definitions.map (·.name)) := by decide +kernel
  obtain ⟨f, hf, g, hg, halike, hnames⟩ := h
  refine ⟨f, hf, g, hg, halike, fun he => hnames ?_⟩
  rw [he]

end QueryDoc
