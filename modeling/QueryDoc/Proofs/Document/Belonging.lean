import Mathlib.Data.List.Nodup
import QueryDoc.Proofs.Document.Alike
import QueryDoc.Proofs.Document.Groups

/-!
# Which fragment a group belongs to

The definitions of an accepted text are read from the parts that its tokens outside groups are cut
into. A group belongs to the fragment of the part that it stands in, of which it is the only group,
and it stands right behind the fragment's name (`groups_belong`), or behind `on` in a fragment that
is named `fragment`.
-/
namespace QueryDoc

open QueryDoc.Lexis QueryDoc.Grammar

/-! ## What the grammar reads -/

theorem bares_grammarText_eq (text : List Char) :
    bares (grammarText ⟨true⟩ text) = (ungrouped text).map Token.bare := by
  rw [bares_grammarText, keptBares, if_pos rfl, items_bares_eq_significant, kepts_map, ungrouped_eq]

/-- What is read of a text without error tokens is spelt by its tokens outside groups. -/
theorem spells_ungrouped_of_read {text : List Char}
    (hsound : ∀ t ∈ tokens text, t.kind.isError = false) {asts : List Ast.Definition}
    (hread : read (grammarText ⟨true⟩ text) = .ok asts) :
    Spells ((ungrouped text).map Token.bare) (asts.map Ast.Definition.shape) := by
  obtain ⟨-, hspells⟩ := spells_of_read (faultless_of_sound hsound) hread
  rwa [bares_grammarText_eq] at hspells

/-- Each definition is read from a part of the tokens outside groups. -/
theorem forall₂_means_ungrouped {text : List Char} {shapes : List Ast.Definition}
    (h : Spells ((ungrouped text).map Token.bare) shapes) :
    List.Forall₂ (fun part x => Means (ungrouped text).length (part.map Token.bare) x)
      (cutDefinitions 0 (ungrouped text)) shapes := by
  have hmeans := h.means
  rw [chunks, cut_map, List.length_map, List.forall₂_map_left_iff] at hmeans
  rwa [cutDefinitions_eq_cut]

/-! ## Parts of a text -/

/-- The items of the tokens, cut into the items of definitions. -/
abbrev itemParts (text : List Char) : List (List (Item Token)) :=
  cutItems Token.bare 0 (items Token.bare 0 (significant text))

theorem map_kepts_itemParts (text : List Char) :
    (itemParts text).map kepts = cutDefinitions 0 (ungrouped text) := by
  rw [map_kepts_cutItems Token.bare (itemized_items Token.bare 0 _).1, ← ungrouped_eq,
    cutDefinitions_eq_cut]
  rfl

/-- The items of a part are those of one definition. -/
theorem framed_itemParts {text : List Char} {shapes : List Ast.Definition}
    (h : Spells ((ungrouped text).map Token.bare) shapes) :
    List.Forall₂ (fun part x => Framed Token.bare x part) (itemParts text) shapes := by
  have hmeans := forall₂_means_ungrouped h
  have hitemized := (allItemized_cutItems Token.bare
    (itemized_items Token.bare 0 (significant text)).1).itemized
  rw [← map_kepts_itemParts, List.forall₂_map_left_iff] at hmeans
  exact ((List.forall₂_and_left _ _).mpr ⟨hitemized, hmeans⟩).imp fun part x hx =>
    framed_of_means Token.bare hx.2 hx.1

theorem framed_of_getElem? {text : List Char} {shapes : List Ast.Definition}
    (h : Spells ((ungrouped text).map Token.bare) shapes) {i : Nat} {part : List (Item Token)}
    (hpart : (itemParts text)[i]? = some part) :
    ∃ x, shapes[i]? = some x ∧ Framed Token.bare x part :=
  exists_of_forall₂ (framed_itemParts h) hpart

theorem filter_frameTokens (text : List Char) (i : Nat) :
    ((frameTokens text).filter (·.1 == i)).map Prod.snd =
      frames (((itemParts text)[i]?).getD []) := by
  have hfilter := filter_numbered Token.bare 0 0 i (items Token.bare 0 (significant text))
  rwa [Nat.zero_add] at hfilter

/-- A group stands in the part with the number of its definition. -/
theorem exists_part_of_mem {text : List Char} {i : Nat} {f : Frame Token}
    (h : (i, f) ∈ frameTokens text) :
    ∃ part, (itemParts text)[i]? = some part ∧ f ∈ frames part := by
  have hf : f ∈ ((frameTokens text).filter (·.1 == i)).map Prod.snd :=
    List.mem_map.mpr ⟨_, List.mem_filter.mpr ⟨h, beq_self_eq_true i⟩, rfl⟩
  rw [filter_frameTokens] at hf
  cases hpart : (itemParts text)[i]? with
  | none => rw [hpart] at hf; cases hf
  | some part =>
    rw [hpart] at hf
    exact ⟨part, rfl, hf⟩

/-- A part with a single frame has a single group. -/
theorem filter_frameTokens_eq {text : List Char} {i : Nat} {part : List (Item Token)}
    {f : Frame Token} (hpart : (itemParts text)[i]? = some part) (hframes : frames part = [f]) :
    (frameTokens text).filter (·.1 == i) = [(i, f)] := by
  have hfilter := filter_frameTokens text i
  rw [hpart, Option.getD_some, hframes] at hfilter
  obtain ⟨x, hx, rfl⟩ := List.map_eq_singleton_iff.mp hfilter
  have hmem : x ∈ (frameTokens text).filter (·.1 == i) := hx ▸ List.mem_singleton_self x
  obtain rfl : x.1 = i := by simpa using (List.mem_filter.mp hmem).2
  exact hx

/-- The variables with one number are those of the frames with that number. -/
theorem forall₂_read_filter {text : List Char} {groups : List (Nat × FragmentVariables)}
    (h : groupsOf ⟨true⟩ text = .ok groups) (i : Nat) :
    List.Forall₂ (fun x y => (VariableGroup.ofFrame x.1 x.2).read text = .ok y.2)
      ((frameTokens text).filter (·.1 == i)) (groups.filter (·.1 == i)) := by
  rw [groupsOf, if_pos rfl, mapM_eq_ok_iff, ofText_eq, List.forall₂_map_left_iff] at h
  have hread : List.Forall₂ (fun x y => x.1 = y.1 ∧
      (VariableGroup.ofFrame x.1 x.2).read text = .ok y.2) (frameTokens text) groups :=
    h.imp fun x y hxy => by
      obtain ⟨v, hv, rfl⟩ := map_eq_ok_iff.mp hxy
      exact ⟨rfl, hv⟩
  exact (List.rel_filter (fun x y hxy => by simp only [hxy.1]) hread).imp fun x y hxy => hxy.2

/-! ## Definitions of a text -/

theorem getElem?_assemble {o : ParseOptions} {asts : List Ast.Definition}
    {groups : List (Nat × FragmentVariables)} {bodies : List String} {i : Nat} :
    (assemble o asts groups bodies)[i]? =
      ((asts.zip bodies)[i]?).map fun x => .ofAst o groups i x.2 x.1 := by
  rw [assemble, List.getElem?_mapIdx]

theorem ast_ofAst (o : ParseOptions) (groups : List (Nat × FragmentVariables)) (i : Nat)
    (body : String) (a : Ast.Definition) : (Definition.ofAst o groups i body a).ast = a := by
  cases a <;> rfl

theorem length_bodies (text : String) (asts : List Ast.Definition) :
    (bodies text asts).length = asts.length := by
  unfold bodies
  dsimp only
  split
  · assumption
  · exact List.length_map ..

theorem map_ast_assemble (o : ParseOptions) (text : String) (asts : List Ast.Definition)
    (groups : List (Nat × FragmentVariables)) :
    (assemble o asts groups (bodies text asts)).map Definition.ast = asts := by
  refine List.ext_getElem? fun i => ?_
  have hfst : (Definition.ast ∘ fun x => .ofAst o groups i x.2 x.1) =
      (Prod.fst : Ast.Definition × String → Ast.Definition) :=
    funext fun x => ast_ofAst o groups i x.2 x.1
  rw [List.getElem?_map, getElem?_assemble, Option.map_map, hfst, ← List.getElem?_map,
    List.map_fst_zip (length_bodies text asts).ge]

theorem map_shape_ast_assemble (o : ParseOptions) (text : String) (asts : List Ast.Definition)
    (groups : List (Nat × FragmentVariables)) :
    (assemble o asts groups (bodies text asts)).map (fun d => d.ast.shape) =
      asts.map Ast.Definition.shape := by
  rw [← map_ast_assemble o text asts groups, List.map_map, map_ast_assemble]
  rfl

theorem exists_fragment_of_shape {ds : List Definition} {i : Nat} {d : Ast.Fragment}
    (h : (ds.map fun x => x.ast.shape)[i]? = some (.fragment d)) :
    ∃ f, ds[i]? = some (.fragment f) ∧ f.name = d.name := by
  rw [List.getElem?_map] at h
  obtain ⟨_ | f, hi, hf⟩ := Option.map_eq_some_iff.mp h
  · cases hf
  · cases hf
    exact ⟨f, hi, rfl⟩

/-- A fragment has the last of the variables with its number. -/
theorem declared_of_getElem? {text : String} {asts : List Ast.Definition}
    {groups : List (Nat × FragmentVariables)} {i : Nat} {f : Fragment}
    (h : (assemble ⟨true⟩ asts groups (bodies text asts))[i]? = some (.fragment f)) :
    f.declared = some ((((groups.filter (·.1 == i)).map Prod.snd).getLast?).getD ⟨[], none⟩) := by
  rw [getElem?_assemble] at h
  obtain ⟨⟨_ | a, body⟩, -, hf⟩ := Option.map_eq_some_iff.mp h
  · cases hf
  · cases hf
    rw [← lookup_reverse]
    rfl

/-! ## Groups and fragments -/

/-- The tokens in front of a group are the first ones outside groups of the definition that it
belongs to. -/
structure StandsBehind (text : List Char) (g : VariableGroup) (front : List Token) : Prop where
  tokens : ∃ pre inner post, Lexis.tokens text =
    pre ++ front ++ g.opening :: (inner ++ g.closing :: post)
  part : ∃ rest, (cutDefinitions 0 (ungrouped text))[g.definition]? = some (front ++ rest)

/-- A frame behind the first tokens of a part. -/
theorem standsBehind_of_getElem? {text : List Char} {i : Nat} {front : List Token}
    (before : List (Item Token)) {after : List (Item Token)} {f : Frame Token}
    (hbefore : sources before = kepts before)
    (hfront : kepts before ++ [f.word, f.name] = front)
    (h : (itemParts text)[i]? = some (before ++ .frame f :: after)) :
    StandsBehind text (.ofFrame i f) front := by
  subst hfront
  obtain ⟨last, -, htokens, -⟩ := exists_tokens_eq text
  obtain ⟨hi, hpart⟩ := List.getElem?_eq_some_iff.mp h
  constructor
  · have hitems := flatten_cut (p := Item.punctuator? Token.bare) 0
      (items Token.bare 0 (significant text))
    obtain ⟨ps, qs, hsplit⟩ := List.append_of_mem (List.getElem_mem hi)
    rw [show cut (Item.punctuator? Token.bare) 0 _ = _ from hsplit, hpart] at hitems
    refine ⟨sources ps.flatten, f.inner, sources after ++ sources qs.flatten ++ [last], ?_⟩
    rw [htokens, ← (itemized_items Token.bare 0 (significant text)).2, ← hitems, ← hbefore]
    simp [sources, Item.source, Frame.source, VariableGroup.ofFrame]
  · refine ⟨kepts after, ?_⟩
    have hkepts := congrArg (Option.map kepts) h
    rw [← List.getElem?_map, map_kepts_itemParts] at hkepts
    exact hkepts.trans (congrArg some (by simp [kepts, Item.kept]))

/-- The texts of tokens. -/
def wordsOf (ts : List Token) : List String := ts.map fun t => String.ofList t.text

/-- The group is written on a fragment with the given name: right behind the name, or behind `on` in
a fragment that is named `fragment`, whose group is taken for one of a fragment `on`. -/
inductive WrittenOn (text : List Char) (g : VariableGroup) (name : String) : Prop
  | name (front : List Token) (h : StandsBehind text g front)
    (hwords : wordsOf front = ["fragment", name]) (hg : g.fragment = name)
  | on (front : List Token) (h : StandsBehind text g front)
    (hwords : wordsOf front = ["fragment", "fragment", "on"]) (hname : name = "fragment")
    (hg : g.fragment = "on")

theorem writtenOn_of_framed {text : List Char} {i : Nat} {part : List (Item Token)}
    {f : Frame Token} {x : Ast.Definition} (hpart : (itemParts text)[i]? = some part)
    (hf : f ∈ frames part)
    (h : Framed Token.bare x part) (hframe : f.IsFrame Token.bare) : ∃ d, x = .fragment d ∧
      frames part = [f] ∧ WrittenOn text (.ofFrame i f) d.name := by
  have hword : String.ofList f.word.text = "fragment" := by
    have htext : f.word.text = "fragment".toList := congrArg Prod.snd hframe.word
    rw [htext, String.ofList_toList]
  cases h with
  | none hnone => rw [hnone] at hf; cases hf
  | first g after d hx hsplit hframes hname =>
    rw [hframes] at hf
    obtain rfl := List.mem_singleton.mp hf
    have hfname : String.ofList f.name.text = d.name := by
      rw [show f.name.text = d.name.toList from hname, String.ofList_toList]
    refine ⟨d, hx, hframes, .name [f.word, f.name]
      (standsBehind_of_getElem? [] rfl rfl (hsplit ▸ hpart)) ?_ hfname⟩
    rw [wordsOf, List.map_cons, List.map_cons, hword, hfname]
    rfl
  | second u g after d hx hsplit hframes hu hd hon =>
    rw [hframes] at hf
    obtain rfl := List.mem_singleton.mp hf
    have hfname : String.ofList f.name.text = "on" := by
      rw [show f.name.text = "on".toList from hon, String.ofList_toList]
    have hutext : String.ofList u.text = "fragment" := by
      rw [show u.text = "fragment".toList from hu, String.ofList_toList]
    refine ⟨d, hx, hframes, .on [u, f.word, f.name]
      (standsBehind_of_getElem? [.plain u] rfl rfl (hsplit ▸ hpart)) ?_ hd hfname⟩
    rw [wordsOf, List.map_cons, List.map_cons, List.map_cons, hutext, hword, hfname]
    rfl

/-- A part of a text has at most one group. -/
theorem Lexis.Framed.length_frames_le {x : Ast.Definition} {part : List (Item Token)}
    (h : Framed Token.bare x part) : (frames part).length ≤ 1 := by
  cases h with
  | none h => simp [h]
  | first g after d hx hsplit hframes => simp [hframes]
  | second u g after d hx hsplit hframes => simp [hframes]

/-- No two groups of an accepted text are in one definition. -/
theorem nodup_definitions {text : List Char} {shapes : List Ast.Definition}
    (h : Spells ((ungrouped text).map Token.bare) shapes) :
    ((VariableGroup.ofText text).map VariableGroup.definition).Nodup := by
  rw [ofText_eq, List.map_map]
  refine List.nodup_iff_count_le_one.mpr ?_
  intro i
  have hcount : List.count i ((frameTokens text).map Prod.fst) =
      (frames (((itemParts text)[i]?).getD [])).length := by
    rw [← filter_frameTokens, List.length_map, List.count_eq_length_filter, List.filter_map,
      List.length_map]
    rfl
  refine hcount.trans_le ?_
  cases hpart : (itemParts text)[i]? with
  | none => exact Nat.zero_le 1
  | some part =>
    obtain ⟨x, -, hframed⟩ := framed_of_getElem? h hpart
    exact hframed.length_frames_le

/-- In an accepted text without error tokens, each group is the one of the fragment that it is
written on. -/
theorem exists_fragment_of_group {text : String} {ds : List Definition}
    (h : parse ⟨true⟩ text = .ok ds) (hsound : ∀ t ∈ tokens text.toList, t.kind.isError = false)
    {g : VariableGroup} (hg : g ∈ VariableGroup.ofText text.toList) :
    ∃ f v, ds[g.definition]? = some (.fragment f) ∧ WrittenOn text.toList g f.name ∧
      g.read text.toList = .ok v ∧ f.declared = some v := by
  obtain ⟨groups, asts, hgroups, hread, rfl⟩ := parse_eq_ok_iff.mp h
  rw [ofText_eq] at hg
  obtain ⟨⟨i, frame⟩, hmem, rfl⟩ := List.mem_map.mp hg
  obtain ⟨part, hpart, hframe⟩ := exists_part_of_mem hmem
  obtain ⟨x, hx, hframed⟩ := framed_of_getElem? (spells_ungrouped_of_read hsound hread) hpart
  obtain ⟨d, rfl, hframes, hon⟩ :=
    writtenOn_of_framed hpart hframe hframed (exists_tokens_eq_of_mem hmem).1
  -- the variables of the definition are those of its only group
  have hdeclared := forall₂_read_filter hgroups i
  rw [filter_frameTokens_eq hpart hframes] at hdeclared
  obtain ⟨v, _, hv, hnil, hfilter⟩ := List.forall₂_cons_left_iff.mp hdeclared
  obtain rfl := List.forall₂_nil_left_iff.mp hnil
  rw [← map_shape_ast_assemble ⟨true⟩ text asts groups] at hx
  obtain ⟨f, hf, hname⟩ := exists_fragment_of_shape hx
  refine ⟨f, v.2, hf, hname ▸ hon, hv, ?_⟩
  rw [declared_of_getElem? hf, hfilter]
  rfl

/-- The groups of a text without error tokens that is accepted, and its fragments. Each definition
is read from one part of the tokens outside groups. No two groups are in one definition. The
definition of a group is a fragment that it is written on and that declares the variables of this
group. All other fragments declare none. -/
theorem groups_belong {text : String} (hsound : ∀ t ∈ tokens text.toList, t.kind.isError = false)
    {ds : List Definition} (h : parse ⟨true⟩ text = .ok ds) :
    List.Forall₂ (fun part d => ∃ n, Means n (part.map Token.bare) d.ast.shape)
      (cutDefinitions 0 (ungrouped text.toList)) ds ∧
    ((VariableGroup.ofText text.toList).map VariableGroup.definition).Nodup ∧
    (∀ g ∈ VariableGroup.ofText text.toList, ∃ f v, ds[g.definition]? = some (.fragment f) ∧
      WrittenOn text.toList g f.name ∧ g.read text.toList = .ok v ∧ f.declared = some v) ∧
    ∀ i f, ds[i]? = some (.fragment f) →
      (∀ g ∈ VariableGroup.ofText text.toList, g.definition ≠ i) →
        f.declared = some ⟨[], none⟩ := by
  obtain ⟨groups, asts, hgroups, hread, rfl⟩ := parse_eq_ok_iff.mp h
  have hspells := spells_ungrouped_of_read hsound hread
  refine ⟨?_, nodup_definitions hspells, fun g => exists_fragment_of_group h hsound,
    fun i f hf hnone => ?_⟩
  · have hmeans := forall₂_means_ungrouped hspells
    rw [← map_shape_ast_assemble ⟨true⟩ text asts groups, List.forall₂_map_right_iff] at hmeans
    exact hmeans.imp fun part d hd => ⟨_, hd⟩
  · have hempty : (frameTokens text.toList).filter (·.1 == i) = [] := by
      refine List.filter_eq_nil_iff.mpr fun x hx hi => ?_
      refine hnone (.ofFrame x.1 x.2) ?_ (eq_of_beq hi)
      rw [ofText_eq]
      exact List.mem_map_of_mem hx
    have hfilter := forall₂_read_filter hgroups i
    rw [hempty, List.forall₂_nil_left_iff] at hfilter
    rw [declared_of_getElem? hf, hfilter]
    rfl

/-- Of two fragments, the second one declares a variable. -/
theorem groups_belong_second :
    ∃ ds f v,
      parse ⟨true⟩ "fragment A on T \x7b y \x7d fragment B($x: Int) on T \x7b z \x7d" = .ok ds ∧
      ds[1]? = some (.fragment f) ∧ f.name = "B" ∧ f.declared = some v ∧
      v.source = some "($x: Int)" ∧
      ∀ e, ds[0]? = some (.fragment e) → e.declared = some ⟨[], none⟩ := by
  obtain ⟨ds, hds⟩ := @exists_parse_of_isSome ⟨true⟩
    "fragment A on T \x7b y \x7d fragment B($x: Int) on T \x7b z \x7d" (by decide +kernel)
  have hgroup : ∃ g ∈ VariableGroup.ofText
      "fragment A on T \x7b y \x7d fragment B($x: Int) on T \x7b z \x7d".toList,
      g.definition = 1 ∧ g.fragment = "B" ∧ ((g.read
        "fragment A on T \x7b y \x7d fragment B($x: Int) on T \x7b z \x7d".toList).toOption.map
          FragmentVariables.source) = some (some "($x: Int)") := by decide +kernel
  have hall : ∀ g ∈ VariableGroup.ofText
      "fragment A on T \x7b y \x7d fragment B($x: Int) on T \x7b z \x7d".toList,
      g.definition ≠ 0 := by decide +kernel
  obtain ⟨g, hg, hone, hname, hsource⟩ := hgroup
  obtain ⟨-, -, hbelong, hnone⟩ := groups_belong (by decide +kernel) hds
  obtain ⟨f, v, hf, hon, hv, hdeclared⟩ := hbelong g hg
  rw [hv] at hsource
  refine ⟨ds, f, v, hds, hone ▸ hf, ?_, hdeclared, Option.some.inj hsource,
    fun e he => hnone 0 e he hall⟩
  cases hon with
  | name front h hwords hgf => exact hgf.symm.trans hname
  | on front h hwords hfname hgf => exact absurd (hgf.symm.trans hname) (by decide)

/-- A group behind the `on` of a fragment that is named `fragment` gives it variables. -/
theorem exists_group_of_on :
    (∃ f ∈ fragmentsOf ⟨true⟩ "fragment fragment on ($a: Int) T \x7b y \x7d",
      f.name = "fragment" ∧ ∃ v, f.declared = some v ∧ v.source = some "($a: Int)") ∧
    (VariableGroup.ofText "fragment fragment on ($a: Int) T \x7b y \x7d".toList).map
      (fun g => (g.definition, g.fragment)) = [(0, "on")] := by
  have h : ∃ f ∈ fragmentsOf ⟨true⟩ "fragment fragment on ($a: Int) T \x7b y \x7d",
      f.name = "fragment" ∧
        (f.declared.map FragmentVariables.source) = some (some "($a: Int)") := by
    decide +kernel
  obtain ⟨f, hf, hname, hsource⟩ := h
  obtain ⟨v, hv, hsource⟩ := Option.map_eq_some_iff.mp hsource
  exact ⟨⟨f, hf, hname, v, hv, hsource⟩, by decide +kernel⟩

end QueryDoc
