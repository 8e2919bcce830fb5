import QueryDoc.Proofs.Document.Blanking
import QueryDoc.Proofs.Document.Insertion
import QueryDoc.Proofs.Grammar.Faults

/-!
# Printed groups

A fragment with a group is printed with the group behind its name. The words of a group are taken
off in front of any text, so behind `fragment` and any name it is found again as the first group
(`exists_group_behind`), and it is read as the same variables. The name is one to both lexers, as
the grammar has read it (`readable_name`).
-/
namespace QueryDoc

open QueryDoc.Lexis QueryDoc.Grammar

/-! ## Names of fragments -/

namespace Grammar

theorem kind_scanString? {escaped : Bool} {s : List Char} {r : Scanned Category}
    (h : scanString? escaped s = some r) : r.kind = .string := by
  induction s generalizing escaped r with
  | nil => cases h
  | cons c s ih =>
    unfold scanString? at h
    split at h
    · cases h
      rfl
    · split at h
      · cases h
      · obtain ⟨t, ht, rfl⟩ := Option.map_eq_some_iff.mp h
        exact ih (r := t) ht

theorem kind_scanBlock? {afterBackslash : Bool} {s : List Char} {r : Scanned Category}
    (h : scanBlock? afterBackslash s = some r) : r.kind = .block := by
  fun_induction scanBlock? afterBackslash s generalizing r with
  | case1 => cases h
  | case2 s ih =>
    obtain ⟨t, ht, rfl⟩ := Option.map_eq_some_iff.mp h
    exact ih (r := t) ht
  | case3 => cases h; rfl
  | case4 s c _ _ ih =>
    obtain ⟨t, ht, rfl⟩ := Option.map_eq_some_iff.mp h
    exact ih (r := t) ht

theorem kind_scanQuote?_ne_name {s : List Char} {r : Scanned Category}
    (h : scanQuote? s = .ok r) : r.kind ≠ .name := by
  unfold scanQuote? at h
  split at h
  · split at h
    · rename_i hblock
      cases h
      simp [Scanned.behind, kind_scanBlock? hblock]
    · cases h
  · split at h
    · rename_i hstring
      cases h
      simp [Scanned.behind, kind_scanString? hstring]
    · cases h

/-- Where the grammar reads a name, the other lexer reads a word of the same text. -/
theorem scan_of_name {c : Char} {s : List Char} {r : Scanned Category} (h : scan? c s = .ok r)
    (hr : r.kind = .name) : Lexis.scan c s = ⟨nameKind r.text, r.text, r.rest⟩ := by
  unfold scan? at h
  split at h
  · cases h
    cases hr
  split at h
  · unfold scanDots? at h
    split at h <;> cases h
    cases hr
  split at h
  · exact absurd hr (kind_scanQuote?_ne_name h)
  split at h
  · cases h
    rw [scan_name ‹_›]
    rfl
  split at h
  · unfold scanNumber? at h
    dsimp only at h
    repeat' split at h
    all_goals cases h
    all_goals cases hr
  · cases h

/-- A name of the grammar can be read as a word. -/
theorem readable_of_mem_lexemes {s : List Char} {budget : Nat} {p : Ast.Position}
    (hend : (lexemesFrom budget p s).2.fault = none) {l : Lexeme}
    (hl : l ∈ (lexemesFrom budget p s).1) (hname : l.category = .name) :
    (⟨nameKind l.text, l.text, false⟩ : Word).Readable := by
  induction hlength : s.length using Nat.strong_induction_on generalizing s budget p with
  | _ length ih =>
    cases hs : dropIgnored false s with
    | nil =>
      rw [lexemesFrom_of_dropIgnored_nil hs] at hl
      cases hl
    | cons c t =>
      obtain ⟨r, left, q, q', hr, hend', hls⟩ := exists_lexeme hs hend
      obtain ⟨hc, front, hfront, -⟩ := exists_ignorable hs
      rw [hls] at hl
      rcases List.mem_cons.mp hl with rfl | hl
      · have hscan := scan_of_name hr hname
        obtain ⟨u, htext, hrest⟩ := exists_scan_eq c t
        rw [hscan] at htext hrest
        exact ⟨c, u, r.rest, hc, htext, hrest ▸ hscan⟩
      · refine ih r.rest.length ?_ hend' hl rfl
        have hlt := length_rest_scan? hr
        rw [← hlength, hfront, List.length_append]
        omega

/-- The name of a fragment is one of the lexemes that it was read from. -/
theorem exists_lexeme_of_read {text : List Char} {asts : List Ast.Definition}
    (h : read text = .ok asts) {d : Ast.Fragment} (hd : .fragment d ∈ asts) :
    ∃ l ∈ (lexemes text).1, l.face = nameFace d.name := by
  obtain ⟨-, -, hall⟩ := exists_read_iff.mp ⟨asts, h, rfl⟩
  obtain ⟨i, hi⟩ := List.mem_iff_getElem?.mp hd
  rw [List.forall₂_map_right_iff] at hall
  obtain ⟨piece, hpiece, d', hd', hshape⟩ := exists_of_forall₂ hall.flip hi
  obtain ⟨taken, htaken, tail, block, hfaces, -⟩ := outline_of_readDefinition hd'
  obtain rfl : piece = taken := by simpa using htaken
  have hlead : lead d' = lead (.fragment d) := by rw [← lead_shape d', hshape, lead_shape]
  have hname : nameFace d.name ∈ piece.map Lexeme.face := by
    rw [hfaces, hlead]
    simp [lead]
  obtain ⟨l, hl, hface⟩ := List.mem_map.mp hname
  exact ⟨l, (infix_of_mem_cut (List.mem_of_getElem? hpiece)).subset hl, hface⟩

/-- The name of a fragment that was read can be read as a word. -/
theorem readable_name {text : List Char} {asts : List Ast.Definition} (h : read text = .ok asts)
    {d : Ast.Fragment} (hd : .fragment d ∈ asts) :
    (⟨nameKind d.name.toList, d.name.toList, false⟩ : Word).Readable := by
  obtain ⟨l, hl, hface⟩ := exists_lexeme_of_read h hd
  obtain ⟨hcategory, htext⟩ := Prod.mk.inj hface
  rw [← htext]
  exact readable_of_mem_lexemes (valued_of_read h).1 hl hcategory

end Grammar

/-! ## A frame in another text -/

namespace Lexis

/-- As many words take the same part of a text. -/
theorem Takes.rest_eq {ws vs : List Word} {s rest rest' : List Char} (h : Takes ws s rest)
    (h' : Takes vs s rest') (hlength : ws.length = vs.length) : rest = rest' := by
  induction h generalizing vs with
  | nil s =>
    obtain rfl : vs = [] := List.length_eq_zero_iff.mp hlength.symm
    cases h'
    rfl
  | cons hs _ ih =>
    cases h' with
    | nil => cases hlength
    | cons hs' htail =>
      obtain ⟨-, -, -, -, rfl⟩ := hs.unique hs'
      exact ih htail (Nat.succ.inj hlength)

namespace FrameText

variable {s pre mid post : List Char} {f : Frame Word} {c : Char}

/-- There is one way for a frame to lie in a text. -/
theorem unique (h : FrameText s f pre mid c post) {pre' mid' post' : List Char} {c' : Char}
    (h' : FrameText s f pre' mid' c' post') :
    pre = pre' ∧ mid = mid' ∧ c = c' ∧ post = post' := by
  have opens {gap : List Char} (hgap : Ignorable gap) (t : List Char) :=
    splits_punctuator (c := '(') rfl hgap t
  obtain ⟨u, gap, rfl, hgap, htakes⟩ := h.front
  obtain ⟨u', gap', rfl, hgap', htakes'⟩ := h'.front
  have hopening := htakes.rest_eq htakes' rfl
  obtain ⟨-, rfl, -, -, hinner⟩ := (opens hgap _).unique (hopening ▸ opens hgap' _)
  have hsplit := h.split.symm.trans h'.split
  rw [← hinner, List.append_assoc, List.append_assoc] at hsplit
  obtain rfl : u = u' := List.append_cancel_right hsplit
  obtain ⟨p, hp, -⟩ := h.closing
  obtain ⟨p', hp', -⟩ := h'.closing
  obtain ⟨v, space, rfl, hspace, htaken⟩ := h.inner
  obtain ⟨v', space', rfl, hspace', htaken'⟩ := h'.inner
  rw [List.append_assoc, List.append_assoc] at hinner
  rw [hinner] at htaken
  have hclosing := htaken.rest_eq htaken' rfl
  obtain ⟨-, rfl, rfl, -, rfl⟩ := (splits_punctuator hp hspace _).unique
    (hclosing ▸ splits_punctuator hp' hspace' _)
  exact ⟨rfl, congrArg (· ++ space) (List.append_cancel_right hinner), rfl, rfl⟩

/-- What a frame holds makes a frame behind two other words as well, in front of any text. -/
theorem moved (h : FrameText s f pre mid c post) {front : List Char} {w n : Word}
    (htakes : ∀ x, Takes [w, n] (front ++ '(' :: x) ('(' :: x)) (hn : n.kind = .name)
    (back : List Char) : FrameText (front ++ '(' :: (mid ++ c :: back))
      ⟨w, n, f.opening, f.inner, f.closing⟩ front mid c back := by
  obtain ⟨p, hp, -⟩ := h.closing
  obtain ⟨u, gap, hmid, hgap, htaken⟩ := h.exists_takes_mid (d := c) (by simp [hp]) back
  refine ⟨rfl, ⟨front, [], by simp, fun _ => rfl, htakes _⟩, hn, h.opening,
    ⟨u, gap, hmid, hgap, ?_⟩, h.closing⟩
  rwa [← List.append_assoc, ← hmid]

/-- Where a frame lies at the start of a text, the text's first group is the one of this frame. -/
theorem exists_group (h : FrameText s f pre mid c post) (hf : f.IsFrame Word.bare) :
    ∃ g rest, VariableGroup.ofText s = g :: rest ∧ GroupText .start g 0 f pre mid c := by
  have hwords : words s = f.source ++ words post := by
    obtain ⟨u, gap, -, hgap, htakes⟩ := h.front
    have hgroup := (h.takes_group post).words_eq
    simp only [List.cons_append, List.append_assoc, List.nil_append] at hgroup
    rw [htakes.words_eq, words_append_of_ignorable hgap, hgroup]
    rfl
  have hframe : frame? Word.bare (words s) = some (f, words post) := by
    rw [hwords]
    exact hf.frame?_append (words post)
  obtain ⟨pre', mid', c', post', g, -, ht, hg, hfront⟩ := exists_frameText hframe 0 .start []
  obtain ⟨rfl, rfl, rfl, rfl⟩ := h.unique ht
  exact ⟨g, _, find_of_front? hfront, hg⟩

/-- A name in front of a bracket is none of the literals. -/
theorem nameKind_eq (h : FrameText s f pre mid c post) : nameKind f.name.text = .name := by
  obtain ⟨u, gap, -, -, htakes⟩ := h.front
  have hmem : f.name ∈ words s := by
    rw [htakes.words_eq]
    simp
  rw [← ((readable_words s).1 f.name hmem).kind_eq, h.name]
  · rw [h.name]
    rfl
  · rw [Word.bare, h.name]
    rfl

end FrameText

/-- A group is read for what stands between its brackets and with them. -/
theorem Between.read_eq_ok_iff {v s pre mid post : List Char} {g : VariableGroup} {c : Char}
    (h : Between v s g pre mid c post) {vars : FragmentVariables} :
    g.read (v ++ s) = .ok vars ↔ ∃ head selections,
      read ("query(".toList ++ mid ++ ") \x7b __typename \x7d".toList) =
        .ok [.operation ⟨some head, selections⟩] ∧
      head.type = .query ∧
      vars = ⟨head.declared, some (String.ofList ('(' :: (mid ++ [c])))⟩ := by
  have hs : v ++ s = v ++ (pre ++ ['(']) ++ (mid ++ c :: post) := by simp [h.text]
  have hinner := slice_append (v ++ (pre ++ ['('])) mid (c :: post)
  have hclosing : v ++ (pre ++ '(' :: mid) = v ++ (pre ++ ['(']) ++ mid := by simp
  rw [← hs, ← hclosing, ← h.opening, ← h.closing] at hinner
  rw [groupRead_eq_ok_iff, hinner, h.slice_group.1]

/-! ## Groups behind other names -/

section

variable {text : List Char} {g : VariableGroup} (hg : g ∈ VariableGroup.ofText text)

include hg

theorem nameKind_of_mem_ofText : nameKind g.fragment.toList = .name := by
  obtain ⟨y, x, n, f, pre, mid, c, post, -, ht, hgroup, -⟩ :=
    (layout_ofText text).exists_frameText hg
  rw [hgroup.fragment, String.toList_ofList]
  exact ht.nameKind_eq

/-- What a group of a text says is the first group of any text in which it stands behind `fragment`
and a name, and it is read as the same variables there. -/
theorem exists_group_behind {front : List Char} {w n : Word}
    (htakes : ∀ x, Takes [w, n] (front ++ '(' :: x) ('(' :: x))
    (hw : w.bare = (.name, "fragment".toList)) (hn : n.kind = .name) (back : List Char) :
    ∃ g' rest,
      VariableGroup.ofText (front ++ (slice g.first g.last text ++ back)) = g' :: rest ∧
      g'.definition = 0 ∧ g'.fragment = String.ofList n.text ∧ g'.first = byteLength front ∧
      slice g'.first g'.last (front ++ (slice g.first g.last text ++ back)) =
        slice g.first g.last text ∧
      ∀ v, g'.read (front ++ (slice g.first g.last text ++ back)) = .ok v ↔
        g.read text = .ok v := by
  obtain ⟨y, x, m, f, pre, mid, c, post, htext, ht, hgroup, is, his⟩ :=
    (layout_ofText text).exists_frameText hg
  have hbetween : Between [] text g (y ++ pre) mid c post :=
    htext ▸ (hgroup.between ht).prepend
  have hslice : slice g.first g.last text = '(' :: (mid ++ [c]) := hbetween.slice_group.1
  have hframe : f.IsFrame Word.bare :=
    (itemized_items Word.bare 0 (words text)).1.isFrame (by simp [his])
  have hprinted : front ++ ('(' :: (mid ++ [c]) ++ back) = front ++ '(' :: (mid ++ c :: back) := by
    simp
  have ht' := ht.moved htakes hn back
  obtain ⟨g', rest, hrest, hgroup'⟩ :=
    ht'.exists_group ⟨hw, hn, hframe.opening, hframe.closing⟩
  have hbetween' : Between [] (front ++ '(' :: (mid ++ c :: back)) g' front mid c back :=
    GroupText.between (v := []) hgroup' ht'
  rw [hslice, hprinted]
  exact ⟨g', rest, hrest, hgroup'.definition, hgroup'.fragment, hbetween'.first,
    hbetween'.slice_group.1,
    fun v => (hbetween'.read_eq_ok_iff (v := [])).trans (hbetween.read_eq_ok_iff (v := [])).symm⟩

end

/-- A name is taken off a text in front of whatever ends it. -/
theorem takes_name {name : List Char} (h : (⟨.name, name, false⟩ : Word).Readable)
    {front : List Char} (hfront : Ignorable front) {other : List Char} (ho : Ends .name other) :
    Takes [⟨.name, name, false⟩] (front ++ (name ++ other)) other := by
  obtain ⟨c, u, rest, hc, htext, hscan⟩ := h
  obtain rfl : name = c :: u := htext
  exact .cons ⟨rfl, hfront, hc, scan_append hscan (.inl ho)⟩ (.nil other)

/-- The words that a printed fragment starts with. -/
theorem takes_heading {name : List Char} (h : (⟨.name, name, false⟩ : Word).Readable)
    (x : List Char) : Takes [⟨.name, "fragment".toList, false⟩, ⟨.name, name, false⟩]
      ("fragment ".toList ++ name ++ '(' :: x) ('(' :: x) := by
  have hword : (⟨.name, "fragment".toList, false⟩ : Word).Readable :=
    ⟨'f', "ragment".toList, [], rfl, rfl, rfl⟩
  have hfirst : Takes [⟨.name, "fragment".toList, false⟩]
      ([] ++ ("fragment".toList ++ ' ' :: (name ++ '(' :: x))) (' ' :: (name ++ '(' :: x)) :=
    takes_name hword (fun y => rfl) ⟨rfl, rfl, by simp⟩
  have hsecond : Takes [⟨.name, name, false⟩] ([' '] ++ (name ++ '(' :: x)) ('(' :: x) :=
    takes_name h (ignorable_of_all_isSkipped (by simp [isSkipped])) ⟨rfl, rfl, by simp⟩
  exact hfirst.append hsecond

end Lexis

/-! ## Printed fragments -/

/-- The text with another one in place of the first part that is the same as `old`. -/
def replaceFirst (old new : List Char) : List Char → List Char
  | [] => if old.isEmpty then new else []
  | c :: s =>
    if old.isPrefixOf (c :: s) then new ++ (c :: s).drop old.length
    else c :: replaceFirst old new s

theorem replaceFirst_append (old new s : List Char) :
    replaceFirst old new (old ++ s) = new ++ s := by
  cases h : old ++ s with
  | nil =>
    obtain ⟨rfl, rfl⟩ := List.append_eq_nil_iff.mp h
    simp [replaceFirst]
  | cons c t =>
    have hold : old.isPrefixOf (c :: t) = true := by simp [← h]
    rw [replaceFirst, if_pos hold, ← h, List.drop_left]

/-- The fragment is printed with the group behind its name, and there it is found again as the first
group, which is read as the given variables. -/
structure ReadsBack (f : Fragment) (v : FragmentVariables) (group : String) : Prop where
  inserted : ∃ behind, f.ast.print "" = "fragment " ++ f.name ++ " on " ++ behind ∧
    f.print = "fragment " ++ f.name ++ group ++ " on " ++ behind
  replaced : f.print.toList = replaceFirst ("fragment " ++ f.name ++ " ").toList
    ("fragment " ++ f.name ++ group ++ " ").toList (f.ast.print "").toList
  found : ∃ g rest, VariableGroup.ofText f.print.toList = g :: rest ∧ g.definition = 0 ∧
    g.fragment = f.name ∧ g.first = byteLength ("fragment " ++ f.name).toList ∧
    slice g.first g.last f.print.toList = group.toList ∧ g.read f.print.toList = .ok v

/-- What stands behind the name and the group is the same whatever the group is. -/
theorem Ast.Fragment.exists_print_eq (d : Ast.Fragment) : ∃ behind, ∀ group,
    d.print group = "fragment " ++ d.name ++ group ++ " on " ++ behind := by
  refine ⟨d.typeCondition ++ Ast.printDirectives 0 d.directives ++ " " ++ d.selections.print,
    fun group => ?_⟩
  have hprint : d.print group = "fragment " ++ d.name ++ group ++ " on " ++ d.typeCondition ++
      Ast.printDirectives 0 d.directives ++ " " ++ d.selections.print := rfl
  rw [hprint]
  simp only [String.append_assoc]

theorem Fragment.exists_print_eq {f : Fragment} {v : FragmentVariables} {group : String}
    (hv : f.declared = some v) (hs : v.source = some group) :
    ∃ behind, f.ast.print "" = "fragment " ++ f.name ++ " on " ++ behind ∧
      f.print = "fragment " ++ f.name ++ group ++ " on " ++ behind := by
  obtain ⟨behind, hprint⟩ := f.ast.exists_print_eq
  refine ⟨behind, ?_, ?_⟩
  · rw [hprint, String.append_empty]
    rfl
  · rw [Fragment.print, hv, Option.bind_some, hs, Option.getD_some, hprint]
    rfl

section

variable {text : String} {ds : List Definition} {f : Fragment}

/-- The name of a fragment in an accepted text can be read as a word. -/
theorem readable_name_of_parse {o : ParseOptions} (h : parse o text = .ok ds)
    (hf : .fragment f ∈ ds) :
    (⟨nameKind f.name.toList, f.name.toList, false⟩ : Word).Readable := by
  obtain ⟨groups, asts, -, hread, rfl⟩ := parse_eq_ok_iff.mp h
  have hast := List.mem_map_of_mem (f := Definition.ast) hf
  rw [map_ast_assemble] at hast
  exact readable_name hread hast

variable (h : parse ⟨true⟩ text = .ok ds)

include h

/-- Variables that have a source are those of some group. -/
theorem exists_group_of_declared (hf : .fragment f ∈ ds) {v : FragmentVariables}
    (hv : f.declared = some v) {group : String} (hs : v.source = some group) :
    ∃ g ∈ VariableGroup.ofText text.toList, g.read text.toList = .ok v := by
  obtain ⟨groups, asts, hgroups, -, rfl⟩ := parse_eq_ok_iff.mp h
  obtain ⟨i, hi⟩ := List.mem_iff_getElem?.mp hf
  rw [declared_of_getElem? hi] at hv
  cases hlast : ((groups.filter (·.1 == i)).map Prod.snd).getLast? with
  | none =>
    rw [hlast] at hv
    cases hv
    cases hs
  | some w =>
    rw [hlast] at hv
    obtain rfl : w = v := Option.some.inj hv
    obtain ⟨x, hx, rfl⟩ := List.mem_map.mp (List.mem_of_getLast? hlast)
    obtain ⟨j, hj⟩ := List.mem_iff_getElem?.mp (List.mem_filter.mp hx).1
    obtain ⟨g, hg, hread⟩ := exists_of_forall₂ (mapM_eq_ok_iff.mp hgroups).flip hj
    obtain ⟨v, hgroup, rfl⟩ := map_eq_ok_iff.mp hread
    exact ⟨g, List.mem_of_getElem? hg, hgroup⟩

/-- A fragment that has a group reads back, unless its name is a literal to the lexer. -/
theorem readsBack_of_declared (hf : .fragment f ∈ ds) {v : FragmentVariables}
    (hv : f.declared = some v) {group : String} (hs : v.source = some group)
    (hname : nameKind f.name.toList = .name) : ReadsBack f v group := by
  obtain ⟨behind, hplain, hprint⟩ := Fragment.exists_print_eq hv hs
  obtain ⟨g, hg, hread⟩ := exists_group_of_declared h hf hv hs
  obtain ⟨head, selections, -, -, rfl⟩ := groupRead_eq_ok_iff.mp hread
  obtain rfl : String.ofList (slice g.first g.last text.toList) = group := Option.some.inj hs
  have hreadable := readable_name_of_parse h hf
  rw [hname] at hreadable
  obtain ⟨g', rest, hgroups, hdefinition, hfragment, hfirst, hslice, hreads⟩ :=
    exists_group_behind hg (takes_heading hreadable) rfl rfl (" on " ++ behind).toList
  have htext : f.print.toList = "fragment ".toList ++ f.name.toList ++
      (slice g.first g.last text.toList ++ (" on " ++ behind).toList) := by
    rw [hprint]
    simp
  refine ⟨⟨behind, hplain, hprint⟩, ?_, g', rest, ?_⟩
  · have hreplaced := replaceFirst_append ("fragment " ++ f.name ++ " ").toList
      ("fragment " ++ f.name ++ String.ofList (slice g.first g.last text.toList) ++ " ").toList
      ("on " ++ behind).toList
    rw [hplain, hprint]
    simpa using hreplaced.symm
  · rw [htext]
    refine ⟨hgroups, hdefinition, ?_, ?_, ?_, (hreads _).mpr hread⟩
    · rw [hfragment, String.ofList_toList]
    · rw [hfirst, String.toList_append]
    · rw [hslice, String.toList_ofList]

end

/-- In an accepted text, a fragment that has a group is printed with it, and in the printed text the
group is found and read again, unless the name is a literal to the lexer. If there are no error
tokens, this holds of each group in the text and the fragment that it is written on. -/
theorem groups_read_back {text : String} {ds : List Definition}
    (h : parse ⟨true⟩ text = .ok ds) :
    (∀ f, .fragment f ∈ ds → ∀ v group, f.declared = some v → v.source = some group →
      f.name ∉ ["true", "false", "null"] → ReadsBack f v group) ∧
    ((∀ t ∈ tokens text.toList, t.kind.isError = false) →
      ∀ g ∈ VariableGroup.ofText text.toList, ∃ f v, ds[g.definition]? = some (.fragment f) ∧
        WrittenOn text.toList g f.name ∧ f.declared = some v ∧ g.read text.toList = .ok v ∧
        ReadsBack f v (String.ofList (slice g.first g.last text.toList))) := by
  refine ⟨fun f hf v group hv hs hname => ?_, fun hsound g hg => ?_⟩
  · exact readsBack_of_declared h hf hv hs (nameKind_eq_name_iff.mpr hname)
  · obtain ⟨f, v, hf, hon, hread, hv⟩ := exists_fragment_of_group h hsound hg
    refine ⟨f, v, hf, hon, hv, hread,
      readsBack_of_declared h (List.mem_of_getElem? hf) hv ?_ ?_⟩
    · obtain ⟨head, selections, -, -, rfl⟩ := groupRead_eq_ok_iff.mp hread
      rfl
    · cases hon with
      | name front hstands hwords hfragment =>
        rw [← hfragment]
        exact nameKind_of_mem_ofText hg
      | on front hstands hwords hname hfragment =>
        rw [hname]
        rfl

/-- A fragment that is itself named `fragment`. Its group holds another one with a bracket, in a
string, and a closing bracket in a comment. -/
theorem groups_read_back_comment : ∃ ds f v,
    parse ⟨true⟩ "fragment fragment ($a: S = \"fragment fragment (\" # )\n) on T \x7b y \x7d" =
      .ok ds ∧ ds[0]? = some (.fragment f) ∧ f.name = "fragment" ∧ f.declared = some v ∧
    ReadsBack f v "($a: S = \"fragment fragment (\" # )\n)" := by
  obtain ⟨ds, hds⟩ := @exists_parse_of_isSome ⟨true⟩
    "fragment fragment ($a: S = \"fragment fragment (\" # )\n) on T \x7b y \x7d"
    (by decide +kernel)
  have hgroup : ∃ g ∈ VariableGroup.ofText
      "fragment fragment ($a: S = \"fragment fragment (\" # )\n) on T \x7b y \x7d".toList,
      g.definition = 0 ∧ g.fragment = "fragment" ∧ String.ofList (slice g.first g.last
        "fragment fragment ($a: S = \"fragment fragment (\" # )\n) on T \x7b y \x7d".toList) =
          "($a: S = \"fragment fragment (\" # )\n)" := by decide +kernel
  obtain ⟨g, hg, hdefinition, hfragment, hslice⟩ := hgroup
  obtain ⟨hdeclared, hback⟩ := groups_read_back hds
  obtain ⟨f, v, hf, hon, hv, hread, -⟩ := hback (by decide +kernel) g hg
  obtain ⟨head, selections, -, -, rfl⟩ := groupRead_eq_ok_iff.mp hread
  have hname : f.name = "fragment" := by
    cases hon with
    | name front hstands hwords hgf => exact hgf.symm.trans hfragment
    | on front hstands hwords hname hgf => exact hname
  refine ⟨ds, f, _, hds, hdefinition ▸ hf, hname, hv, ?_⟩
  exact hdeclared f (List.mem_of_getElem? hf) _ _ hv (congrArg some hslice) (by rw [hname]; decide)

/-- Behind a string with a carriage return, which is cut there, a brace in it ends a definition too
many, and the group of the fragment is recorded for none. -/
theorem exists_dropped_group : ∃ f ∈ fragmentsOf ⟨true⟩
    "\x7b y(a: \"\r\x7d\x7d\" \r) \x7d fragment B($x: Int) on T \x7b z \x7d",
      f.name = "B" ∧ f.print = f.ast.print "" ∧ VariableGroup.ofText f.print.toList = [] ∧
      (VariableGroup.ofText
        "\x7b y(a: \"\r\x7d\x7d\" \r) \x7d fragment B($x: Int) on T \x7b z \x7d".toList).map
          (fun g => (g.definition, g.fragment, String.ofList (slice g.first g.last
            "\x7b y(a: \"\r\x7d\x7d\" \r) \x7d fragment B($x: Int) on T \x7b z \x7d".toList))) =
        [(2, "B", "($x: Int)")] := by decide +kernel

end QueryDoc
