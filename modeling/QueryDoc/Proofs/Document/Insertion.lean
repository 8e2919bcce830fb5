import QueryDoc.Proofs.Document.Belonging
import QueryDoc.Proofs.Document.Listing

/-!
# Groups that are put into a text

A fragment of an accepted text is given variables by a list of them, which is put in brackets behind
its name. The text with the group is accepted if the name is no literal to the lexer and the
brackets in the list are nested, and the definitions stay the same but for the variables of this
fragment (`parse_withGroup`).

The words of the text fall into those in front of the name, those of the fragment behind it and
those of the definitions that follow (`FragmentText`). The tokens of the text with the group are
theirs, with the group between them (`GroupTokens`), so that the group's frame is the only one, and
outside it are the words of the text as it was. In the other direction, a group that is not found in
full leaves something behind the name that the grammar does not read there
(`FragmentText.not_spells`).
-/
namespace QueryDoc

open QueryDoc.Lexis QueryDoc.Grammar

/-! ## Names -/

namespace Lexis

/-- To the grammar, of the tokens that are no faults only words are names. -/
theorem isWord_of_category {b : Bare} (he : b.1.isError = false) (heof : b.1 ≠ .eof)
    (h : category b = .name) : b.1.isWord = true := by
  obtain ⟨kind, text⟩ := b
  cases kind with
  | name | boolean value | null => rfl
  | error fault => cases he
  | eof => exact absurd rfl heof
  | punctuator p | int | float => cases h
  | string =>
    simp only [category] at h
    split at h <;> cases h

/-- A word that is a name to the grammar has the kind of a name. -/
theorem Word.Readable.kind_eq {w : Word} (h : w.Readable) (hw : w.kind.isError = false)
    (hname : category w.bare = .name) : w.kind = nameKind w.text := by
  obtain ⟨c, u, rest, -, -, hscan⟩ := h
  have hkind : (scan c (u ++ rest)).kind = w.kind := by rw [hscan]
  have heof : w.kind ≠ .eof := hkind ▸ (sound_scan c (u ++ rest)).kind_ne_eof
  have hword : (scan c (u ++ rest)).kind.isWord = true := hkind ▸ isWord_of_category hw heof hname
  rw [scan_name ((begins_scan c (u ++ rest)).word hword), scanName] at hscan
  obtain ⟨hk, ht, -⟩ := Scanned.mk.inj hscan
  rw [← hk, ← ht]

theorem nameKind_eq_name_iff {name : String} :
    nameKind name.toList = .name ↔ name ∉ ["true", "false", "null"] := by
  simp only [List.mem_cons, List.not_mem_nil, or_false, not_or, ← String.toList_inj]
  unfold nameKind
  split
  · simp_all
  split
  · simp_all
  split
  · simp_all
  · simp_all

/-- Behind a name, a text can go on with a bracket. -/
theorem exists_split_of_words {text : List Char} {ws vs : List Word} {name : Word}
    (h : words text = ws ++ name :: vs) (hname : name.kind = nameKind name.text) :
    ∃ u r, text = u ++ r ∧ words r = vs ∧ Takes (ws ++ [name]) text r ∧
      ∀ x, Takes (ws ++ [name]) (u ++ '(' :: x) ('(' :: x) := by
  rw [List.append_cons] at h
  obtain ⟨r, htakes, hr⟩ := exists_takes h
  obtain ⟨u, rfl⟩ := htakes.exists_append
  refine ⟨u, r, rfl, hr, htakes, fun x => htakes.replace rfl (by simp) fun w hw => ?_⟩
  obtain rfl : name = w := by simpa using hw
  obtain hk | hk | hk | hk := nameKind_cases name.text <;> rw [hname, hk] <;>
    exact ⟨.inl ⟨rfl, rfl, by simp⟩, by simp [Kind.isNumber]⟩

end Lexis

/-! ## Texts that are put into another -/

/-- The text with another one put in at an offset. -/
def insertAt (offset : Nat) (s text : List Char) : List Char :=
  slice 0 offset text ++ s ++ slice offset (byteLength text) text

theorem insertAt_append (u s r : List Char) :
    insertAt (byteLength u) s (u ++ r) = u ++ s ++ r := by
  have hfirst := slice_append [] u r
  have hlast := slice_append u r []
  rw [List.append_nil] at hlast
  simp only [byteLength, List.nil_append] at hfirst
  rw [insertAt, hfirst, hlast]

/-! ## The name of a fragment in a text -/

theorem flatten_of_getElem? {α : Type} {parts : List (List α)} {i : Nat} {part : List α}
    (h : parts[i]? = some part) :
    parts.flatten = (parts.take i).flatten ++ (part ++ (parts.drop (i + 1)).flatten) := by
  obtain ⟨hi, rfl⟩ := List.getElem?_eq_some_iff.mp h
  rw [← List.flatten_cons, ← List.drop_eq_getElem_cons hi, ← List.flatten_append,
    List.take_append_drop]

/-- The words of a text around the name of the fragment that is the definition with the given
number, and the text in front of the end of the name and behind it. -/
structure FragmentText (text : List Char) (i : Nat) (d : Ast.Fragment) (ws : List Word)
    (w n : Word) (us vs : List Word) (front back : List Char) : Prop where
  split : text = front ++ back
  words : Lexis.words text = ws ++ w :: n :: (us ++ vs)
  before : ws.map Word.bare = ((chunks (bares text)).take i).flatten
  part : (chunks (bares text))[i]? = some ((w :: n :: us).map Word.bare)
  means : Means (bares text).length ((w :: n :: us).map Word.bare) (.fragment d)
  behind : vs.map Word.bare = ((chunks (bares text)).drop (i + 1)).flatten
  word : w.bare = (.name, "fragment".toList)
  name : n.text = d.name.toList
  kind : n.kind = nameKind n.text
  rest : Lexis.words back = us ++ vs
  takes : Takes (ws ++ [w, n]) text back
  replace : ∀ x, Takes (ws ++ [w, n]) (front ++ '(' :: x) ('(' :: x)

theorem exists_fragmentText {text : List Char} (hf : Faultless (words text))
    {shapes : List Ast.Definition} (h : Spells (bares text) shapes) {i : Nat} {d : Ast.Fragment}
    (hi : shapes[i]? = some (.fragment d)) :
    ∃ ws w n us vs front back, FragmentText text i d ws w n us vs front back := by
  obtain ⟨part, hpart, hmeans⟩ := exists_of_forall₂ h.means.flip hi
  obtain ⟨tail, block, hfaces, -⟩ := outline_of_means hmeans
  obtain ⟨wordBare, _, rfl, hword, hfaces⟩ := List.map_eq_cons_iff.mp hfaces
  obtain ⟨nameBare, moreBares, rfl, hname, -⟩ := List.map_eq_cons_iff.mp hfaces
  have hwords := flatten_of_getElem? hpart
  rw [chunks, flatten_cut] at hwords
  obtain ⟨ws, _, hsplit, hws, htail⟩ := List.map_eq_append_iff.mp hwords
  obtain ⟨w, _, rfl, rfl, hbehindWord⟩ := List.map_eq_cons_iff.mp htail
  obtain ⟨n, _, rfl, rfl, hbehindName⟩ := List.map_eq_cons_iff.mp hbehindWord
  obtain ⟨us, vs, rfl, rfl, hvs⟩ := List.map_eq_append_iff.mp hbehindName
  have kind_eq {v : Word} (hv : v ∈ words text) (hname : category v.bare = .name) :
      v.kind = nameKind v.text := ((readable_words text).1 v hv).kind_eq (hf v hv) hname
  have hkind : n.kind = nameKind n.text :=
    kind_eq (by rw [hsplit]; simp) (congrArg Prod.fst hname)
  have hwordText : w.text = "fragment".toList := congrArg Prod.snd hword
  have hwordKind : w.kind = .name := by
    rw [kind_eq (by rw [hsplit]; simp) (congrArg Prod.fst hword), hwordText]
    rfl
  obtain ⟨front, back, hfront, hback, htakes, hreplace⟩ :=
    exists_split_of_words (hsplit.trans (List.append_cons ws w _)) hkind
  rw [List.append_assoc] at htakes
  exact ⟨ws, w, n, us, vs, front, back, hfront, hsplit, hws, hpart, hmeans, hvs,
    Prod.ext hwordKind hwordText, congrArg Prod.snd hname, hkind, hback, htakes,
    fun x => by simpa using hreplace x⟩

theorem map_bare_cutDefinitions (text : List Char) :
    (cutDefinitions 0 (significant text)).map (List.map Token.bare) = chunks (bares text) := by
  rw [cutDefinitions_eq_cut, ← map_bare_significant, chunks, cut_map]
  rfl

namespace FragmentText

variable {text : List Char} {i : Nat} {d : Ast.Fragment} {ws us vs : List Word} {w n : Word}
  {front back : List Char} (h : FragmentText text i d ws w n us vs front back)

include h

/-- The token of the name, which ends where the text is split. -/
theorem exists_name : ∃ word name rest,
    (cutDefinitions 0 (significant text))[i]? = some (word :: name :: rest) ∧
      word.bare = (.name, "fragment".toList) ∧ name.text = d.name.toList ∧
        name.span.last.offset = byteLength front := by
  have hparts := map_bare_cutDefinitions text
  have hpart := h.part
  rw [← hparts, List.getElem?_map] at hpart
  obtain ⟨part, hpart, hbares⟩ := Option.map_eq_some_iff.mp hpart
  obtain ⟨word, _, rfl, hword, hbehind⟩ := List.map_eq_cons_iff.mp hbares
  obtain ⟨name, rest, rfl, hname, -⟩ := List.map_eq_cons_iff.mp hbehind
  refine ⟨word, name, rest, hpart, hword.trans h.word, ?_, ?_⟩
  · exact (congrArg Prod.snd hname).trans h.name
  -- the tokens up to the name are those of the parts in front, and those of the words in front
  have hflat := flatten_of_getElem? hpart
  rw [cutDefinitions_eq_cut, flatten_cut, ← cutDefinitions_eq_cut] at hflat
  obtain ⟨last, -, htokens, -⟩ := exists_tokens_eq text
  obtain ⟨u, ts, more, hu, hts, htaken, hlast⟩ := h.takes.exists_tokens .start []
  obtain rfl : front = u := List.append_cancel_right (h.split.symm.trans hu)
  have hfront : ((cutDefinitions 0 (significant text)).take i).flatten.map Token.bare =
      ws.map Word.bare := by
    rw [List.map_flatten, List.map_take, hparts, h.before]
  have hlength : (((cutDefinitions 0 (significant text)).take i).flatten ++ [word, name]).length =
      ts.length := by
    have h₁ := congrArg List.length hfront
    have h₂ := congrArg List.length hts
    simp only [List.length_map, List.length_append] at h₁ h₂ ⊢
    rw [h₁, h₂]
    rfl
  have hsplit : ((cutDefinitions 0 (significant text)).take i).flatten ++ [word, name] ++
      (rest ++ ((cutDefinitions 0 (significant text)).drop (i + 1)).flatten ++ [last]) =
        ts ++ tokensFrom (Cursor.start.past front) more back := by
    rw [← htaken, ← tokens, htokens]
    conv_rhs => rw [hflat]
    simp
  obtain ⟨rfl, -⟩ := List.append_inj hsplit hlength
  have hname := hlast name (by simp)
  rw [hname, Cursor.offset_past]
  exact Nat.zero_add _

theorem category_name : category n.bare = .name := by
  obtain hk | hk | hk | hk := nameKind_cases n.text <;> rw [Word.bare, h.kind, hk] <;> rfl

theorem lt_length : i < (chunks (bares text)).length := (List.getElem?_eq_some_iff.mp h.part).1

/-- Behind the name of a fragment, nothing but a name can stand. -/
theorem not_spells {x : Bare} (hx : category x ≠ .name) (zs : List Bare)
    (shapes : List Ast.Definition) :
    ¬ Spells (ws.map Word.bare ++ w.bare :: n.bare :: x :: zs) shapes := by
  intro hs
  have hname := h.category_name
  have hword : category w.bare = .name := by rw [h.word]; rfl
  have plain {v : Bare} (hv : category v = .name) : v.1.punctuator? = none := by
    rw [← punctuator?_category, hv]
    rfl
  have hcons {v : Bare} (hv : category v = .name) (bs : List Bare) :
      chunks (v :: bs) = Text.consFirst v (chunks bs) :=
    cut_cons_of_none (p := fun b : Bare => b.1.punctuator?) (plain hv) 0 bs
  obtain ⟨part, rest, hcut⟩ : ∃ part rest, chunks (x :: zs) = (x :: part) :: rest :=
    exists_cut_cons 0 x zs
  have hchunks : chunks (ws.map Word.bare ++ w.bare :: n.bare :: x :: zs) =
      (chunks (bares text)).take i ++ (w.bare :: n.bare :: x :: part) :: rest := by
    rw [h.before, chunks_take_append h.lt_length, hcons hword, hcons hname, hcut]
    rfl
  have hlength : ((chunks (bares text)).take i).length = i :=
    List.length_take_of_le h.lt_length.le
  have hmeans := hs.means
  rw [hchunks] at hmeans
  obtain ⟨shape, -, hshape⟩ := exists_of_forall₂ hmeans (i := i)
    (a := w.bare :: n.bare :: x :: part)
    (by rw [List.getElem?_append_right hlength.le, hlength, Nat.sub_self]; rfl)
  have hturn {v : Bare} (hv : category v = .name) : turn (sign id) v = 0 := by
    rw [turn, sign, id_eq, plain hv]
    rfl
  have hground : ground (sign id) 0 (w.bare :: n.bare :: x :: part) =
      [] ++ w.bare :: n.bare :: (x :: ground (sign id) (0 + turn (sign id) x) part) := by
    rw [ground_cons (hturn hword), ground_cons (hturn hname), ground, if_pos rfl, List.nil_append]
  obtain ⟨_, _, _, -, hx', hcategory, -⟩ := fragment_name_of_means
    (by rw [List.map_id]; exact hshape) hground h.word hname
  obtain ⟨rfl, -⟩ := List.cons.inj hx'
  exact hx hcategory

/-- The words of a text that goes on behind the name with a bracket. -/
theorem words_replace (x : List Char) : Lexis.words (front ++ '(' :: x) =
    ws ++ w :: n :: ⟨.punctuator .parenOpen, ['('], false⟩ :: Lexis.words x := by
  rw [(h.replace x).words_eq, words_of_ofChar? (c := '(') rfl]
  simp

/-- The words in front of the fragment are single words. -/
theorem items_before {shapes : List Ast.Definition} (hs : Spells (bares text) shapes) {α : Type}
    (b : α → Bare) {as : List α} (has : as.map b = ws.map Word.bare) (rest : List α) :
    items b 0 (as ++ rest) = as.map .plain ++ items b 0 rest :=
  items_of_parts b (List.forall₂_take i hs.means) (has.trans h.before) rest

/-- Unless the name is none of the literals and the brackets in a list of variables are nested,
something that is no name is kept behind the name when the list is put there in brackets. -/
theorem exists_kept {g : List Char} {declared : List Ast.VariableDefinition}
    (hlists : ListsVariables g declared) (hg : Faultless (Lexis.words g))
    (hnot : ¬ (n.kind = .name ∧ Nested (sign Word.bare) (Lexis.words g))) :
    ∃ x zs, category x.bare ≠ .name ∧ kepts (items Word.bare 0 (w :: n ::
      ⟨.punctuator .parenOpen, ['('], false⟩ :: Lexis.words (g ++ ')' :: back))) =
        w :: n :: x :: zs := by
  by_cases hname : n.kind = .name
  · obtain ⟨gap₁, gap₂, hgap⟩ := exists_gap hg
    obtain ⟨inner, c, x, more, hwords, hc, hinner, hx⟩ :=
      hlists.exists_behind hg hgap (fun hnested => hnot ⟨hname, hnested⟩) back
    -- the brackets are closed too early, and the grammar goes on with what stands there
    let f : Frame Word := ⟨w, n, ⟨.punctuator .parenOpen, ['('], false⟩, inner, c⟩
    have hframe : f.IsFrame Word.bare := ⟨h.word, hname, rfl, hinner.closing?_eq hc⟩
    have hsource : w :: n :: ⟨.punctuator .parenOpen, ['('], false⟩ :: (inner ++ c :: x :: more) =
        f.source ++ x :: more := by simp [f, Frame.source]
    have hnone : frame? Word.bare (x :: more) = none :=
      frame?_eq_none Word.bare fun hword => absurd (by rw [hword]; rfl) hx
    refine ⟨x, kepts (items Word.bare (Lexis.behind Word.bare 0 x) more), hx, ?_⟩
    rw [hwords, hsource, items_of_frame? Word.bare (hframe.frame?_append _),
      items_cons Word.bare fun _ => hnone]
    rfl
  · -- the literal is no name, so that there is no group
    have hword : turn (sign Word.bare) w = 0 := by rw [turn_sign, h.word]; rfl
    have hturn : turn (sign Word.bare) n = 0 := by
      rw [turn, sign, ← punctuator?_category, h.category_name]
      rfl
    have hhead : ∀ c ∈ (n :: ⟨.punctuator .parenOpen, ['('], false⟩ ::
        Lexis.words (g ++ ')' :: back)).head?, c.bare.1 ≠ .name := by
      rintro c ⟨⟩
      exact hname
    refine ⟨⟨.punctuator .parenOpen, ['('], false⟩, kepts (items Word.bare 1
      (Lexis.words (g ++ ')' :: back))), by decide, ?_⟩
    rw [items_cons Word.bare fun _ => frame?_eq_none Word.bare fun _ => hhead,
      behind_zero Word.bare hword,
      items_cons Word.bare fun _ => frame?_eq_none Word.bare fun hn =>
        absurd (congrArg Prod.fst hn) hname,
      behind_zero Word.bare hturn,
      items_cons Word.bare fun _ => frame?_eq_none Word.bare fun ho => by cases ho]
    rfl

/-- If a text that goes on with a list of variables in brackets is accepted, the name is none of
the literals, and the brackets in the list are nested. -/
theorem nested_of_parse {shapes : List Ast.Definition} (hs : Spells (bares text) shapes)
    {g : List Char} {declared : List Ast.VariableDefinition} (hlists : ListsVariables g declared)
    (hg : Faultless (Lexis.words g))
    (hnew : Faultless (Lexis.words (front ++ '(' :: (g ++ ')' :: back))))
    {es : List Definition}
    (hes : parse ⟨true⟩ (String.ofList (front ++ '(' :: (g ++ ')' :: back))) = .ok es) :
    n.kind = .name ∧ Nested (sign Word.bare) (Lexis.words g) := by
  by_contra hnot
  obtain ⟨x, zs, hx, hkept⟩ := h.exists_kept hlists hg hnot
  obtain ⟨groups, asts, -, hread, -⟩ := parse_eq_ok_iff.mp hes
  rw [String.toList_ofList] at hread
  obtain ⟨-, hspells⟩ := spells_of_read hnew hread
  rw [bares, grammarText, if_pos rfl, words_blankGroups, h.words_replace,
    h.items_before hs Word.bare rfl, kepts_append, kepts_map_plain, hkept,
    List.map_append] at hspells
  exact h.not_spells hx _ _ hspells

end FragmentText

/-! ## The group that is put in -/

/-- The tokens of a text with a group behind a name, in front of which are the words `ws`. -/
structure GroupTokens (text : List Char) (ws : List Word) (w n : Word) (rest : List Word)
    (front g : List Char) (before : List Token) (f : Frame Token) (after : List Token) : Prop where
  tokens : significant text = before ++ (f.source ++ after)
  before : before.map Token.bare = ws.map Word.bare
  word : f.word.bare = w.bare
  name : f.name.bare = n.bare
  openingKind : f.opening.kind = .punctuator .parenOpen
  opening : f.opening.span = spanBehind front ['(']
  inner : f.inner.map Token.bare = bares g
  closingKind : f.closing.kind = .punctuator .parenClose
  closing : f.closing.span = spanBehind (front ++ '(' :: g) [')']
  after : after.map Token.bare = rest.map Word.bare

theorem FragmentText.exists_groupTokens {text : List Char} {i : Nat} {d : Ast.Fragment}
    {ws us vs : List Word} {w n : Word} {front back : List Char}
    (h : FragmentText text i d ws w n us vs front back) {g gap₁ gap₂ : List Char}
    (hgap : Gap g gap₁ gap₂) (hi : Ignorable gap₂) : ∃ before f after, GroupTokens
      (front ++ '(' :: (g ++ ')' :: back)) ws w n (us ++ vs) front g before f after := by
  obtain ⟨u, ts, more, hu, hts, htokens, -⟩ :=
    (h.replace (g ++ ')' :: back)).exists_tokens .start []
  obtain rfl : front = u := List.append_cancel_right hu
  obtain ⟨before, _, rfl, hbefore, hnames⟩ := List.map_eq_append_iff.mp (hts.trans List.map_append)
  obtain ⟨word, _, rfl, hword, hlast⟩ := List.map_eq_cons_iff.mp hnames
  obtain ⟨name, rfl, hname⟩ := List.map_eq_singleton_iff.mp hlast
  -- the opening bracket, the tokens of the list, the closing bracket, and those behind it
  have hnone : Ignorable [] := fun _ => rfl
  obtain ⟨opening, hopeningKind, -, hopening, hrest⟩ := (splits_punctuator (c := '(') rfl
    hnone (g ++ ')' :: back)).exists_token (Cursor.start.past front) more
  simp only [List.nil_append] at hopening hrest
  obtain ⟨u, inner, more', hu, hinner, htaken, -⟩ := (hgap.takes ')' rfl back).exists_tokens
    ((Cursor.start.past front).past ['(']) []
  obtain rfl : gap₁ = u := List.append_cancel_right hu
  obtain ⟨closing, hclosingKind, -, hclosing, hback⟩ := (splits_punctuator (c := ')') rfl
    hi back).exists_token (((Cursor.start.past front).past ['(']).past gap₁) more'
  obtain ⟨last, -, hback', -⟩ := exists_tokensFrom_eq_filter
    ((((Cursor.start.past front).past ['(']).past gap₁).past (gap₂ ++ [')'])) [] back
  have hbares := map_bare_tokensFrom
    ((((Cursor.start.past front).past ['(']).past gap₁).past (gap₂ ++ [')'])) back
  generalize List.filter _ _ = after at hback' hbares
  rw [← List.append_assoc, ← hgap.text] at htaken
  refine ⟨before, ⟨word, name, opening, inner, closing⟩, after, ?_, hbefore, hword, hname,
    hopeningKind, ?_, hinner, hclosingKind, ?_, ?_⟩
  · obtain ⟨last', -, hall, -⟩ := exists_tokens_eq (front ++ '(' :: (g ++ ')' :: back))
    rw [tokens, htokens, hrest, htaken, hback, hback'] at hall
    have hwhole : before ++
        ((⟨word, name, opening, inner, closing⟩ : Frame Token).source ++ after) ++ [last] =
          significant (front ++ '(' :: (g ++ ')' :: back)) ++ [last'] := by
      rw [← hall]
      simp [Frame.source]
    exact (List.append_inj' hwhole rfl).1.symm
  · simpa [spanBehind] using hopening
  · simpa [spanBehind, hgap.text] using hclosing
  · rw [hbares, bares, h.rest]

namespace GroupTokens

variable {text g front back : List Char} {ws us vs : List Word} {w n : Word} {i : Nat}
  {d : Ast.Fragment} {before after : List Token} {f : Frame Token}
  (h : GroupTokens (front ++ '(' :: (g ++ ')' :: back)) ws w n (us ++ vs) front g before f after)

include h

/-- The group is read as the list of variables that it holds. -/
theorem read_eq {declared : List Ast.VariableDefinition} (hlists : ListsVariables g declared) :
    (VariableGroup.ofFrame i f).read (front ++ '(' :: (g ++ ')' :: back)) =
      .ok ⟨declared, some (String.ofList ('(' :: (g ++ [')'])))⟩ := by
  obtain ⟨head, selections, hread, htype, rfl⟩ := hlists
  have hinner : slice (VariableGroup.ofFrame i f).opening.span.last.offset
      (VariableGroup.ofFrame i f).closing.span.first.offset (front ++ '(' :: (g ++ ')' :: back)) =
        g := by
    have hslice := slice_append (front ++ ['(']) g (')' :: back)
    simpa [VariableGroup.ofFrame, h.opening, h.closing] using hslice
  have hgroup : slice (VariableGroup.ofFrame i f).first (VariableGroup.ofFrame i f).last
      (front ++ '(' :: (g ++ ')' :: back)) = '(' :: (g ++ [')']) := by
    have hslice := slice_append front ('(' :: (g ++ [')'])) back
    simpa [VariableGroup.ofFrame, VariableGroup.first, VariableGroup.last, h.opening, h.closing,
      byteLength, Nat.add_assoc] using hslice
  refine groupRead_eq_ok_iff.mpr ⟨head, selections, ?_, htype, ?_⟩
  · rw [hinner]
    exact hread
  · rw [hgroup]

end GroupTokens

theorem FragmentText.words_group {text : List Char} {i : Nat} {d : Ast.Fragment}
    {ws us vs : List Word} {w n : Word} {front back : List Char}
    (h : FragmentText text i d ws w n us vs front back) {g gap₁ gap₂ : List Char}
    (hgap : Gap g gap₁ gap₂) (hi : Ignorable gap₂) :
    Lexis.words (front ++ '(' :: (g ++ ')' :: back)) =
      ws ++ w :: n :: ⟨.punctuator .parenOpen, ['('], false⟩ ::
        (Lexis.words g ++ ⟨.punctuator .parenClose, [')'], false⟩ :: (us ++ vs)) := by
  rw [h.words_replace, hgap.words_append rfl, words_append_of_ignorable hi,
    words_of_ofChar? (c := ')') rfl, h.rest]

section

variable {text g front back : List Char} {ws us vs : List Word} {w n : Word} {i : Nat}
  {d : Ast.Fragment} {shapes : List Ast.Definition} {declared : List Ast.VariableDefinition}
  (h : FragmentText text i d ws w n us vs front back) (hs : Spells (bares text) shapes)
  (hnested : Nested (sign Word.bare) (Lexis.words g)) (hname : n.kind = .name)

include h hs hnested hname

/-- The items of the tokens of a text with a group: the group's frame is the only one. -/
theorem GroupTokens.items_eq {before after : List Token} {f : Frame Token}
    (ht : GroupTokens (front ++ '(' :: (g ++ ')' :: back)) ws w n (us ++ vs) front g
      before f after) :
    items Token.bare 0 (significant (front ++ '(' :: (g ++ ')' :: back))) =
      before.map .plain ++ .frame f :: after.map .plain := by
  have hclosing : turn (sign Token.bare) f.closing = -1 := by
    rw [turn_sign, show f.closing.bare.1 = _ from ht.closingKind]
    rfl
  have hinner : Nested (sign Token.bare) f.inner := (nested_congr ht.inner).mpr hnested
  have hframe : f.IsFrame Token.bare :=
    ⟨ht.word.trans h.word, (congrArg Prod.fst ht.name).trans hname, ht.openingKind,
      hinner.closing?_eq hclosing⟩
  obtain ⟨more, later, hafter, hmore, hlater⟩ :=
    List.map_eq_append_iff.mp (ht.after.trans List.map_append)
  have hpart : Means (bares text).length ((f.word :: f.name :: more).map Token.bare)
      (.fragment d) := by
    rw [List.map_cons, List.map_cons, ht.word, ht.name, hmore]
    exact h.means
  rw [ht.tokens, hafter]
  exact items_of_frame Token.bare hframe (List.forall₂_take i hs.means) (ht.before.trans h.before)
    hpart (List.forall₂_drop (i + 1) hs.means) (hlater.trans h.behind)

/-- The only group is the one that is put in, it has the number of its fragment, and the words
outside it are those of the text without it. -/
theorem GroupTokens.groups_eq {before after : List Token} {f : Frame Token}
    (ht : GroupTokens (front ++ '(' :: (g ++ ')' :: back)) ws w n (us ++ vs) front g
      before f after) :
    VariableGroup.ofText (front ++ '(' :: (g ++ ')' :: back)) = [.ofFrame i f] ∧
      (ungrouped (front ++ '(' :: (g ++ ')' :: back))).map Token.bare = bares text := by
  have hitems := ht.items_eq h hs hnested hname
  constructor
  · have hframes : frameTokens (front ++ '(' :: (g ++ ')' :: back)) = [(i, f)] := by
      rw [frameTokens, hitems]
      exact numbered_of_frame Token.bare h.lt_length (ht.before.trans h.before)
        (frames_map_plain after)
    rw [ofText_eq]
    exact congrArg (List.map _) hframes
  · have hkepts : kepts (Item.frame f :: after.map .plain) = f.word :: f.name :: after :=
      congrArg ([f.word, f.name] ++ ·) (kepts_map_plain after)
    rw [ungrouped_eq, hitems, kepts_append, kepts_map_plain, hkepts, List.map_append,
      List.map_cons, List.map_cons, ht.before, ht.word, ht.name, ht.after, bares, h.words]
    simp

/-- The text with the list of variables in brackets behind the name is accepted. -/
theorem FragmentText.exists_parse (hf : Faultless (Lexis.words text))
    (hu : Unglued (Lexis.words text)) (hlists : ListsVariables g declared)
    (hg : Faultless (Lexis.words g)) :
    ∃ asts, asts.map Ast.Definition.shape = shapes ∧
      parse ⟨true⟩ (String.ofList (front ++ '(' :: (g ++ ')' :: back))) =
        .ok (assemble ⟨true⟩ asts
          [(i, ⟨declared, some (String.ofList ('(' :: (g ++ [')'])))⟩)]
          (bodies (String.ofList (front ++ '(' :: (g ++ ')' :: back))) asts)) := by
  obtain ⟨gap₁, gap₂, hgap⟩ := exists_gap hg
  obtain ⟨hi, hgu⟩ := hlists.ignorable hg hgap hnested
  obtain ⟨before, f, after, ht⟩ := h.exists_groupTokens hgap hi
  obtain ⟨hofText, hungrouped⟩ := ht.groups_eq h hs hnested hname
  -- no new word is faulty or glued, and the grammar is left with the words of the text
  have hall {p : Word → Prop} (hp : ∀ w ∈ Lexis.words text, p w) (hpg : ∀ w ∈ Lexis.words g, p w)
      (hopen : p ⟨.punctuator .parenOpen, ['('], false⟩)
      (hclose : p ⟨.punctuator .parenClose, [')'], false⟩) :
      ∀ w ∈ Lexis.words (grammarText ⟨true⟩ (front ++ '(' :: (g ++ ')' :: back))), p w := by
    intro v hv
    have hv := words_grammarText_subset ⟨true⟩ _ hv
    rw [h.words_group hgap hi] at hv
    rw [h.words] at hp
    simp only [List.mem_append, List.mem_cons] at hv hp
    rcases hv with hv | rfl | rfl | rfl | hv | rfl | hv
    · exact hp v (.inl hv)
    · exact hp _ (by simp)
    · exact hp _ (by simp)
    · exact hopen
    · exact hpg v hv
    · exact hclose
    · exact hp v (by simp [hv])
  have hfaultless : Faultless
      (Lexis.words (grammarText ⟨true⟩ (front ++ '(' :: (g ++ ')' :: back)))) :=
    hall (p := fun w => w.kind.isError = false) hf hg rfl rfl
  have hspells :
      Spells (bares (grammarText ⟨true⟩ (front ++ '(' :: (g ++ ')' :: back)))) shapes := by
    rw [bares_grammarText_eq, hungrouped]
    exact hs
  obtain ⟨asts, hread, hshapes⟩ :=
    (exists_read_iff_spells hfaultless).mpr
      ⟨hall (p := fun w => w.glued = false) hu hgu rfl rfl, hspells⟩
  refine ⟨asts, hshapes, parse_eq_ok_iff.mpr ⟨_, asts, ?_, ?_, rfl⟩⟩
  · rw [String.toList_ofList, groupsOf, if_pos rfl, hofText, mapM_eq_ok_iff]
    refine .cons ?_ .nil
    rw [ht.read_eq hlists]
    rfl
  · rw [String.toList_ofList]
    exact hread

end

/-! ## Texts with a group -/

/-- The second token of the definition with the given number, which is the name of a fragment. -/
def nameToken? (text : List Char) (i : Nat) : Option Token :=
  (cutDefinitions 0 (significant text))[i]?.bind fun part => part[1]?

/-- The text with the list in brackets behind the name of the definition with the given number. -/
def withGroup (text : String) (i : Nat) (list : List Char) : String :=
  (nameToken? text.toList i).elim text fun name =>
    String.ofList (insertAt name.span.last.offset ('(' :: (list ++ [')'])) text.toList)

/-- The list can be put behind the name: this is none of the literals, and the brackets in the list
are nested. -/
structure Insertable (name : String) (list : List Char) : Prop where
  name : name ∉ ["true", "false", "null"]
  nested : Nested (sign Token.bare) (significant list)

namespace FragmentText

variable {text : String} {i : Nat} {d : Ast.Fragment} {ws us vs : List Word} {w n : Word}
  {front back : List Char} (h : FragmentText text.toList i d ws w n us vs front back)

include h

theorem nameToken?_eq : ∃ name, nameToken? text.toList i = some name ∧ name.text = d.name.toList ∧
    ∀ list, withGroup text i list = String.ofList (front ++ '(' :: (list ++ ')' :: back)) := by
  obtain ⟨word, name, rest, hpart, -, hname, hoffset⟩ := h.exists_name
  have htoken : nameToken? text.toList i = some name := by rw [nameToken?, hpart]; rfl
  refine ⟨name, htoken, hname, fun list => ?_⟩
  rw [withGroup, htoken, Option.elim_some, hoffset, h.split, insertAt_append]
  simp

theorem insertable_iff (list : List Char) : Insertable d.name list ↔
    n.kind = .name ∧ Nested (sign Word.bare) (Lexis.words list) := by
  rw [h.kind, h.name, nameKind_eq_name_iff, ← nested_congr (map_bare_significant list)]
  exact ⟨fun h => ⟨h.name, h.nested⟩, fun h => ⟨h.1, h.2⟩⟩

end FragmentText

/-- In a text without error tokens that is accepted without groups, every fragment can declare
variables: a list of them in brackets behind its name is accepted, if the name is none of the
literals and the brackets in the list are nested. The definitions are the same up to positions, the
fragment declares the variables of the list, and all other fragments declare none. Unless there are
error tokens, the list is accepted in no other case. -/
theorem parse_withGroup {text : String} (hsound : ∀ t ∈ tokens text.toList, t.kind.isError = false)
    {ds : List Definition} (h : parse ⟨false⟩ text = .ok ds) {i : Nat} {f : Fragment}
    (hi : ds[i]? = some (.fragment f)) :
    (∃ name, nameToken? text.toList i = some name ∧ name.text = f.name.toList) ∧
    ∀ list declared, ListsVariables list declared →
      (∀ t ∈ tokens list, t.kind.isError = false) →
      (Insertable f.name list → ∃ es, parse ⟨true⟩ (withGroup text i list) = .ok es ∧
        es.map (fun e => e.ast.shape) = ds.map (fun d => d.ast.shape) ∧
        ∀ j e, es[j]? = some (.fragment e) → e.declared =
          some (if j = i then ⟨declared, some (String.ofList ('(' :: (list ++ [')'])))⟩
            else ⟨[], none⟩)) ∧
      ((∀ t ∈ tokens (withGroup text i list).toList, t.kind.isError = false) →
        ∀ es, parse ⟨true⟩ (withGroup text i list) = .ok es → Insertable f.name list) := by
  have hfaultless := faultless_of_sound hsound
  obtain ⟨groups, asts, hgroups, hread, rfl⟩ := parse_eq_ok_iff.mp h
  cases hgroups
  obtain ⟨hu, hs⟩ := (exists_read_iff_spells hfaultless).mp ⟨asts, hread, rfl⟩
  have hshape : (asts.map Ast.Definition.shape)[i]? = some (.fragment f.ast.shape) := by
    rw [← map_shape_ast_assemble ⟨false⟩ text asts [], List.getElem?_map, hi]
    rfl
  obtain ⟨ws, w, n, us, vs, front, back, ht⟩ := exists_fragmentText hfaultless hs hshape
  obtain ⟨name, hname, htext, hwith⟩ := ht.nameToken?_eq
  refine ⟨⟨name, hname, htext⟩, fun list declared hlists hlist => ⟨fun hinsert => ?_, ?_⟩⟩
  · obtain ⟨hkind, hnested⟩ := (ht.insertable_iff list).mp hinsert
    obtain ⟨asts', hshapes, hparse⟩ := ht.exists_parse hs hnested hkind hfaultless hu hlists
      (faultless_of_sound hlist)
    refine ⟨_, hwith list ▸ hparse, ?_, fun j e he => ?_⟩
    · rw [map_shape_ast_assemble, map_shape_ast_assemble, hshapes]
    · rw [declared_of_getElem? he]
      by_cases hj : j = i
      · subst hj
        simp
      · simp [hj, Ne.symm hj]
  · rw [hwith list, String.toList_ofList]
    intro hnew es hes
    exact (ht.insertable_iff list).mpr (ht.nested_of_parse hs hlists (faultless_of_sound hlist)
      (faultless_of_sound hnew) hes)

/-- The fragment that is the definition of a text with the given number. -/
def fragmentAt? (o : ParseOptions) (text : String) (i : Nat) : Option Fragment :=
  (parse o text).toOption.bind fun ds => ds[i]?.bind fun
    | .operation _ => none
    | .fragment f => some f

theorem exists_of_fragmentAt? {o : ParseOptions} {text : String} {i : Nat} {f : Fragment}
    (h : fragmentAt? o text i = some f) :
    ∃ ds, parse o text = .ok ds ∧ ds[i]? = some (.fragment f) := by
  obtain ⟨ds, hds, hi⟩ := Option.bind_eq_some_iff.mp h
  obtain ⟨d, hd, hf⟩ := Option.bind_eq_some_iff.mp hi
  cases d with
  | operation o => cases hf
  | fragment g =>
    cases hf
    cases hparse : parse o text with
    | error e => rw [hparse] at hds; cases hds
    | ok es =>
      rw [hparse] at hds
      cases hds
      exact ⟨ds, rfl, hd⟩

/-- The second of two fragments is given a variable with a list as its default value. -/
theorem parse_withGroup_second : ∃ es e v,
    parse ⟨true⟩ "fragment A on T \x7b y \x7d fragment B($x: [Int] = [1]) on T \x7b z \x7d" =
        .ok es ∧
      es[1]? = some (.fragment e) ∧ e.declared = some ⟨v, some "($x: [Int] = [1])"⟩ ∧
      v.map (·.name) = ["x"] := by
  have htext : withGroup "fragment A on T \x7b y \x7d fragment B on T \x7b z \x7d" 1
      "$x: [Int] = [1]".toList =
        "fragment A on T \x7b y \x7d fragment B($x: [Int] = [1]) on T \x7b z \x7d" := by
    decide +kernel
  have hfragment : (fragmentAt? ⟨false⟩ "fragment A on T \x7b y \x7d fragment B on T \x7b z \x7d"
      1).map Fragment.name = some "B" := by decide +kernel
  have hlisted : (listed? "$x: [Int] = [1]".toList).map (fun v => v.map (·.name)) = some ["x"] := by
    decide +kernel
  have hkinds : (significant "$x: [Int] = [1]".toList).map (sign Token.bare) =
      [some .dollar, none, some .colon, some .squareOpen, none, some .squareClose, some .equals,
        some .squareOpen, none, some .squareClose] := by decide +kernel
  obtain ⟨f, hf, hname⟩ := Option.map_eq_some_iff.mp hfragment
  obtain ⟨v, hv, hnames⟩ := Option.map_eq_some_iff.mp hlisted
  obtain ⟨ds, hds, hi⟩ := exists_of_fragmentAt? hf
  have hsquare : Partners id (some .squareOpen) (some .squareClose) := ⟨_, _, rfl, rfl, rfl⟩
  have hlist {as : List (Option Punctuator)} (h : Nested id as) :
      Nested id (some .squareOpen :: none :: some .squareClose :: as) :=
    .bracket hsquare (.word rfl .nil) h
  have hnested : Nested (sign Token.bare) (significant "$x: [Int] = [1]".toList) := by
    rw [← Function.id_comp (sign Token.bare), ← nested_map_iff, hkinds]
    exact .word rfl (.word rfl (.word rfl (hlist (.word rfl (hlist .nil)))))
  obtain ⟨-, hall⟩ := parse_withGroup (by decide +kernel) hds hi
  obtain ⟨hinsert, -⟩ := hall _ v (listsVariables_of_listed? hv) (by decide +kernel)
  obtain ⟨es, hes, hshapes, hdeclared⟩ := hinsert ⟨by rw [hname]; decide, hnested⟩
  have hshape : (es.map fun e => e.ast.shape)[1]? = some (.fragment f.ast.shape) := by
    rw [hshapes, List.getElem?_map, hi]
    rfl
  obtain ⟨e, he, -⟩ := exists_fragment_of_shape hshape
  exact ⟨es, e, v, htext ▸ hes, he, hdeclared 1 e he, hnames⟩

/-- A fragment can be named like a literal, but can declare no variables then. -/
theorem not_parse_withGroup_of_literal :
    (fragmentAt? ⟨false⟩ "fragment true on T \x7b y \x7d" 0).isSome = true ∧
      (∃ v, ListsVariables "$a: Int".toList v) ∧
      withGroup "fragment true on T \x7b y \x7d" 0 "$a: Int".toList =
        "fragment true($a: Int) on T \x7b y \x7d" ∧
      ∀ es, parse ⟨true⟩ "fragment true($a: Int) on T \x7b y \x7d" ≠ .ok es := by
  have hlisted : (listed? "$a: Int".toList).isSome = true := by decide +kernel
  have hrefused :
      (parse ⟨true⟩ "fragment true($a: Int) on T \x7b y \x7d").toOption.isSome = false := by
    decide +kernel
  obtain ⟨v, hv⟩ := Option.isSome_iff_exists.mp hlisted
  refine ⟨by decide +kernel, ⟨v, listsVariables_of_listed? hv⟩, by decide +kernel, fun es hes => ?_⟩
  rw [hes] at hrefused
  cases hrefused

end QueryDoc
