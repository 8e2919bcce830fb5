import QueryDoc.Proofs.Document.Meaning
import QueryDoc.Proofs.Document.Standing
import QueryDoc.Proofs.Lexis.Tiling

/-!
# Groups among tokens

The groups of a text are the frames among its tokens (`ofText_eq`), and the tokens outside all
groups are those that are kept when frames are set aside (`ungrouped_eq`).
-/
namespace QueryDoc

open QueryDoc.Lexis

/-- The word that a token is when nothing is known about its surroundings. -/
def Lexis.Token.word (t : Token) : Word := ⟨t.kind, t.text, false⟩

/-- The group of a frame in the definition with the given number. -/
def VariableGroup.ofFrame (definition : Nat) (f : Frame Token) : VariableGroup :=
  ⟨definition, String.ofList f.name.text, f.opening, f.closing⟩

/-! ## Frames and groups -/

section

variable {ts : List Token} {last : Token} (hts : ∀ t ∈ ts, t.kind ≠ .eof) (hlast : last.kind = .eof)

include hts hlast

theorem close?_append {depth : Int} (hd : depth ≠ 0) :
    VariableGroup.close? depth (ts ++ [last]) =
      (closing? Token.bare depth ts).map fun x => (x.2.1, x.2.2 ++ [last]) := by
  induction ts generalizing depth with
  | nil => simp [VariableGroup.close?, closing?, hlast, Kind.nesting, hd]
  | cons t ts ih =>
    obtain ⟨ht, hts⟩ := List.forall_mem_cons.mp hts
    rw [List.cons_append, VariableGroup.close?]
    by_cases hzero : depth + t.kind.nesting = 0
    · rw [closing?_cons_of_eq Token.bare rfl hzero, if_pos hzero]
      rfl
    · rw [closing?_cons_of_ne Token.bare rfl hzero, if_neg hzero, if_neg ht, ih hts hzero,
        Option.map_map]
      rfl

theorem front?_append (n : Nat) : VariableGroup.front? n (ts ++ [last]) =
    (frame? Token.bare ts).map fun x => (.ofFrame n x.1, x.2 ++ [last]) := by
  rcases ts with _ | ⟨word, _ | ⟨name, _ | ⟨opening, ts⟩⟩⟩
  · rfl
  · rfl
  · simp [VariableGroup.front?, frame?, hlast]
  · have hrest : ∀ t ∈ ts, t.kind ≠ .eof := fun t ht => hts t (by simp [ht])
    have hclose := close?_append hrest hlast (show (1 : Int) ≠ 0 by decide)
    rw [List.cons_append, List.cons_append, List.cons_append,
      front?_cons (v := word.word) (w := name.word) (x := opening.word) rfl rfl rfl, hclose, frame?]
    by_cases hwords : word.bare = (.name, "fragment".toList) ∧ name.bare.1 = .name ∧
        opening.bare.1 = .punctuator .parenOpen
    · rw [if_pos hwords, Option.map_map, Option.map_map]
      exact if_pos hwords
    · rw [if_neg hwords]
      exact if_neg hwords

theorem find_append (depth : Int) (n : Nat) :
    VariableGroup.find depth n (ts ++ [last]) =
      (numbered Token.bare depth n (items Token.bare depth ts)).map fun x => .ofFrame x.1 x.2 := by
  fun_induction items Token.bare depth ts generalizing n with
  | case1 depth ts f rest h ih => 
    split at h
    · obtain rfl : depth = 0 := ‹_›
      obtain ⟨hsource, -⟩ := frame?_eq_some Token.bare h
      have hrest : ∀ t ∈ rest, t.kind ≠ .eof := fun t ht => hts t (by rw [hsource]; simp [ht])
      rw [find_of_front? (by rw [front?_append hts hlast, h]; rfl), ih hrest]
      rfl
    · cases h
  | case2 depth h => 
    rw [List.nil_append, find_cons (w := last.word) rfl (fun _ => rfl), find_nil]
    rfl
  | case3 depth t ts h ih =>
    obtain ⟨ht, hts'⟩ := List.forall_mem_cons.mp hts
    have hfront (h0 : depth = 0) : VariableGroup.front? n (t :: (ts ++ [last])) = none := by
      rw [if_pos h0] at h
      rw [← List.cons_append, front?_append hts hlast, h]
      rfl
    rw [List.cons_append, find_cons (w := t.word) rfl hfront, numbered_plain]
    exact ih hts' _

end

/-- The end is the only token that does not count. -/
theorem exists_tokensFrom_eq_filter (k : Cursor) (trivia : List Trivia) (s : List Char) :
    ∃ last : Token, last.EndsAt (k.past s).place ∧
      tokensFrom k trivia s = (tokensFrom k trivia s).filter Token.isSignificant ++ [last] ∧
      ∀ t ∈ (tokensFrom k trivia s).filter Token.isSignificant, t.kind ≠ .eof ∧ t.text ≠ [] := by
  obtain ⟨ts, last, hts, hlast, hall⟩ := exists_tokensFrom_eq k trivia s
  have hsignificant : (tokensFrom k trivia s).filter Token.isSignificant = ts := by
    have hfilter : ts.filter Token.isSignificant = ts :=
      List.filter_eq_self.mpr fun t ht => by simpa [Token.isSignificant] using (hall t ht).1
    rw [hts, List.filter_append, hfilter]
    simp [Token.isSignificant, hlast.kind]
  exact ⟨last, hlast, by rw [hsignificant, hts], hsignificant ▸ hall⟩

theorem exists_tokens_eq (text : List Char) : ∃ last : Token,
    last.EndsAt (Cursor.start.past text).place ∧ tokens text = significant text ++ [last] ∧
    ∀ t ∈ significant text, t.kind ≠ .eof ∧ t.text ≠ [] :=
  exists_tokensFrom_eq_filter .start [] text

/-- The groups of a text are the frames among its tokens. -/
theorem ofText_eq (text : List Char) : VariableGroup.ofText text =
    (numbered Token.bare 0 0 (items Token.bare 0 (significant text))).map
      fun x => .ofFrame x.1 x.2 := by
  obtain ⟨last, hlast, htokens, hts⟩ := exists_tokens_eq text
  rw [VariableGroup.ofText, htokens, find_append (fun t ht => (hts t ht).1) hlast.kind]

/-- The frames among the tokens of a text, with the numbers of their definitions. -/
abbrev frameTokens (text : List Char) : List (Nat × Frame Token) :=
  numbered Token.bare 0 0 (items Token.bare 0 (significant text))

theorem items_bares_eq_significant (text : List Char) : items id 0 (bares text) =
    (items Token.bare 0 (significant text)).map (Item.map Token.bare) := by
  rw [← map_bare_significant]
  exact items_map id Token.bare 0 _

theorem map_bare_frameTokens (text : List Char) :
    (frameTokens text).map (fun x => (x.1, x.2.map Token.bare)) =
      numbered id 0 0 (items id 0 (bares text)) := by
  rw [items_bares_eq_significant]
  exact (numbered_map id Token.bare 0 0 _).symm

/-- A group is a frame among the tokens, and it is located where a frame among the words is that
reads the same. -/
theorem exists_frame_of_mem {text : List Char} {g : VariableGroup}
    (hg : g ∈ VariableGroup.ofText text) : ∃ f w, (g.definition, f) ∈ frameTokens text ∧
      g = .ofFrame g.definition f ∧ Located text (g.definition, w) g ∧
      w.map Word.bare = f.map Token.bare := by
  have hlocated := located_ofText text
  have hbares := (numbered_bares text).symm.trans (map_bare_frameTokens text).symm
  rw [ofText_eq, List.forall₂_map_right_iff] at hlocated
  rw [← List.forall₂_eq_eq_eq, List.forall₂_map_left_iff, List.forall₂_map_right_iff] at hbares
  rw [ofText_eq] at hg
  obtain ⟨x, hx, rfl⟩ := List.mem_map.mp hg
  obtain ⟨i, hi, rfl⟩ := List.mem_iff_getElem.mp hx
  have hlength := hlocated.length_eq
  have hgroup := hlocated.get (by omega) hi
  have hbare := hbares.get (by omega) hi
  simp only [List.get_eq_getElem, Prod.mk.injEq] at hgroup hbare
  refine ⟨_, _, hx, rfl, ?_, hbare.2⟩
  rw [VariableGroup.ofFrame, ← hbare.1]
  rwa [← hbare.1] at hgroup

/-- A group in a text stands where a frame stands among its tokens. -/
theorem exists_tokens_eq_of_mem {text : List Char} {f : Frame Token} {n : Nat}
    (hf : (n, f) ∈ frameTokens text) : f.IsFrame Token.bare ∧
      ∃ pre post, tokens text = pre ++ f.opening :: (f.inner ++ f.closing :: post) := by
  obtain ⟨hitemized, hsources⟩ := itemized_items Token.bare 0 (significant text)
  have hmem : f ∈ frames (items Token.bare 0 (significant text)) := by
    rw [← map_snd_numbered Token.bare 0 0]
    exact List.mem_map_of_mem hf
  rw [mem_frames] at hmem
  obtain ⟨last, -, htokens, -⟩ := exists_tokens_eq text
  refine ⟨hitemized.isFrame hmem, ?_⟩
  obtain ⟨before, after, hitems⟩ := List.append_of_mem hmem
  rw [hitems] at hsources
  refine ⟨sources before ++ [f.word, f.name], sources after ++ [last], ?_⟩
  rw [htokens, ← hsources]
  simp [sources, Item.source, Frame.source]

/-! ## Tokens outside groups -/

/-- Does the group cover the token? -/
def VariableGroup.covers (g : VariableGroup) (t : Token) : Bool :=
  g.first ≤ t.span.first.offset && t.span.first.offset < g.last

theorem covers_ofFrame_iff {n : Nat} {f : Frame Token} {t : Token} :
    (VariableGroup.ofFrame n f).covers t = true ↔
      f.opening.span.first.offset ≤ t.span.first.offset ∧
        t.span.first.offset < f.closing.span.last.offset := by
  rw [VariableGroup.covers, Bool.and_eq_true, decide_eq_true_iff, decide_eq_true_iff]
  rfl

/-- The tokens outside all groups. -/
def ungrouped (text : List Char) : List Token :=
  (significant text).filter fun t => (VariableGroup.ofText text).all (!·.covers t)

/-- The tokens stand one behind the other, and each covers some bytes. -/
structure Ordered (ts : List Token) : Prop where
  pairwise : ts.Pairwise fun t u => t.span.last.offset ≤ u.span.first.offset
  wide : ∀ t ∈ ts, t.span.first.offset < t.span.last.offset

theorem map_tile_sublist (ts : List Token) :
    (ts.map Token.tile).Sublist (ts.flatMap Token.tiles) := by
  induction ts with
  | nil => exact .slnil
  | cons t ts ih =>
    rw [List.map_cons, List.flatMap_cons, Token.tiles]
    exact (List.sublist_append_right _ [t.tile]).append ih

theorem ordered_significant (text : List Char) : Ordered (significant text) := by
  obtain ⟨last, -, htokens, hts⟩ := exists_tokens_eq text
  have hpairwise := (laid_tiles text).ordered.sublist (map_tile_sublist (tokens text))
  rw [List.pairwise_map, htokens, List.pairwise_append] at hpairwise
  refine ⟨hpairwise.1, fun t ht => ?_⟩
  have hmem : t ∈ tokens text := by simp [htokens, ht]
  exact (laid_tiles text).first_lt_last (tile_mem_tiles hmem) (hts t ht).2

/-- The words of a frame in a list are its word and name and then its group. -/
theorem sources_around (before after : List (Item Token)) (f : Frame Token) :
    sources (before ++ .frame f :: after) =
      (sources before ++ [f.word, f.name]) ++ (f.group ++ sources after) := by
  simp [sources, Item.source, Frame.source, Frame.group]

section

variable {before after : List (Item Token)} {f : Frame Token} {n : Nat} {t : Token}
  (h : Ordered (sources (before ++ .frame f :: after)))

include h

/-- A group covers no token outside its brackets. -/
theorem not_covers_of_outside (ht : t ∈ sources before ++ [f.word, f.name] ∨ t ∈ sources after) :
    ¬ (VariableGroup.ofFrame n f).covers t = true := by
  obtain ⟨hpairwise, hwide⟩ := h
  rw [sources_around] at hpairwise hwide
  obtain ⟨-, hrest, hfront⟩ := List.pairwise_append.mp hpairwise
  rw [covers_ofFrame_iff]
  rcases ht with ht | ht
  · have hle := hfront t ht f.opening (by simp [Frame.group])
    have hlt := hwide t (List.mem_append_left _ ht)
    omega
  · have hle := (List.pairwise_append.mp hrest).2.2 f.closing (by simp [Frame.group]) t ht
    omega

/-- A group covers its brackets and what stands between them. -/
theorem covers_of_inside (ht : t ∈ f.group) : (VariableGroup.ofFrame n f).covers t = true := by
  obtain ⟨hpairwise, hwide⟩ := h
  rw [sources_around] at hpairwise hwide
  have hgroup := (List.pairwise_append.mp (List.pairwise_append.mp hpairwise).2.1).1
  have hwide {t : Token} (ht : t ∈ f.group) := hwide t (by simp [ht])
  have hopening := hwide (t := f.opening) (by simp [Frame.group])
  have hclosing := hwide (t := f.closing) (by simp [Frame.group])
  obtain ⟨hfirst, hinner⟩ := List.pairwise_cons.mp hgroup
  have hlast := hfirst f.closing (by simp)
  rw [covers_ofFrame_iff]
  rcases List.mem_cons.mp ht with rfl | ht
  · omega
  have hle := hfirst t ht
  rcases List.mem_append.mp ht with ht | ht
  · have hbehind := (List.pairwise_append.mp hinner).2.2 t ht f.closing (by simp)
    have hlt := hwide (t := t) (by simp [Frame.group, ht])
    omega
  · obtain rfl := List.mem_singleton.mp ht
    omega

end

/-- The tokens outside all groups are those that are kept. -/
theorem ungrouped_eq (text : List Char) :
    ungrouped text = kepts (items Token.bare 0 (significant text)) := by
  obtain ⟨-, hsources⟩ := itemized_items Token.bare 0 (significant text)
  generalize his : items Token.bare 0 (significant text) = is at hsources ⊢
  have hordered : Ordered (sources is) := hsources ▸ ordered_significant text
  have hall (t : Token) : (VariableGroup.ofText text).all (!·.covers t) = true ↔
      ∀ f ∈ frames is, ¬ (VariableGroup.ofFrame 0 f).covers t = true := by
    rw [ofText_eq, his, List.all_map, List.all_eq_true, ← map_snd_numbered Token.bare 0 0 is,
      List.forall_mem_map]
    refine forall₂_congr fun x _ => ?_
    rw [Function.comp_apply, Bool.not_eq_true', ← Bool.not_eq_true]
    rfl
  unfold ungrouped kepts
  rw [← hsources, sources, List.filter_flatMap]
  refine List.flatMap_congr fun i hi => ?_
  -- no group covers a token that is kept
  have hkept : ∀ t ∈ i.kept, (VariableGroup.ofText text).all (!·.covers t) = true := by
    intro t ht
    refine (hall t).mpr fun f hf => ?_
    obtain ⟨before, after, rfl⟩ := List.append_of_mem (mem_frames.mp hf)
    refine not_covers_of_outside hordered ?_
    have hsource {is : List (Item Token)} (hi : i ∈ is) : t ∈ sources is :=
      kepts_subset is (List.mem_flatMap.mpr ⟨i, hi, ht⟩)
    rcases List.mem_append.mp hi with hi | hi
    · exact .inl (List.mem_append_left _ (hsource hi))
    · rcases List.mem_cons.mp hi with rfl | hi
      · exact .inl (List.mem_append_right _ ht)
      · exact .inr (hsource hi)
  cases i with
  | plain a => exact List.filter_eq_self.mpr hkept
  | frame f =>
    have hgroup : ∀ t ∈ f.group, ¬ (VariableGroup.ofText text).all (!·.covers t) = true := by
      intro t ht hnot
      obtain ⟨before, after, rfl⟩ := List.append_of_mem hi
      exact (hall t).mp hnot f (mem_frames.mpr hi) (covers_of_inside hordered ht)
    have hsource : (Item.frame f).source = (Item.frame f).kept ++ f.group := rfl
    rw [hsource, List.filter_append, List.filter_eq_self.mpr hkept,
      List.filter_eq_nil_iff.mpr hgroup, List.append_nil]

end QueryDoc
