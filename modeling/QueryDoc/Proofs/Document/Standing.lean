import QueryDoc.Proofs.Document.Frame
import QueryDoc.Proofs.Grammar.Outline

/-!
# Where frames stand

Words that spell definitions hold no frame (`items_of_parts`). Items whose kept words spell a
definition hold at most one, which stands first, or behind the word `fragment` if that is the name
of the definition too (`frame_of_means`). A frame whose first two words start a definition is the
only one among the definitions around it (`items_of_frame`).
-/
namespace QueryDoc.Lexis

open QueryDoc.Grammar

variable {α : Type} (b : α → Bare)

/-- The punctuator that a word is. -/
def sign (a : α) : Option Punctuator := (b a).1.punctuator?

theorem turn_sign (a : α) : turn (sign b) a = (b a).1.nesting := Kind.elim_punctuator? _

/-- Words in another form are nested alike. -/
theorem nested_congr {β : Type} {b : α → Bare} {d : β → Bare} {as : List α} {bs : List β}
    (h : as.map b = bs.map d) : Nested (sign b) as ↔ Nested (sign d) bs := by
  change Nested (sign id ∘ b) as ↔ Nested (sign id ∘ d) bs
  rw [← nested_map_iff, h, nested_map_iff]

/-! ## Levels of words -/

theorem behind_eq {depth : Int} {a : α} (h : 0 ≤ depth + turn (sign b) a) :
    behind b depth a = depth + turn (sign b) a := by
  rw [turn_sign] at h ⊢
  unfold behind
  split
  · have := (‹Closes b a _› : _ ∧ _).2
    omega
  · rfl

theorem behind_zero {a : α} (h : turn (sign b) a = 0) : behind b 0 a = 0 := by
  rw [behind_eq] <;> omega

/-- Words that do not go below the ground end no definition on the way. -/
theorem foldl_behind {depth : Int} {as : List α}
    (h : ∀ pre post, as = pre ++ post → 0 ≤ depth + level (sign b) pre) :
    as.foldl (behind b) depth = depth + level (sign b) as := by
  induction as generalizing depth with
  | nil => simp [level]
  | cons a as ih =>
    have ha := h [a] as rfl
    simp only [level, Int.add_zero] at ha
    rw [List.foldl_cons, behind_eq b ha, ih, level, Int.add_assoc]
    intro pre post has
    have := h (a :: pre) post (by rw [has]; rfl)
    simp only [level] at this
    omega

theorem foldl_behind_of_nested {as : List α} (h : Nested (sign b) as) {pre post : List α}
    (has : as = pre ++ post) : pre.foldl (behind b) 0 = level (sign b) pre := by
  rw [foldl_behind, Int.zero_add]
  intro front more hpre
  rw [Int.zero_add]
  exact h.level_nonneg (has.trans (by rw [hpre, List.append_assoc]))

/-- No frame starts where the first word is not `fragment`, or the second one is no name. -/
theorem frame?_eq_none {a : α} {as : List α} (h : b a = (.name, "fragment".toList) →
    ∀ c ∈ as.head?, (b c).1 ≠ .name) : frame? b (a :: as) = none := by
  by_contra hne
  obtain ⟨⟨f, rest⟩, hf⟩ := Option.ne_none_iff_exists'.mp hne
  obtain ⟨hsource, hframe⟩ := frame?_eq_some b hf
  obtain ⟨rfl, rfl⟩ := List.cons.inj hsource
  exact h hframe.word f.name rfl hframe.name

/-- Where no word starts a frame on the ground, all words are single. -/
theorem items_append {depth : Int} {as rest : List α}
    (h : ∀ pre a post, as = pre ++ a :: post → pre.foldl (behind b) depth = 0 →
      frame? b (a :: (post ++ rest)) = none) :
    items b depth (as ++ rest) =
      as.map .plain ++ items b (as.foldl (behind b) depth) rest := by
  induction as generalizing depth with
  | nil => rfl
  | cons a as ih =>
    refine (items_cons b (h [] a as rfl)).trans (congrArg (Item.plain a :: ·) (ih ?_))
    intro pre c post has hdepth
    exact h (a :: pre) c post (by rw [has]; rfl) hdepth

/-- Nested brackets do not close what was opened in front of them. -/
theorem Nested.closing?_append {b : α → Bare} {inner : List α} (h : Nested (sign b) inner)
    {depth : Int} (hd : 1 ≤ depth) (rest : List α) : closing? b depth (inner ++ rest) =
      (closing? b depth rest).map fun x => (inner ++ x.1, x.2) := by
  induction h generalizing depth rest with
  | nil => simp
  | @word a as ha h ih =>
    rw [turn_sign] at ha
    rw [List.cons_append, closing?_cons_of_ne b ha (by omega), Int.add_zero, ih hd, Option.map_map]
    rfl
  | @bracket o c inner as hoc hinner h ihinner ih =>
    obtain ⟨ho, hc⟩ := hoc.turn_eq
    rw [turn_sign] at ho hc
    rw [List.cons_append, List.append_assoc, List.cons_append, closing?_cons_of_ne b ho (by omega),
      ihinner (by omega), closing?_cons_of_ne b hc (by omega), Int.add_neg_cancel_right, ih hd,
      Option.map_map, Option.map_map, Option.map_map]
    simp [Function.comp_def]

/-- Nested brackets behind an opening one, up to the next closing one. -/
theorem Nested.closing?_eq {b : α → Bare} {inner : List α} (h : Nested (sign b) inner) {c : α}
    (hc : turn (sign b) c = -1) (rest : List α) :
    closing? b 1 (inner ++ c :: rest) = some (inner, c, rest) := by
  rw [turn_sign] at hc
  rw [h.closing?_append (Int.le_refl 1), closing?_cons_of_eq b hc (by decide)]
  simp

/-! ## Words of definitions -/

theorem shown_comp_face : shown ∘ face ∘ b = sign b := funext fun a => punctuator?_category (b a)

theorem category_of_eq_name {w : Bare} (hw : w.1 = .name) : category w = .name := by
  obtain ⟨k, text⟩ := w
  cases hw
  rfl

/-- A punctuator is not in the category of names. -/
theorem category_ne_name {w : Bare} {p : Punctuator} (hw : w.1 = .punctuator p) :
    category w ≠ .name := by
  obtain ⟨k, text⟩ := w
  cases hw
  simp [category]

section

variable {b} {n : Nat} {part : List α} {d : Ast.Definition} (h : Means n (part.map b) d)

include h

theorem outline_of_words : Outline (part.map (face ∘ b)) d := by
  rw [← List.map_map]
  exact outline_of_means h

theorem nested_of_means : Nested (sign b) part := by
  rw [← shown_comp_face]
  exact (outline_of_words h).nested.of_map

/-- A definition does not end with a name. -/
theorem last_ne_name {front : List α} {c : α} (hpart : part = front ++ [c]) : (b c).1 ≠ .name := by
  obtain ⟨faces, last, hfaces, hlast⟩ := (outline_of_words h).exists_last
  rw [hpart, List.map_append] at hfaces
  obtain ⟨-, hc⟩ := List.append_inj' hfaces rfl
  obtain rfl : face (b c) = last := (List.cons.inj hc).1
  exact fun hn => ne_name_of_shown hlast (category_of_eq_name hn)

/-- On the ground of a definition, the word `fragment` and a name side by side are the start of a
fragment, or the name of a fragment and the word behind it. Another name follows. -/
theorem fragment_name_of_means {pre post : List α} {w a : α}
    (hg : ground (sign b) 0 part = pre ++ w :: a :: post)
    (hw : b w = (.name, "fragment".toList)) (ha : category (b a) = .name) :
    ∃ f v rest, d = .fragment f ∧ post = v :: rest ∧ category (b v) = .name ∧
      ((pre = [] ∧ (b a).2 = f.name.toList) ∨
        ∃ u, pre = [u] ∧ face (b u) = nameFace "fragment" ∧ f.name = "fragment" ∧
          (b a).2 = "on".toList) := by
  have hground : ground shown 0 (part.map (face ∘ b)) =
      pre.map (face ∘ b) ++ nameFace "fragment" :: (face ∘ b) a :: post.map (face ∘ b) := by
    rw [ground_map, shown_comp_face, hg, List.map_append, List.map_cons, List.map_cons,
      Function.comp_apply, hw]
    rfl
  obtain ⟨f, tail, rfl, ⟨hpre, hname, hpost⟩ | ⟨hpre, hf, hon, hpost⟩⟩ :=
    (outline_of_words h).fragment_name hground ha
  · obtain ⟨v, rest, rfl, hv, -⟩ := List.map_eq_cons_iff.mp hpost
    exact ⟨f, v, rest, rfl, rfl, congrArg Prod.fst hv,
      .inl ⟨List.map_eq_nil_iff.mp hpre, congrArg Prod.snd hname⟩⟩
  · obtain ⟨v, rest, rfl, hv, -⟩ := List.map_eq_cons_iff.mp hpost
    obtain ⟨u, rfl, hu⟩ := List.map_eq_singleton_iff.mp hpre
    exact ⟨f, v, rest, rfl, rfl, congrArg Prod.fst hv,
      .inr ⟨u, rfl, hu, hf, congrArg Prod.snd hon⟩⟩

/-- No frame starts on the ground of a definition, whatever follows it. -/
theorem frame?_of_means {pre post rest : List α} {a : α} (hpart : part = pre ++ a :: post)
    (hpre : level (sign b) pre = 0) : frame? b (a :: (post ++ rest)) = none := by
  by_contra hne
  obtain ⟨⟨f, after⟩, hf⟩ := Option.ne_none_iff_exists'.mp hne
  obtain ⟨hsource, hframe⟩ := frame?_eq_some b hf
  obtain ⟨rfl, htail⟩ := List.cons.inj hsource
  -- a definition does not end with a name, so the opening bracket is a part of it as well
  obtain ⟨more, rfl⟩ : ∃ more, post = f.name :: f.opening :: more := by
    rcases post with _ | ⟨x, _ | ⟨y, more⟩⟩
    · exact absurd (congrArg Prod.fst hframe.word) (last_ne_name h hpart)
    · obtain ⟨rfl, -⟩ := List.cons.inj htail
      exact absurd hframe.name (last_ne_name h (hpart.trans (List.append_cons ..)))
    · obtain ⟨rfl, hmore⟩ := List.cons.inj htail
      obtain ⟨rfl, -⟩ := List.cons.inj hmore
      exact ⟨more, rfl⟩
  have hword : turn (sign b) f.word = 0 := by rw [turn_sign, hframe.word]; rfl
  have hname : turn (sign b) f.name = 0 := by rw [turn_sign, hframe.name]; rfl
  have hground : ground (sign b) 0 part = ground (sign b) 0 pre ++ f.word :: f.name ::
      ground (sign b) 0 (f.opening :: more) := by
    rw [hpart, ground_append_cons hpre, hword, ground_cons hname]
  obtain ⟨-, v, rest', -, hv, hcategory, -⟩ :=
    fragment_name_of_means h hground hframe.word (category_of_eq_name hframe.name)
  obtain ⟨rfl, -⟩ := List.cons.inj hv
  exact category_ne_name hframe.opening hcategory

/-- From a place on the ground on, the words of a definition are single words, whatever follows
them. -/
theorem items_of_means {front more : List α} (hpart : part = front ++ more)
    (hfront : level (sign b) front = 0) (rest : List α) :
    items b 0 (more ++ rest) = more.map .plain ++ items b 0 rest := by
  have hnested := nested_of_means h
  have hfold {pre post : List α} (hmore : more = pre ++ post) :
      pre.foldl (behind b) 0 = level (sign b) (front ++ pre) := by
    have hwhole : part = (front ++ pre) ++ post := by rw [hpart, hmore, List.append_assoc]
    have hground := foldl_behind_of_nested b hnested hpart
    rw [← foldl_behind_of_nested b hnested hwhole, List.foldl_append, hground, hfront]
  rw [items_append b, hfold (List.append_nil more).symm, ← hpart, hnested.level_eq]
  intro pre a post hmore hdepth
  have hwhole : part = (front ++ pre) ++ a :: post := by rw [hpart, hmore, List.append_assoc]
  exact frame?_of_means h hwhole ((hfold hmore).symm.trans hdepth)

end

/-- Words that spell definitions one by one are single words. -/
theorem items_of_parts {n : Nat} {parts : List (List Bare)} {ds : List Ast.Definition}
    (h : List.Forall₂ (Means n) parts ds) {as : List α} (has : as.map b = parts.flatten)
    (rest : List α) : items b 0 (as ++ rest) = as.map .plain ++ items b 0 rest := by
  induction h generalizing as with
  | nil =>
    obtain rfl := List.map_eq_nil_iff.mp has
    rfl
  | cons hpart hparts ih =>
    obtain ⟨front, more, rfl, rfl, hmore⟩ := List.map_eq_append_iff.mp has
    rw [List.append_assoc, items_of_means hpart (List.nil_append front).symm rfl, ih hmore,
      List.map_append, List.append_assoc]

/-! ## Frames -/

theorem Itemized.isFrame {b : α → Bare} {depth : Int} {is : List (Item α)}
    (h : Itemized b depth is) {f : Frame α} (hf : .frame f ∈ is) : f.IsFrame b := by
  induction is generalizing depth with
  | nil => cases hf
  | cons i is ih =>
    cases i with
    | plain a => exact ih h.2 (by simpa using hf)
    | frame g =>
      rcases List.mem_cons.mp hf with he | hf
      · cases he
        exact h.2.1
      · exact ih h.2.2 hf

theorem Frame.IsFrame.turns {b : α → Bare} {f : Frame α} (h : f.IsFrame b) :
    turn (sign b) f.word = 0 ∧ turn (sign b) f.name = 0 := by
  rw [turn_sign, turn_sign, h.word, h.name]
  exact ⟨rfl, rfl⟩

/-- The nesting in front of a frame is zero. -/
theorem foldl_behind_kepts {depth : Int} {before after : List (Item α)} {f : Frame α}
    (h : Itemized b depth (before ++ .frame f :: after)) :
    (kepts before).foldl (behind b) depth = 0 := by
  induction before generalizing depth with
  | nil => exact h.1
  | cons i before ih =>
    cases i with
    | plain a => exact ih h.2
    | frame g =>
      obtain ⟨rfl, hg, h⟩ := h
      obtain ⟨hword, hname⟩ := hg.turns
      have hwords : behind b (behind b 0 g.word) g.name = 0 := by
        rw [behind_zero b hword, behind_zero b hname]
      exact (congrArg (fun d => (kepts before).foldl (behind b) d) hwords).trans (ih h)

theorem eq_nil_of_kepts {is : List (Item α)} (h : kepts is = []) : is = [] := by
  rcases is with _ | ⟨a | f, is⟩
  · rfl
  · cases h
  · cases h

theorem turn_of_nameFace {w : α} {name : String} (h : face (b w) = nameFace name) :
    turn (sign b) w = 0 := by
  have hsign : sign b w = none := by
    rw [← shown_comp_face]
    exact congrArg shown h
  rw [turn, hsign]
  rfl

/-- A frame among the items of a definition stands first and has the definition's name, or else it
stands behind the word `fragment` and is named `on`. -/
theorem frame_of_means {n : Nat} {part before after : List (Item α)} {d : Ast.Definition}
    (h : Means n ((kepts part).map b) d) (hi : Itemized b 0 part) {f : Frame α}
    (hpart : part = before ++ .frame f :: after) : ∃ x, d = .fragment x ∧
      ((before = [] ∧ (b f.name).2 = x.name.toList) ∨
        ∃ u, before = [.plain u] ∧ (b u).2 = "fragment".toList ∧ x.name = "fragment" ∧
          (b f.name).2 = "on".toList) := by
  have hkepts : kepts part = kepts before ++ f.word :: f.name :: kepts after := by
    rw [hpart, kepts, List.flatMap_append, List.flatMap_cons]
    rfl
  have hframe : f.IsFrame b := hi.isFrame (by simp [hpart])
  obtain ⟨hword, hname⟩ := hframe.turns
  have hlevel : level (sign b) (kepts before) = 0 :=
    (foldl_behind_of_nested b (nested_of_means h) hkepts).symm.trans
      (foldl_behind_kepts b (hpart ▸ hi))
  have hground : ground (sign b) 0 (kepts part) = ground (sign b) 0 (kepts before) ++
      f.word :: f.name :: ground (sign b) 0 (kepts after) := by
    rw [hkepts, ground_append_cons hlevel, hword, ground_cons hname]
  obtain ⟨x, -, -, rfl, -, -, ⟨hbefore, hx⟩ | ⟨u, hbefore, hu, hx, hon⟩⟩ :=
    fragment_name_of_means h hground hframe.word (category_of_eq_name hframe.name)
  · exact ⟨x, rfl, .inl ⟨eq_nil_of_kepts (eq_nil_of_ground hbefore), hx⟩⟩
  · refine ⟨x, rfl, .inr ⟨u, ?_, congrArg Prod.snd hu, hx, hon⟩⟩
    rcases before with _ | ⟨a | g, before⟩
    · cases hbefore
    · have hcons : a :: ground (sign b) (0 + turn (sign b) a) (kepts before) = [u] := hbefore
      obtain ⟨rfl, hrest⟩ := List.cons.inj hcons
      rw [turn_of_nameFace b hu] at hrest
      rw [eq_nil_of_kepts (eq_nil_of_ground hrest)]
    · -- two words of a frame are too many
      have hg : g.IsFrame b := hi.isFrame (by simp [hpart])
      change ground (sign b) 0 (g.word :: g.name :: kepts before) = [u] at hbefore
      rw [ground_cons hg.turns.1, ground_cons hg.turns.2] at hbefore
      cases hbefore

/-- The items of a definition hold no frame, or a single one: in front of all other items, with the
name of the definition, or right behind the word `fragment`, if that is its name. -/
inductive Framed (x : Ast.Definition) (part : List (Item α)) : Prop
  | none (h : frames part = [])
  | first (f : Frame α) (after : List (Item α)) (d : Ast.Fragment) (hx : x = .fragment d)
    (hpart : part = .frame f :: after) (hframes : frames part = [f])
    (hname : (b f.name).2 = d.name.toList)
  | second (u : α) (f : Frame α) (after : List (Item α)) (d : Ast.Fragment) (hx : x = .fragment d)
    (hpart : part = .plain u :: .frame f :: after) (hframes : frames part = [f])
    (hu : (b u).2 = "fragment".toList) (hd : d.name = "fragment") (hon : (b f.name).2 = "on".toList)

theorem framed_of_means {n : Nat} {part : List (Item α)} {x : Ast.Definition}
    (h : Means n ((kepts part).map b) x) (hi : Itemized b 0 part) : Framed b x part := by
  cases hframes : frames part with
  | nil => exact .none hframes
  | cons f fs =>
    obtain ⟨before, after, rfl⟩ := List.append_of_mem (mem_frames.mp (hframes ▸ List.mem_cons_self))
    -- a frame behind this one would have this one in front of it
    have hafter : frames after = [] := by
      refine List.eq_nil_iff_forall_not_mem.mpr fun g hg => ?_
      obtain ⟨mid, rest, rfl⟩ := List.append_of_mem (mem_frames.mp hg)
      have hsplit : before ++ .frame f :: (mid ++ .frame g :: rest) =
          (before ++ .frame f :: mid) ++ .frame g :: rest := by simp
      have hfront : f ∈ frames (before ++ .frame f :: mid) := mem_frames.mpr (by simp)
      obtain ⟨d, rfl, ⟨hbefore, -⟩ | ⟨u, hbefore, -⟩⟩ := frame_of_means b h hi hsplit
      · rw [hbefore] at hfront
        cases hfront
      · rw [hbefore] at hfront
        cases hfront
    obtain ⟨d, rfl, ⟨rfl, hname⟩ | ⟨u, rfl, hu, hd, hon⟩⟩ := frame_of_means b h hi rfl
    · exact .first f after d rfl rfl (by simp [hafter]) hname
    · exact .second u f after d rfl rfl (by simp [hafter]) hu hd hon

/-! ## A frame among definitions -/

/-- A frame at the front of a definition, with other definitions around it. -/
theorem items_of_frame {n : Nat} {fronts laters : List (List Bare)} {ds es : List Ast.Definition}
    {d : Ast.Definition} {front more later : List α} {f : Frame α} (hframe : f.IsFrame b)
    (hfronts : List.Forall₂ (Means n) fronts ds) (hfront : front.map b = fronts.flatten)
    (hpart : Means n ((f.word :: f.name :: more).map b) d)
    (hlaters : List.Forall₂ (Means n) laters es) (hlater : later.map b = laters.flatten) :
    items b 0 (front ++ (f.source ++ (more ++ later))) =
      front.map .plain ++ .frame f :: (more ++ later).map .plain := by
  obtain ⟨hword, hname⟩ := hframe.turns
  have hlevel : level (sign b) [f.word, f.name] = 0 := by simp [level, hword, hname]
  have hsplit : f.word :: f.name :: more = [f.word, f.name] ++ more := rfl
  have hmore := items_of_means hpart hsplit hlevel later
  have hlast := items_of_parts b hlaters hlater []
  rw [items_nil, List.append_nil, List.append_nil] at hlast
  rw [items_of_parts b hfronts hfront, items_of_frame? b (hframe.frame?_append _), hmore, hlast,
    List.map_append]

/-- Items are cut anew behind whole definitions. -/
theorem cutItems_take_append {bs : List Bare} {i : Nat} (hi : i < (cutWords id 0 bs).length)
    (is : List (Item Bare)) :
    cutItems id 0 (((cutWords id 0 bs).take i).flatten.map .plain ++ is) =
      ((cutWords id 0 bs).take i).map (List.map .plain) ++ cutItems id 0 is := by
  have hcut : cut (Item.punctuator? id) 0 (bs.map .plain) =
      (cutWords id 0 bs).map (List.map .plain) := cut_map Item.plain 0 bs
  have htake := @cut_take_append _ (Item.punctuator? id) 0 (bs.map .plain) i
    (by rw [hcut, List.length_map]; exact hi) is
  rwa [hcut, ← List.map_take, ← List.map_flatten, ite_self] at htake

/-- A frame behind whole definitions has their number. -/
theorem numbered_of_frame {bs : List Bare} {i : Nat} (hi : i < (cutWords id 0 bs).length)
    {front : List α} {f : Frame α} {is : List (Item α)}
    (hfront : front.map b = ((cutWords id 0 bs).take i).flatten) (his : frames is = []) :
    numbered b 0 0 (front.map .plain ++ .frame f :: is) = [(i, f)] := by
  have hsnd := map_snd_numbered b 0 0 (front.map .plain ++ .frame f :: is)
  rw [frames_append, frames_map_plain, frames_frame, his] at hsnd
  obtain ⟨⟨k, g⟩, hk, rfl⟩ := List.map_eq_singleton_iff.mp hsnd
  have hmap := numbered_map id b 0 0 (front.map .plain ++ .frame g :: is)
  have hplain : (front.map Item.plain).map (Item.map b) = (front.map b).map .plain := by
    rw [List.map_map, List.map_map]
    rfl
  rw [Function.id_comp, hk, List.map_append, hplain, hfront] at hmap
  -- the first part behind these definitions starts with the frame
  have hfilter := filter_numbered id 0 0 i
    (((cutWords id 0 bs).take i).flatten.map .plain ++ (Item.frame g :: is).map (Item.map b))
  have hlength : (((cutWords id 0 bs).take i).map (List.map Item.plain)).length = i := by
    rw [List.length_map, List.length_take_of_le hi.le]
  have hframe : (Item.frame g :: is).map (Item.map b) = .frame (g.map b) :: is.map (Item.map b) :=
    rfl
  rw [hmap, cutItems_take_append hi, List.getElem?_append_right hlength.le, hlength,
    Nat.sub_self, hframe, cutItems_frame, Nat.zero_add] at hfilter
  obtain rfl : k = i := by
    by_contra hne
    cases hcut : cutItems id 0 (is.map (Item.map b)) <;>
      simp [hcut, Text.consFirst, hne] at hfilter
  exact hk

end QueryDoc.Lexis
