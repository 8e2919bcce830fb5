import QueryDoc.Proofs.Lexis.Key

/-!
# Frames

A frame is a group of variables among words: the word `fragment`, a name, and what stands in
brackets behind it. Words are read as items, which are single words and frames; frames are set
aside, and the parts that words are cut into have the frames that stand in them. The words may be
given in any form from which the bare word can be seen.
-/
namespace QueryDoc.Lexis

variable {α β : Type} (b : α → Bare)

/-- The words up to the first one that brings the nesting back to the ground, that one, and those
behind it. The nesting in front is `depth`. -/
def closing? (depth : Int) : List α → Option (List α × α × List α)
  | [] => none
  | a :: as =>
    let depth := depth + (b a).1.nesting
    if depth = 0 then some ([], a, as)
    else (closing? depth as).map fun x => (a :: x.1, x.2)

theorem closing?_cons_of_eq {depth n : Int} {a : α} (hn : (b a).1.nesting = n)
    (h : depth + n = 0) (as : List α) : closing? b depth (a :: as) = some ([], a, as) :=
  if_pos (hn ▸ h)

theorem closing?_cons_of_ne {depth n : Int} {a : α} (hn : (b a).1.nesting = n)
    (h : depth + n ≠ 0) (as : List α) :
    closing? b depth (a :: as) = (closing? b (depth + n) as).map fun x => (a :: x.1, x.2) := by
  subst hn
  exact if_neg h

theorem closing?_nil_iff {b : α → Bare} {depth : Int} {c : α} {rest : List α} :
    closing? b depth (c :: rest) = some ([], c, rest) ↔ depth + (b c).1.nesting = 0 := by
  refine ⟨fun h => ?_, fun h => closing?_cons_of_eq b rfl h rest⟩
  by_contra hne
  rw [closing?_cons_of_ne b rfl hne] at h
  obtain ⟨x, -, hx⟩ := Option.map_eq_some_iff.mp h
  cases hx

theorem closing?_cons_iff {b : α → Bare} {depth : Int} {a c : α} {inner rest : List α} :
    closing? b depth (a :: (inner ++ c :: rest)) = some (a :: inner, c, rest) ↔
      depth + (b a).1.nesting ≠ 0 ∧
        closing? b (depth + (b a).1.nesting) (inner ++ c :: rest) = some (inner, c, rest) := by
  by_cases h : depth + (b a).1.nesting = 0
  · rw [closing?_cons_of_eq b rfl h]
    simp [h]
  · rw [closing?_cons_of_ne b rfl h, Option.map_eq_some_iff]
    simp [h, Prod.ext_iff]

structure Frame (α : Type) where
  word : α
  name : α
  opening : α
  inner : List α
  closing : α

def Frame.source (f : Frame α) : List α := f.word :: f.name :: f.opening :: (f.inner ++ [f.closing])

/-- The brackets and what stands between them. -/
def Frame.group (f : Frame α) : List α := f.opening :: (f.inner ++ [f.closing])

/-- The frame at the front of the words, and the words behind it. -/
def frame? : List α → Option (Frame α × List α)
  | word :: name :: opening :: as =>
    if b word = (.name, "fragment".toList) ∧ (b name).1 = .name ∧
        (b opening).1 = .punctuator .parenOpen then
      (closing? b 1 as).map fun x => (⟨word, name, opening, x.1, x.2.1⟩, x.2.2)
    else none
  | _ => none

theorem closing?_eq_some {depth : Int} {as inner rest : List α} {c : α}
    (h : closing? b depth as = some (inner, c, rest)) : as = inner ++ c :: rest := by
  induction as generalizing depth inner with
  | nil => cases h
  | cons a as ih =>
    simp only [closing?] at h
    split at h
    · cases h; rfl
    · obtain ⟨⟨inner', c', rest'⟩, hx, he⟩ := Option.map_eq_some_iff.mp h
      cases he
      rw [ih hx]
      rfl

/-- What follows the closing word does not count. -/
theorem closing?_replace {depth : Int} {as inner rest : List α} {c : α}
    (h : closing? b depth as = some (inner, c, rest)) (more : List α) :
    closing? b depth (inner ++ c :: more) = some (inner, c, more) := by
  induction as generalizing depth inner with
  | nil => cases h
  | cons a as ih =>
    simp only [closing?] at h
    split at h
    · cases h
      simp only [List.nil_append, closing?]
      rw [if_pos ‹_›]
    · obtain ⟨⟨inner', c', rest'⟩, hx, he⟩ := Option.map_eq_some_iff.mp h
      cases he
      simp only [List.cons_append, closing?]
      rw [if_neg ‹_›, ih hx]
      rfl

/-- What makes a frame, whatever words follow it. -/
structure Frame.IsFrame (f : Frame α) : Prop where
  word : b f.word = (.name, "fragment".toList)
  name : (b f.name).1 = .name
  opening : (b f.opening).1 = .punctuator .parenOpen
  closing : ∀ rest, closing? b 1 (f.inner ++ f.closing :: rest) = some (f.inner, f.closing, rest)

theorem Frame.IsFrame.frame?_append {b : α → Bare} {f : Frame α} (h : f.IsFrame b)
    (rest : List α) : frame? b (f.source ++ rest) = some (f, rest) := by
  have hsource : f.source ++ rest =
      f.word :: f.name :: f.opening :: (f.inner ++ f.closing :: rest) := by
    simp [Frame.source]
  rw [hsource, frame?, if_pos ⟨h.word, h.name, h.opening⟩, h.closing]
  rfl

theorem frame?_eq_some {as rest : List α} {f : Frame α} (h : frame? b as = some (f, rest)) :
    as = f.source ++ rest ∧ f.IsFrame b := by
  unfold frame? at h
  split at h
  · split at h
    · obtain ⟨⟨inner, c, rest'⟩, hx, he⟩ := Option.map_eq_some_iff.mp h
      cases he
      rename_i hwords
      refine ⟨?_, hwords.1, hwords.2.1, hwords.2.2, closing?_replace b hx⟩
      rw [closing?_eq_some b hx]
      simp [Frame.source]
    · cases h
  · cases h

theorem length_frame? {as rest : List α} {f : Frame α} (h : frame? b as = some (f, rest)) :
    rest.length < as.length := by
  rw [(frame?_eq_some b h).1]
  simp only [Frame.source, List.length_append, List.length_cons]
  omega

/-! ## Items -/

inductive Item (α : Type) where
  | plain (a : α)
  | frame (f : Frame α)

namespace Item

def source : Item α → List α
  | plain a => [a]
  | frame f => f.source

/-- What is left when frames are set aside. -/
def kept : Item α → List α
  | plain a => [a]
  | frame f => [f.word, f.name]

def frame? : Item α → Option (Frame α)
  | plain _ => none
  | frame f => some f

/-- The punctuator that an item is, as far as cuts are concerned. -/
def punctuator? : Item α → Option Punctuator
  | plain a => (b a).1.punctuator?
  | frame _ => none

end Item

/-- Does a word that leaves the nesting at `depth` end a definition? -/
def Closes (a : α) (depth : Int) : Prop := (b a).1.punctuator? = some .braceClose ∧ depth ≤ 0

instance (a : α) (depth : Int) : Decidable (Closes b a depth) := by unfold Closes; infer_instance

/-- The nesting behind a word, which starts anew behind a definition. -/
def behind (depth : Int) (a : α) : Int :=
  if Closes b a (depth + (b a).1.nesting) then 0 else depth + (b a).1.nesting

/-- The items of words, in front of which the nesting is `depth`. -/
def items (depth : Int) (as : List α) : List (Item α) :=
  match _h : if depth = 0 then frame? b as else none with
  | some (f, rest) => .frame f :: items depth rest
  | none =>
    match as with
    | [] => []
    | a :: as => .plain a :: items (behind b depth a) as
termination_by as.length
decreasing_by
  · split at _h
    · exact length_frame? b _h
    · cases _h
  · simp

theorem items_of_frame? {as rest : List α} {f : Frame α} (h : frame? b as = some (f, rest)) :
    items b 0 as = .frame f :: items b 0 rest := by
  rw [items]
  split
  · rename_i hf
    rw [if_pos rfl, h] at hf
    cases hf
    rfl
  · rename_i hf
    rw [if_pos rfl, h] at hf
    cases hf

theorem items_nil (depth : Int) : items b depth ([] : List α) = [] := by
  rw [items]
  split
  · rename_i hf
    split at hf <;> cases hf
  · rfl

theorem items_cons {depth : Int} {a : α} {as : List α} (h : depth = 0 → frame? b (a :: as) = none) :
    items b depth (a :: as) = .plain a :: items b (behind b depth a) as := by
  rw [items]
  split
  · rename_i hf
    split at hf
    · rw [h ‹_›] at hf; cases hf
    · cases hf
  · rfl

abbrev sources (is : List (Item α)) : List α := is.flatMap Item.source

abbrev kepts (is : List (Item α)) : List α := is.flatMap Item.kept

theorem kepts_append (is js : List (Item α)) : kepts (is ++ js) = kepts is ++ kepts js :=
  List.flatMap_append

theorem kepts_map_plain (as : List α) : kepts (as.map Item.plain) = as := by
  rw [kepts, List.flatMap_map]
  exact List.flatMap_singleton' as

theorem kepts_subset (is : List (Item α)) : kepts is ⊆ sources is := by
  intro a ha
  obtain ⟨i, hi, ha⟩ := List.mem_flatMap.mp ha
  refine List.mem_flatMap.mpr ⟨i, hi, ?_⟩
  cases i with
  | plain b => exact ha
  | frame f =>
    simp only [Item.kept, Item.source, Frame.source, List.mem_cons] at ha ⊢
    tauto

/-- The items are those of their words, whatever words follow a frame. -/
def Itemized (depth : Int) : List (Item α) → Prop
  | [] => True
  | .frame f :: is =>
    depth = 0 ∧ f.IsFrame b ∧ Itemized depth is
  | .plain a :: is =>
    (depth = 0 → frame? b (a :: sources is) = none) ∧ Itemized (behind b depth a) is

theorem itemized_items (depth : Int) (as : List α) :
    Itemized b depth (items b depth as) ∧ sources (items b depth as) = as := by
  fun_induction items b depth as with
  | case1 depth as f rest h ih =>
    split at h
    · obtain rfl : depth = 0 := ‹_›
      obtain ⟨has, hframe⟩ := frame?_eq_some b h
      refine ⟨⟨rfl, hframe, ih.1⟩, ?_⟩
      rw [sources, List.flatMap_cons, ← sources, ih.2]
      exact has.symm
    · cases h
  | case2 => exact ⟨trivial, rfl⟩
  | case3 depth a as h ih =>
    refine ⟨⟨fun h0 => ?_, ih.1⟩, ?_⟩
    · rw [ih.2]
      simpa [h0] using h
    · rw [sources, List.flatMap_cons, ← sources, ih.2]
      rfl

theorem items_sources {depth : Int} {is : List (Item α)} (h : Itemized b depth is) :
    items b depth (sources is) = is := by
  induction is generalizing depth with
  | nil => exact items_nil b depth
  | cons i is ih =>
    cases i with
    | plain a =>
      rw [sources, List.flatMap_cons, ← sources]
      exact (items_cons b h.1).trans (congrArg _ (ih h.2))
    | frame f =>
      obtain ⟨rfl, hf, h⟩ := h
      rw [sources, List.flatMap_cons, ← sources]
      exact (items_of_frame? b (hf.frame?_append _)).trans (congrArg _ (ih h))

/-! ## Items of parts -/

/-- Words are cut where a closing brace ends a definition. -/
abbrev cutWords (depth : Int) (as : List α) : List (List α) :=
  cut (fun a => (b a).1.punctuator?) depth as

/-- Items are cut where their words are, and never inside a frame. -/
abbrev cutItems (depth : Int) (is : List (Item α)) : List (List (Item α)) :=
  cut (Item.punctuator? b) depth is

theorem cutWords_cons (depth : Int) (a : α) (as : List α) : cutWords b depth (a :: as) =
    if Closes b a (depth + (b a).1.nesting) then [a] :: cutWords b 0 as
    else Text.consFirst a (cutWords b (depth + (b a).1.nesting) as) := by
  simp only [cutWords, cut, Kind.elim_punctuator?]
  rfl

theorem cutItems_plain (depth : Int) (a : α) (is : List (Item α)) :
    cutItems b depth (.plain a :: is) =
      if Closes b a (depth + (b a).1.nesting) then [.plain a] :: cutItems b 0 is
      else Text.consFirst (.plain a) (cutItems b (depth + (b a).1.nesting) is) := by
  simp only [cutItems, cut, Item.punctuator?, Kind.elim_punctuator?]
  rfl

theorem cutItems_frame (depth : Int) (f : Frame α) (is : List (Item α)) :
    cutItems b depth (.frame f :: is) = Text.consFirst (.frame f) (cutItems b depth is) := by
  simp [cutItems, cut, Item.punctuator?]

theorem map_consFirst_flatMap {γ : Type} {f : Item α → List γ} {i : Item α} (hi : f i ≠ [])
    (ps : List (List (Item α))) : (Text.consFirst i ps).map (List.flatMap f) =
      (f i).foldr Text.consFirst (ps.map (List.flatMap f)) := by
  cases ps with
  | nil => simp [Text.consFirst, foldr_consFirst_nil hi]
  | cons p ps => simp [Text.consFirst, foldr_consFirst_cons]

/-- Every frame closes with something else than a brace. -/
def Tidy (is : List (Item α)) : Prop :=
  ∀ f, .frame f ∈ is → (b f.closing).1 ≠ .punctuator .braceClose

theorem nesting_ge (k : Kind) : -1 ≤ k.nesting := by
  cases k with
  | punctuator p => cases p <;> decide
  | _ => simp [Kind.nesting]

/-- No cut falls in front of the word that closes. -/
theorem cutWords_of_closing? {depth : Int} (hd : 1 ≤ depth) {inner rest : List α} {c : α}
    (h : closing? b depth (inner ++ c :: rest) = some (inner, c, rest)) :
    cutWords b depth (inner ++ c :: rest) =
      inner.foldr Text.consFirst (cutWords b (-(b c).1.nesting) (c :: rest)) := by
  induction inner generalizing depth with
  | nil =>
    have hzero := closing?_nil_iff.mp h
    rw [List.nil_append, List.foldr_nil, show depth = -(b c).1.nesting by omega]
  | cons a inner ih =>
    obtain ⟨hne, h⟩ := closing?_cons_iff.mp h
    have hge := nesting_ge (b a).1
    have hopen : ¬ Closes b a (depth + (b a).1.nesting) := by
      rintro ⟨-, hle⟩
      omega
    rw [List.cons_append, cutWords_cons, if_neg hopen, ih (by omega) h]
    rfl

/-- What stands in a frame in front of the word that closes it. -/
def Frame.front (f : Frame α) : List α := f.word :: f.name :: f.opening :: f.inner

theorem Frame.source_eq (f : Frame α) : f.source = f.front ++ [f.closing] := rfl

theorem Frame.IsFrame.cutWords_front {f : Frame α} (h : f.IsFrame b) (rest : List α) :
    cutWords b 0 (f.source ++ rest) = f.front.foldr Text.consFirst
      (cutWords b (-(b f.closing).1.nesting) (f.closing :: rest)) := by
  have hinner := cutWords_of_closing? b (Int.le_refl 1) (h.closing rest)
  have hword : (b f.word).1 = .name := by rw [h.word]
  have hnest {a : α} {k : Kind} (ha : (b a).1 = k) (hk : k.punctuator? ≠ some .braceClose)
      (depth : Int) (as : List α) : cutWords b depth (a :: as) =
        Text.consFirst a (cutWords b (depth + k.nesting) as) := by
    rw [cutWords_cons, if_neg (fun hcl => hk (ha ▸ hcl.1)), ha]
  simp only [Frame.source, List.cons_append, List.append_assoc]
  rw [hnest hword (by decide), hnest h.name (by decide), hnest h.opening (by decide)]
  simpa [Frame.front, Kind.nesting, Punctuator.nesting] using
    congrArg (fun ps => [f.word, f.name, f.opening].foldr Text.consFirst ps) hinner

/-- No cut falls in a frame that something else than a brace closes, and none behind it. -/
theorem Frame.IsFrame.cutWords {f : Frame α} (h : f.IsFrame b)
    (hc : (b f.closing).1 ≠ .punctuator .braceClose) (rest : List α) :
    cutWords b 0 (f.source ++ rest) = f.source.foldr Text.consFirst (cutWords b 0 rest) := by
  have hopen : ¬ Closes b f.closing 0 := by
    rintro ⟨hp, -⟩
    unfold Kind.punctuator? at hp
    split at hp <;> simp_all
  rw [h.cutWords_front, cutWords_cons, Int.add_left_neg, if_neg hopen, Frame.source_eq,
    List.foldr_append]
  rfl

/-- A definition ends with a frame that a brace closes. -/
theorem Frame.IsFrame.cutWords_of_brace {f : Frame α} (h : f.IsFrame b)
    (hc : (b f.closing).1 = .punctuator .braceClose) (rest : List α) :
    Lexis.cutWords b 0 (f.source ++ rest) = f.source :: Lexis.cutWords b 0 rest := by
  have hcloses : Closes b f.closing 0 := ⟨by rw [hc]; rfl, Int.le_refl 0⟩
  rw [h.cutWords_front, cutWords_cons, Int.add_left_neg, if_pos hcloses, foldr_consFirst_cons,
    Frame.source_eq]

/-- Items and what they stand for are cut in the same places, if no frame is cut. -/
theorem map_flatMap_cutItems {f : Item α → List α} (hplain : ∀ a, f (.plain a) = [a])
    {depth : Int} {is : List (Item α)} (h : Itemized b depth is)
    (hframe : ∀ F, .frame F ∈ is → F.IsFrame b → f (.frame F) ≠ [] ∧
      ∀ rest, cutWords b 0 (f (.frame F) ++ rest) =
        (f (.frame F)).foldr Text.consFirst (cutWords b 0 rest)) :
    (cutItems b depth is).map (List.flatMap f) = cutWords b depth (is.flatMap f) := by
  induction is generalizing depth with
  | nil => rfl
  | cons i is ih =>
    rw [List.flatMap_cons]
    cases i with
    | plain a =>
      have ih := ih h.2 fun F hF => hframe F (List.mem_cons_of_mem _ hF)
      unfold behind at ih
      rw [hplain, List.singleton_append, cutItems_plain, cutWords_cons]
      split at ih
      · rw [if_pos ‹_›, if_pos ‹_›, ← ih, List.map_cons]
        simp [hplain]
      · rw [if_neg ‹_›, if_neg ‹_›, ← ih, map_consFirst_flatMap (by simp [hplain]), hplain]
        rfl
    | frame F =>
      obtain ⟨rfl, hF, h⟩ := h
      obtain ⟨hne, hcut⟩ := hframe F (by simp) hF
      rw [hcut, cutItems_frame, ← ih h fun F hF => hframe F (List.mem_cons_of_mem _ hF)]
      exact map_consFirst_flatMap hne _

theorem map_sources_cutItems {depth : Int} {is : List (Item α)} (h : Itemized b depth is)
    (ht : Tidy b is) : (cutItems b depth is).map sources = cutWords b depth (sources is) :=
  map_flatMap_cutItems b (fun _ => rfl) h fun F hF hframe =>
    ⟨by simp [Item.source, Frame.source], hframe.cutWords b (ht F hF)⟩

theorem map_kepts_cutItems {depth : Int} {is : List (Item α)} (h : Itemized b depth is) :
    (cutItems b depth is).map kepts = cutWords b depth (kepts is) := by
  refine map_flatMap_cutItems b (fun _ => rfl) h fun F _ hF => ⟨by simp [Item.kept], fun rest => ?_⟩
  have hname {a : α} (ha : (b a).1 = .name) (as : List α) :
      cutWords b 0 (a :: as) = Text.consFirst a (cutWords b 0 as) := by
    rw [cutWords_cons, ha, if_neg]
    · rfl
    · rintro ⟨hp, -⟩
      rw [ha] at hp
      cases hp
  have hword : (b F.word).1 = .name := by rw [hF.word]
  simp only [Item.kept, List.cons_append, List.nil_append, List.foldr_cons, List.foldr_nil]
  rw [hname hword, hname hF.name]

/-- Where no frame starts in the words, none starts in the first of them. -/
theorem frame?_eq_none_of_append {as more : List α} (h : frame? b (as ++ more) = none) :
    frame? b as = none := by
  cases hf : frame? b as with
  | none => rfl
  | some x =>
    obtain ⟨has, hframe⟩ := frame?_eq_some b hf
    rw [has, List.append_assoc, hframe.frame?_append] at h
    cases h

theorem itemized_cons_of_append {depth : Int} {a : α} {p : List (Item α)} (more : List α)
    (h : depth = 0 → frame? b (a :: (sources p ++ more)) = none)
    (hp : Itemized b (behind b depth a) p) : Itemized b depth (.plain a :: p) :=
  ⟨fun h0 => frame?_eq_none_of_append b (h h0), hp⟩

/-- Each part has the items that it has on its own; in front of the first one the nesting is
`depth`. -/
def AllItemized (depth : Int) : List (List (Item α)) → Prop
  | [] => True
  | p :: ps => Itemized b depth p ∧ ∀ q ∈ ps, Itemized b 0 q

theorem AllItemized.itemized {ps : List (List (Item α))} (h : AllItemized b 0 ps) :
    ∀ p ∈ ps, Itemized b 0 p := by
  cases ps with
  | nil => simp
  | cons p ps => exact List.forall_mem_cons.mpr h

theorem allItemized_cutItems {depth : Int} {is : List (Item α)} (h : Itemized b depth is) :
    AllItemized b depth (cutItems b depth is) := by
  induction is generalizing depth with
  | nil => trivial
  | cons i is ih =>
    cases i with
    | plain a =>
      obtain ⟨hfirst, h⟩ := h
      have ih := ih h
      rw [cutItems_plain]
      unfold behind at h ih
      split at ih
      · rw [if_pos ‹_›]
        exact ⟨⟨fun _ => rfl, trivial⟩, ih.itemized b⟩
      · rename_i hclose
        rw [if_neg hclose]
        have hflat := flatten_cut (p := Item.punctuator? b) (depth + (b a).1.nesting) is
        rcases hcut : cutItems b (depth + (b a).1.nesting) is with _ | ⟨q, qs⟩
        · exact ⟨⟨fun _ => rfl, trivial⟩, by simp⟩
        · rw [hcut] at ih
          rw [show cut (Item.punctuator? b) _ is = q :: qs from hcut, List.flatten_cons] at hflat
          refine ⟨itemized_cons_of_append b (sources qs.flatten) (fun h0 => ?_) ?_, ih.2⟩
          · rw [← hfirst h0, ← hflat, sources, sources, sources, List.flatMap_append]
          · rw [behind, if_neg hclose]
            exact ih.1
    | frame f =>
      obtain ⟨rfl, hf, h⟩ := h
      have ih := ih h
      rw [cutItems_frame]
      rcases hcut : cutItems b 0 is with _ | ⟨q, qs⟩
      · exact ⟨⟨rfl, hf, trivial⟩, by simp⟩
      · rw [hcut] at ih
        exact ⟨⟨rfl, hf, ih.1⟩, ih.2⟩

/-- The parts of items are the items of the parts. -/
theorem cutItems_items {as : List α} (ht : Tidy b (items b 0 as)) :
    cutItems b 0 (items b 0 as) = (cutWords b 0 as).map (items b 0) := by
  obtain ⟨hitemized, hsources⟩ := itemized_items b 0 as
  have hparts : ∀ p ∈ cutItems b 0 (items b 0 as), items b 0 (sources p) = p := fun p hp =>
    items_sources b ((allItemized_cutItems b hitemized).itemized b p hp)
  have hcut := map_sources_cutItems b hitemized ht
  rw [hsources] at hcut
  rw [← hcut, List.map_map]
  conv_lhs => rw [← List.map_id (cutItems b 0 (items b 0 as))]
  exact List.map_congr_left fun p hp => (hparts p hp).symm

theorem cutWords_kepts {as : List α} (ht : Tidy b (items b 0 as)) :
    cutWords b 0 (kepts (items b 0 as)) =
      (cutWords b 0 as).map fun part => kepts (items b 0 part) := by
  rw [← map_kepts_cutItems b (itemized_items b 0 as).1, cutItems_items b ht, List.map_map]
  rfl

/-! ## Numbers of definitions -/

def frames (is : List (Item α)) : List (Frame α) := is.filterMap Item.frame?

@[simp] theorem frames_nil : frames ([] : List (Item α)) = [] := rfl

@[simp] theorem frames_plain (a : α) (is : List (Item α)) :
    frames (.plain a :: is) = frames is := rfl

@[simp] theorem frames_frame (f : Frame α) (is : List (Item α)) :
    frames (.frame f :: is) = f :: frames is := rfl

theorem frames_append (is js : List (Item α)) : frames (is ++ js) = frames is ++ frames js :=
  List.filterMap_append

theorem frames_map_plain (as : List α) : frames (as.map Item.plain) = [] :=
  List.filterMap_eq_nil_iff.mpr fun i hi => by
    obtain ⟨a, -, rfl⟩ := List.mem_map.mp hi
    rfl

theorem mem_frames {f : Frame α} {is : List (Item α)} : f ∈ frames is ↔ .frame f ∈ is := by
  rw [frames, List.mem_filterMap]
  refine ⟨?_, fun h => ⟨.frame f, h, rfl⟩⟩
  rintro ⟨i, hi, he⟩
  cases i with
  | plain a => cases he
  | frame g => cases he; exact hi

/-- The frames with the numbers of their definitions, of which `n` have ended in front. -/
def numbered (depth : Int) (n : Nat) : List (Item α) → List (Nat × Frame α)
  | [] => []
  | .frame f :: is => (n, f) :: numbered depth n is
  | .plain a :: is =>
    if Closes b a (depth + (b a).1.nesting) then numbered 0 (n + 1) is
    else numbered (depth + (b a).1.nesting) n is

theorem numbered_plain (depth : Int) (n : Nat) (a : α) (is : List (Item α)) :
    numbered b depth n (.plain a :: is) = numbered b (behind b depth a)
      (if Closes b a (depth + (b a).1.nesting) then n + 1 else n) is := by
  rw [numbered, behind]
  split <;> rfl

theorem map_snd_numbered (depth : Int) (n : Nat) (is : List (Item α)) :
    (numbered b depth n is).map Prod.snd = frames is := by
  fun_induction numbered b depth n is <;> simp_all

theorem le_of_mem_numbered {depth : Int} {n : Nat} {is : List (Item α)} {x : Nat × Frame α}
    (h : x ∈ numbered b depth n is) : n ≤ x.1 := by
  fun_induction numbered b depth n is with
  | case1 => simp at h
  | case2 depth n f is ih =>
    rcases List.mem_cons.mp h with rfl | h
    · exact le_refl _
    · exact ih h
  | case3 depth n a is hclose ih => exact Nat.le_of_succ_le (ih h)
  | case4 depth n a is hclose ih => exact ih h

/-- The frames with one number are those of one part. -/
theorem filter_numbered (depth : Int) (n i : Nat) (is : List (Item α)) :
    ((numbered b depth n is).filter (·.1 == n + i)).map Prod.snd =
      frames (((cutItems b depth is)[i]?).getD []) := by
  induction is generalizing depth n i with
  | nil => simp [numbered, cutItems, cut]
  | cons item is ih =>
    cases item with
    | plain a =>
      rw [numbered, cutItems_plain]
      split
      · cases i with
        | zero =>
          have hnone : (numbered b 0 (n + 1) is).filter (·.1 == n) = [] := by
            simp only [List.filter_eq_nil_iff, beq_iff_eq]
            intro x hx
            have := le_of_mem_numbered b hx
            omega
          simp [hnone]
        | succ i =>
          rw [show n + (i + 1) = n + 1 + i by omega, ih]
          simp
      · rw [ih]
        rcases cutItems b (depth + (b a).1.nesting) is with _ | ⟨p, ps⟩ <;> cases i <;>
          simp [Text.consFirst]
    | frame f =>
      rw [numbered, cutItems_frame]
      have ih := ih depth n i
      cases hcut : cutItems b depth is <;> rw [hcut] at ih <;> cases i <;>
        simpa [Text.consFirst] using ih

/-! ## Other forms of words -/

def Frame.map (f : α → β) (x : Frame α) : Frame β :=
  ⟨f x.word, f x.name, f x.opening, x.inner.map f, f x.closing⟩

def Item.map (f : α → β) : Item α → Item β
  | plain a => plain (f a)
  | frame x => frame (x.map f)

variable (d : β → Bare) (f : α → β)

theorem closing?_map (depth : Int) (as : List α) : closing? d depth (as.map f) =
    (closing? (d ∘ f) depth as).map fun x => (x.1.map f, f x.2.1, x.2.2.map f) := by
  induction as generalizing depth with
  | nil => rfl
  | cons a as ih =>
    simp only [List.map_cons, closing?, Function.comp_apply]
    split
    · rfl
    · rw [ih, Option.map_map, Option.map_map]
      rfl

theorem frame?_map (as : List α) : frame? d (as.map f) =
    (frame? (d ∘ f) as).map fun x => (x.1.map f, x.2.map f) := by
  rcases as with _ | ⟨word, _ | ⟨name, _ | ⟨opening, as⟩⟩⟩
  · rfl
  · rfl
  · rfl
  · simp only [List.map_cons, frame?, Function.comp_apply]
    split
    · rw [closing?_map, Option.map_map, Option.map_map]
      rfl
    · rfl

theorem items_map (depth : Int) (as : List α) :
    items d depth (as.map f) = (items (d ∘ f) depth as).map (Item.map f) := by
  fun_induction items (d ∘ f) depth as with
  | case1 depth as x rest h ih =>
    split at h
    · obtain rfl : depth = 0 := ‹_›
      have hmap : frame? d (as.map f) = some (x.map f, rest.map f) := by
        rw [frame?_map, h]
        rfl
      rw [items_of_frame? d hmap, ih]
      rfl
    · cases h
  | case2 => exact items_nil d _
  | case3 depth a as h ih =>
    have hmap : depth = 0 → frame? d (f a :: as.map f) = none := by
      intro h0
      rw [if_pos h0] at h
      rw [← List.map_cons, frame?_map, h]
      rfl
    rw [List.map_cons, items_cons d hmap, List.map_cons, ← ih]
    rfl

theorem kepts_map (is : List (Item α)) : kepts (is.map (Item.map f)) = (kepts is).map f := by
  induction is with
  | nil => rfl
  | cons i is ih =>
    simp only [kepts, List.map_cons, List.flatMap_cons, List.map_append] at ih ⊢
    rw [ih]
    cases i <;> rfl

theorem numbered_map (depth : Int) (n : Nat) (is : List (Item α)) :
    numbered d depth n (is.map (Item.map f)) =
      (numbered (d ∘ f) depth n is).map fun x => (x.1, x.2.map f) := by
  fun_induction numbered (d ∘ f) depth n is with
  | case1 => rfl
  | case2 depth n x is ih => rw [List.map_cons, Item.map, numbered, ih]; rfl
  | case3 depth n a is hclose ih =>
    exact (if_pos hclose).trans ih
  | case4 depth n a is hclose ih =>
    exact (if_neg hclose).trans ih

end QueryDoc.Lexis
