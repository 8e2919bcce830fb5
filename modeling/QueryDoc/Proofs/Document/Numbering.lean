import Mathlib.Data.List.Nodup
import QueryDoc.Proofs.Document.Groups

/-!
# Numbers of definitions

Definitions are counted twice: where groups are looked for, which takes a group as a whole, and
where a text is cut into definitions, which looks at every token. The first count misses the
definitions that end with the brace that closes a group, and no others
(`exists_definition_of_group`). So where no group is closed by a brace, the number of a group is
that of the one definition that its tokens stand in (`definition_of_group`).
-/
namespace QueryDoc

open QueryDoc.Lexis

/-! ## Frames and parts -/

namespace Lexis

variable {α : Type} {b : α → Bare}

/-- Parts of a list without duplicates have no element in common. -/
theorem eq_of_mem_of_mem {α : Type} {ps : List (List α)} (h : ps.flatten.Nodup) {i j : Nat}
    {p q : List α} (hp : ps[i]? = some p) (hq : ps[j]? = some q) {a : α} (hap : a ∈ p)
    (haq : a ∈ q) : i = j := by
  obtain ⟨hi, rfl⟩ := List.getElem?_eq_some_iff.mp hp
  obtain ⟨hj, rfl⟩ := List.getElem?_eq_some_iff.mp hq
  have hdisjoint := List.pairwise_iff_getElem.mp (List.nodup_flatten.mp h).2
  rcases Nat.lt_trichotomy i j with hlt | heq | hlt
  · exact absurd haq (hdisjoint i j hi hj hlt hap)
  · exact heq
  · exact absurd hap (hdisjoint j i hj hi hlt haq)

/-- Is the frame closed by a brace? -/
def Frame.endsInBrace (b : α → Bare) (f : Frame α) : Bool :=
  (b f.closing).1 == .punctuator .braceClose

/-- What is put in front of the first part leaves the number of each part as it is. -/
theorem exists_part_of_foldr {ps : List (List α)} {m : Nat} {part : List α}
    (h : ps[m]? = some part) (front : List α) :
    ∃ more, (front.foldr Text.consFirst ps)[m]? = some more ∧ part <:+: more := by
  rcases ps with _ | ⟨p, ps⟩
  · cases h
  · rw [foldr_consFirst_cons]
    cases m with
    | zero =>
      obtain rfl : p = part := Option.some.inj h
      exact ⟨front ++ p, rfl, (List.suffix_append front p).isInfix⟩
    | succ m => exact ⟨part, h, List.infix_rfl⟩

/-- The first part has what is put in front of it. -/
theorem exists_first_part {front : List α} (h : front ≠ []) (ps : List (List α)) :
    ∃ more, (front.foldr Text.consFirst ps)[0]? = some more ∧ front <:+: more := by
  rcases ps with _ | ⟨p, ps⟩
  · exact ⟨front, by rw [foldr_consFirst_nil h]; rfl, List.infix_rfl⟩
  · exact ⟨front ++ p, by rw [foldr_consFirst_cons]; rfl, (List.prefix_append front p).isInfix⟩

theorem Frame.IsFrame.cutWords_of_endsInBrace {f : Frame α} (h : f.IsFrame b) (rest : List α) :
    Lexis.cutWords b 0 (f.source ++ rest) =
      if f.endsInBrace b then f.source :: Lexis.cutWords b 0 rest
      else f.source.foldr Text.consFirst (Lexis.cutWords b 0 rest) := by
  split
  · rename_i hends
    exact h.cutWords_of_brace b (beq_iff_eq.mp hends) rest
  · rename_i hends
    exact h.cutWords b (fun hc => hends (beq_iff_eq.mpr hc)) rest

/-- The number of a frame falls short of the number of the part that it stands in by the number of
frames in front that are closed by a brace. -/
theorem exists_part_of_numbered {depth : Int} {is : List (Item α)} (h : Itemized b depth is)
    {n j i : Nat} {f : Frame α} (hf : (numbered b depth n is)[j]? = some (n + i, f)) :
    ∃ part, (cutWords b depth (sources is))[i + ((frames is).take j).countP
      (Frame.endsInBrace b)]? = some part ∧ f.source <:+: part := by
  induction is generalizing depth n j i with
  | nil => cases hf
  | cons item is ih =>
    rw [sources, List.flatMap_cons, ← sources]
    cases item with
    | plain a =>
      obtain ⟨-, h⟩ := h
      rw [numbered_plain] at hf
      unfold behind at h hf
      rw [Item.source, List.singleton_append, cutWords_cons, frames_plain]
      split at h
      · rename_i hcloses
        rw [if_pos hcloses, if_pos hcloses] at hf
        obtain ⟨i, rfl⟩ : ∃ k, i = k + 1 := by
          have hle := le_of_mem_numbered b (List.mem_of_getElem? hf)
          exact ⟨i - 1, by simp only at hle; omega⟩
        rw [if_pos hcloses, Nat.add_right_comm, List.getElem?_cons_succ]
        refine ih h (n := n + 1) ?_
        rw [hf, Nat.add_right_comm, Nat.add_assoc]
      · rename_i hopen
        rw [if_neg hopen, if_neg hopen] at hf
        obtain ⟨part, hpart, hwithin⟩ := ih h hf
        obtain ⟨more, hmore, hinside⟩ := exists_part_of_foldr hpart [a]
        rw [if_neg hopen]
        exact ⟨more, hmore, hwithin.trans hinside⟩
    | frame g =>
      obtain ⟨rfl, hframe, h⟩ := h
      rw [Item.source, hframe.cutWords_of_endsInBrace, frames_frame]
      cases j with
      | zero =>
        obtain ⟨hi, rfl⟩ : n = n + i ∧ g = f := Prod.mk.inj (Option.some.inj hf)
        obtain rfl : i = 0 := by omega
        split
        · exact ⟨g.source, rfl, List.infix_rfl⟩
        · exact exists_first_part (by simp [Frame.source]) _
      | succ j =>
        obtain ⟨part, hpart, hwithin⟩ := ih h hf
        rw [List.take_succ_cons, List.countP_cons]
        split
        · exact ⟨part, hpart, hwithin⟩
        · obtain ⟨more, hmore, hinside⟩ := exists_part_of_foldr hpart g.source
          exact ⟨more, hmore, hwithin.trans hinside⟩

end Lexis

/-! ## Groups of a text -/

/-- No token stands in two places. -/
theorem Ordered.nodup {ts : List Token} (h : Ordered ts) : ts.Nodup := by
  refine List.Pairwise.imp_of_mem ?_ h.pairwise
  rintro t u ht - hle rfl
  have hlt := h.wide t ht
  omega

theorem nodup_flatten_cutDefinitions (text : List Char) :
    (cutDefinitions 0 (significant text)).flatten.Nodup := by
  rw [flatten_cutDefinitions]
  exact (ordered_significant text).nodup

/-- Is the group closed by a brace? -/
def VariableGroup.endsInBrace (g : VariableGroup) : Bool :=
  g.closing.kind == .punctuator .braceClose

/-- The group stands in the definition with the number `i`, which has the given tokens, together
with the `fragment` and the name in front of it and with nothing in between. They stand in no other
definition, and the key of this one is the body that goes with its number. -/
structure VariableGroup.StandsIn (text : String) (g : VariableGroup) (i : Nat) (f : Frame Token)
    (part : List Token) : Prop where
  frame : f.IsFrame Token.bare
  group : g = .ofFrame g.definition f
  definition : (cutDefinitions 0 (significant text.toList))[i]? = some part
  body : (definitionKeys text)[i]? = some (String.ofList (joined part))
  within : f.source <:+: part
  alone : ∀ t ∈ f.source, ∀ k other,
    (cutDefinitions 0 (significant text.toList))[k]? = some other → t ∈ other → k = i

/-- A group stands in a definition whose number exceeds that of the group by the number of groups in
front that are closed by a brace. -/
theorem exists_definition_of_group {text : String} {j : Nat} {g : VariableGroup}
    (hg : (VariableGroup.ofText text.toList)[j]? = some g) :
    ∃ f part, g.StandsIn text
      (g.definition + ((VariableGroup.ofText text.toList).take j).countP VariableGroup.endsInBrace)
      f part := by
  obtain ⟨hitemized, hsources⟩ := itemized_items Token.bare 0 (significant text.toList)
  have hgroups := ofText_eq text.toList
  have hcount : ((VariableGroup.ofText text.toList).take j).countP VariableGroup.endsInBrace =
      ((frames (items Token.bare 0 (significant text.toList))).take j).countP
        (Frame.endsInBrace Token.bare) := by
    rw [hgroups, ← map_snd_numbered Token.bare 0 0, ← List.map_take, ← List.map_take,
      List.countP_map, List.countP_map]
    rfl
  rw [hgroups, List.getElem?_map, Option.map_eq_some_iff] at hg
  obtain ⟨⟨i, f⟩, hf, rfl⟩ := hg
  obtain ⟨hframe, -⟩ := exists_tokens_eq_of_mem (List.mem_of_getElem? hf)
  rw [← Nat.zero_add i] at hf
  obtain ⟨part, hpart, hwithin⟩ := exists_part_of_numbered hitemized hf
  rw [hsources, ← hcount] at hpart
  have hdefinition : (cutDefinitions 0 (significant text.toList))[i +
      ((VariableGroup.ofText text.toList).take j).countP VariableGroup.endsInBrace]? =
        some part := by
    rw [cutDefinitions_eq_cut]
    exact hpart
  refine ⟨f, part, hframe, rfl, hdefinition, ?_, hwithin, ?_⟩
  · rw [definitionKeys, List.getElem?_map]
    exact congrArg (Option.map _) hdefinition
  · intro t ht k other hother hto
    exact eq_of_mem_of_mem (nodup_flatten_cutDefinitions text.toList) hother hdefinition hto
      (hwithin.subset ht)

/-- Where every group is closed by a parenthesis, a group stands in the definition that has its
number, together with the `fragment` and the name in front of it, and its body is the key of that
definition. -/
theorem definition_of_group {text : String}
    (h : ∀ g ∈ VariableGroup.ofText text.toList, g.closing.kind = .punctuator .parenClose)
    {g : VariableGroup} (hg : g ∈ VariableGroup.ofText text.toList) :
    ∃ f part, g.StandsIn text g.definition f part := by
  obtain ⟨j, hj⟩ := List.mem_iff_getElem?.mp hg
  have hnone : ((VariableGroup.ofText text.toList).take j).countP VariableGroup.endsInBrace = 0 := by
    rw [List.countP_eq_zero]
    intro other hother
    rw [VariableGroup.endsInBrace, h other (List.mem_of_mem_take hother)]
    decide
  have hstands := exists_definition_of_group hj
  rwa [hnone] at hstands

/-- Two surplus braces in front of a group with nested brackets. -/
def surplusBraces : String := "\x7d ] \x7d fragment A($a: [I \x7b x \x7d]) \x7d fragment B"

/-- Behind two surplus braces, a group with nested brackets stands in the third definition. -/
theorem definition_of_group_unbalanced :
    ∃ g ∈ VariableGroup.ofText surplusBraces.toList, g.definition = 2 ∧
      ∃ (f : Frame Token) (part : List Token), g.StandsIn surplusBraces 2 f part ∧
        String.ofList (joined part) = "fragment A ( $ a : [ I \x7b x \x7d ] ) \x7d" := by
  have hclosed : ∀ g ∈ VariableGroup.ofText surplusBraces.toList,
      g.closing.kind = .punctuator .parenClose := by decide +kernel
  obtain ⟨g, hg, hthird⟩ : ∃ g ∈ VariableGroup.ofText surplusBraces.toList, g.definition = 2 := by
    decide +kernel
  have hkey : (definitionKeys surplusBraces)[2]? =
      some "fragment A ( $ a : [ I \x7b x \x7d ] ) \x7d" := by decide +kernel
  obtain ⟨f, part, hstands⟩ := definition_of_group hclosed hg
  rw [hthird] at hstands
  exact ⟨g, hg, hthird, f, part, hstands, Option.some.inj (hstands.body.symm.trans hkey)⟩

end QueryDoc
