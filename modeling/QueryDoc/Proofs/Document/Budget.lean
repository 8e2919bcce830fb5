import QueryDoc.Proofs.Document.Rejection
import QueryDoc.Proofs.Grammar.Counting

/-!
# Groups and the budget

The grammar reads a text without its groups, but its lexer would go over them as well: what is read
as the variables of a query leaves the budget of nesting as it was (`Declares.spends`). So in an
accepted text without error tokens the lexer finds no fault, with or without the groups
(`fault_lexemes_eq_none`).
-/
namespace QueryDoc

open QueryDoc.Lexis QueryDoc.Grammar

/-! ## Words of a group -/

theorem Grammar.spend?_of_closing {b : Bare} (h : b.1.nesting = -1) (budget : Nat) :
    refusal? b = none ∧ spend? budget (category b) = some (budget + 1) := by
  obtain ⟨kind, text⟩ := b
  cases kind with
  | punctuator p => cases p <;> first | exact ⟨rfl, rfl⟩ | cases h
  | _ => cases h

/-- A group that declares variables leaves the budget as it was. -/
theorem Declares.spends {f : Frame Bare} {v : FragmentVariables} (h : Declares f v)
    (hf : f.IsFrame id) {budget : Nat} (hb : nestingBudget ≤ budget) :
    Spends budget f.group budget := by
  obtain ⟨head, selections, -, -, hs⟩ := h.spells
  have hclosing := hf.closing []
  have hlevel : level (sign id) f.inner = 0 := (h.nested_inner hclosing).level_eq
  have hfault := hs.fault
  rw [queryBares, List.append_assoc] at hfault
  obtain ⟨front, hfront, hfault⟩ := exists_spends hfault
  obtain ⟨behind, hinner, -⟩ := exists_spends hfault
  -- the variables are read with one bracket of the query open, and leave it open
  have hopen : front + 1 = nestingBudget := by
    have hleft := hfront.level_eq
    have hquery : level (fun b : Bare => b.1.punctuator?) (queryFront.map Word.bare) = 1 := rfl
    omega
  obtain rfl : behind = front := by
    have hleft := hinner.level_eq
    have hzero : level (fun b : Bare => b.1.punctuator?) f.inner = 0 := hlevel
    omega
  obtain ⟨more, rfl⟩ := Nat.exists_eq_add_of_le hb
  have hshift : behind + more + 1 = nestingBudget + more := by omega
  obtain ⟨hr, hspend⟩ := spend?_of_closing (nesting_of_closing? (b := id) (Int.le_refl 1) hclosing)
    (behind + more)
  have hinner := (hinner.add more).append (.cons hr hspend (.nil _))
  rw [hshift] at hinner
  have hopening : f.opening = (.punctuator .parenOpen, f.opening.2) :=
    Prod.ext hf.opening rfl
  rw [Frame.group, hopening]
  refine .cons rfl ?_ hinner
  rw [← hshift]
  rfl

/-- Groups that declare variables do not change which fault the grammar finds first. -/
theorem fault?_sources {is : List (Item Bare)} {depth : Int} (hi : Itemized id depth is)
    (hd : ∀ f ∈ frames is, ∃ v, Declares f v) {budget : Nat}
    (hb : (nestingBudget : Int) ≤ budget + depth) :
    fault? budget (sources is) = fault? budget (kepts is) := by
  induction is generalizing depth budget with
  | nil => rfl
  | cons i is ih =>
    cases i with
    | plain a =>
      change fault? budget (a :: sources is) = fault? budget (a :: kepts is)
      rw [fault?, fault?]
      cases hr : refusal? a with
      | some reason => rfl
      | none =>
        cases hs : spend? budget (category a) with
        | none => rfl
        | some left =>
          refine ih hi.2 hd ?_
          have hleft := spend?_of_nesting hs
          have hbehind : depth + a.1.nesting ≤ behind id depth a := by
            unfold behind
            split
            · exact (‹Closes id a _› : _ ∧ _).2
            · exact Int.le_refl _
          omega
    | frame f =>
      obtain ⟨rfl, hf, hi⟩ := hi
      obtain ⟨⟨v, hv⟩, hd⟩ := List.forall_mem_cons.mp hd
      have hgroup : Spends budget f.group budget := hv.spends hf (by omega)
      have hword : Spends budget [f.word, f.name] budget := by
        have hname : f.name = (.name, f.name.2) := Prod.ext hf.name rfl
        rw [show f.word = (.name, "fragment".toList) from hf.word, hname]
        exact .cons rfl rfl (.cons rfl rfl (.nil _))
      change fault? budget (([f.word, f.name] ++ f.group) ++ sources is) =
        fault? budget ([f.word, f.name] ++ kepts is)
      rw [(hword.append hgroup).fault?_append, hword.fault?_append, ih hi hd hb]

/-! ## Accepted texts -/

/-- Each group is located where a frame is. -/
theorem Lexis.exists_located_of_mem {text : List Char} {g : VariableGroup}
    (hg : g ∈ VariableGroup.ofText text) :
    ∃ n, ∃ f ∈ frames (items Word.bare 0 (words text)), Located text (n, f) g := by
  obtain ⟨i, hi⟩ := List.getElem?_of_mem hg
  obtain ⟨⟨n, f⟩, hx, hlocated⟩ := exists_of_forall₂ (located_ofText text).flip hi
  refine ⟨n, f, ?_, hlocated⟩
  rw [← map_snd_numbered Word.bare 0 0]
  exact List.mem_map_of_mem (List.mem_of_getElem? hx)

theorem isFrame_map_bare {text : List Char} {f : Frame Word}
    (hf : f ∈ frames (items Word.bare 0 (words text))) : (f.map Word.bare).IsFrame id := by
  have hmem : .frame (f.map Word.bare) ∈ items id 0 (bares text) := by
    rw [items_bares]
    exact List.mem_map_of_mem (f := Item.map Word.bare) (mem_frames.mp hf)
  exact (itemized_items id 0 (bares text)).1.isFrame hmem

section

variable {text : String} {ds : List Definition} (h : parse ⟨true⟩ text = .ok ds)
  (hsound : ∀ t ∈ tokens text.toList, t.kind.isError = false)

include h hsound

/-- In an accepted text, each frame declares variables, and no number in it is glued. -/
theorem declares_of_located {f : Frame Word}
    (hf : f ∈ frames (items Word.bare 0 (words text.toList))) {n : Nat} {g : VariableGroup}
    (hg : g ∈ VariableGroup.ofText text.toList) (hlocated : Located text.toList (n, f) g) :
    Unglued f.inner ∧ ∃ v, Declares (f.map Word.bare) v := by
  obtain ⟨v, hv⟩ := exists_groupRead_of_parse h hg
  have hfaultless : Faultless f.inner := fun w hw =>
    faultless_of_sound hsound w (inner_subset_of_mem_frames hf hw)
  obtain ⟨hu, hd⟩ := (exists_groupRead_iff hlocated hfaultless).mp ⟨v, hv, rfl⟩
  exact ⟨hu, _, hd⟩

/-- The lexer of the grammar finds no fault in an accepted text, whose groups it never gets to see.
-/
theorem fault_lexemes_eq_none : (lexemes text.toList).2.fault = none ∧
    (lexemes text.toList).1.map Lexeme.face = (bares text.toList).map face := by
  obtain ⟨groups, asts, -, hread, -⟩ := parse_eq_ok_iff.mp h
  have hfaultless := faultless_of_sound hsound
  obtain ⟨hu, hspells⟩ := spells_of_read hfaultless hread
  have hframes : ∀ f ∈ frames (items Word.bare 0 (words text.toList)),
      Unglued f.inner ∧ ∃ v, Declares (f.map Word.bare) v := fun f hf => by
    obtain ⟨n, g, hg, hlocated⟩ := exists_located hf
    exact declares_of_located h hsound hf hg hlocated
  have hunglued : Unglued (words text.toList) :=
    (unglued_iff ⟨true⟩ _).mpr ⟨hu, fun _ f hf => (hframes f hf).1⟩
  obtain ⟨hitemized, hsources⟩ := itemized_items id 0 (bares text.toList)
  have hdeclares : ∀ f ∈ frames (items id 0 (bares text.toList)), ∃ v, Declares f v := by
    intro f hf
    rw [items_bares, mem_frames] at hf
    obtain ⟨_ | f', hf', he⟩ := List.mem_map.mp hf
    · cases he
    · cases he
      exact (hframes f' (mem_frames.mpr hf')).2
  have hbudget : (nestingBudget : Int) ≤ nestingBudget + 0 := by simp
  have hfault := fault?_sources hitemized hdeclares hbudget
  have hkepts : fault? nestingBudget (kepts (items id 0 (bares text.toList))) = none :=
    (congrArg _ (bares_grammarText ⟨true⟩ text.toList)).symm.trans hspells.fault
  rw [hsources, hkepts] at hfault
  obtain ⟨hnone, hfaces⟩ := lexemesFrom_of_faultless nestingBudget Grammar.start hfaultless
  have hnone := (hnone hunglued).trans hfault
  exact ⟨hnone, (hfaces hnone).2⟩

/-- The lexer of the grammar finds no fault in a group either. -/
theorem fault_lexemes_group {g : VariableGroup} (hg : g ∈ VariableGroup.ofText text.toList)
    {gap : List Char} (hgap : dropIgnored false gap = []) :
    Faultless (words (slice g.first g.last text.toList ++ gap)) ∧
      (lexemes (slice g.first g.last text.toList ++ gap)).2.fault = none := by
  obtain ⟨n, f, hf, hlocated⟩ := exists_located_of_mem hg
  obtain ⟨hu, v, hv⟩ := declares_of_located h hsound hf hg hlocated
  have hwords := hlocated.words_group gap
  rw [words_of_dropIgnored_nil hgap, List.append_nil] at hwords
  have hfaultless : Faultless f.group := by
    have hframe := sound_of_mem_frames hf
    refine List.forall_mem_cons.mpr ⟨hframe.opening, List.forall_mem_append.mpr ⟨fun w hw => ?_,
      by simpa using hframe.closing⟩⟩
    exact faultless_of_sound hsound w (inner_subset_of_mem_frames hf hw)
  have hunglued : Unglued f.group := by
    obtain ⟨hopening, hclosing⟩ := hlocated.unglued
    exact List.forall_mem_cons.mpr ⟨hopening, List.forall_mem_append.mpr ⟨hu, by simpa⟩⟩
  have hspends := hv.spends (isFrame_map_bare hf) (Nat.le_refl nestingBudget)
  have hbares : bares (slice g.first g.last text.toList ++ gap) = (f.map Word.bare).group := by
    rw [bares, hwords]
    simp [Frame.group, Frame.map]
  have hfault := hspends.fault?_append []
  rw [List.append_nil, ← hbares] at hfault
  rw [← hwords] at hfaultless hunglued
  obtain ⟨hnone, -⟩ := lexemesFrom_of_faultless nestingBudget Grammar.start hfaultless
  exact ⟨hfaultless, (hnone hunglued).trans hfault⟩

end

end QueryDoc
