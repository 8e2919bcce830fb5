import QueryDoc.Proofs.Document.Meaning
import QueryDoc.Proofs.Document.Standing

/-!
# A text without groups

A text that is accepted without variable groups has none, so it is parsed alike when they are looked
for (`parse_extends`): only the fragments say that they declare no variables.
-/
namespace QueryDoc

open QueryDoc.Lexis QueryDoc.Grammar

/-- The fragment with no variables declared, as it is read when variables are asked for. -/
def Definition.withoutVariables : Definition → Definition
  | operation o => operation o
  | fragment f => fragment { f with declared := some ⟨[], none⟩ }

theorem ast_withoutVariables (d : Definition) : d.withoutVariables.ast = d.ast := by
  cases d <;> rfl

/-- Where the words of a text spell definitions, the text has no groups. -/
theorem ofText_of_spells {text : List Char} {shapes : List Ast.Definition}
    (h : Spells (bares text) shapes) : VariableGroup.ofText text = [] := by
  have hitems := items_of_parts Word.bare h.means (flatten_cut 0 (bares text)).symm []
  rw [items_nil, List.append_nil, List.append_nil] at hitems
  have hframes : (numbered Word.bare 0 0 (items Word.bare 0 (words text))).map Prod.snd = [] := by
    rw [map_snd_numbered, hitems, frames_map_plain]
  have hlocated := located_ofText text
  rw [List.map_eq_nil_iff.mp hframes] at hlocated
  exact List.forall₂_nil_left_iff.mp hlocated

theorem declared_of_mem_assemble {asts : List Ast.Definition} {bodies : List String} {f : Fragment}
    (h : .fragment f ∈ assemble ⟨false⟩ asts [] bodies) : f.declared = none := by
  obtain ⟨i, hi, hf⟩ := List.mem_mapIdx.mp h
  generalize (asts.zip bodies)[i] = x at hf
  obtain ⟨ast, body⟩ := x
  cases ast with
  | operation o => cases hf
  | fragment a => cases hf; rfl

theorem assemble_withoutVariables (asts : List Ast.Definition) (bodies : List String) :
    assemble ⟨true⟩ asts [] bodies =
      (assemble ⟨false⟩ asts [] bodies).map Definition.withoutVariables := by
  unfold assemble
  rw [List.mapIdx_eq_zipIdx_map, List.mapIdx_eq_zipIdx_map, List.map_map]
  refine List.map_congr_left fun x _ => ?_
  obtain ⟨⟨_ | _, body⟩, i⟩ := x <;> rfl

/-- A text without error tokens that is accepted without variable groups is accepted with them, and
its definitions are the same but for one thing: each fragment says that it declares no variables,
and without groups none says anything. -/
theorem parse_extends {text : String} (hsound : ∀ t ∈ tokens text.toList, t.kind.isError = false)
    {ds : List Definition} (h : parse ⟨false⟩ text = .ok ds) :
    parse ⟨true⟩ text = .ok (ds.map Definition.withoutVariables) ∧
      ∀ f, .fragment f ∈ ds → f.declared = none := by
  obtain ⟨groups, asts, hgroups, hread, rfl⟩ := parse_eq_ok_iff.mp h
  cases hgroups
  refine ⟨?_, fun f => declared_of_mem_assemble⟩
  obtain ⟨-, hspells⟩ := (exists_read_iff_spells (faultless_of_sound hsound)).mp ⟨asts, hread, rfl⟩
  have hnone : VariableGroup.ofText text.toList = [] := ofText_of_spells hspells
  have htext : grammarText ⟨true⟩ text.toList = text.toList := by
    rw [grammarText, if_pos rfl, hnone]
    exact blankFrom_nil 0 _
  rw [← assemble_withoutVariables]
  refine parse_eq_ok_iff.mpr ⟨[], asts, ?_, htext.symm ▸ hread, rfl⟩
  rw [groupsOf, if_pos rfl, hnone]
  rfl

/-- Variables of a query are none of a fragment's. -/
theorem parse_extends_query :
    ∃ ds, parse ⟨false⟩ "query Q($a: Int) \x7b x \x7d fragment F on T \x7b y(a: $a) \x7d" = .ok ds ∧
      parse ⟨true⟩ "query Q($a: Int) \x7b x \x7d fragment F on T \x7b y(a: $a) \x7d" =
        .ok (ds.map Definition.withoutVariables) := by
  obtain ⟨ds, hds⟩ := @exists_parse_of_isSome ⟨false⟩
    "query Q($a: Int) \x7b x \x7d fragment F on T \x7b y(a: $a) \x7d" (by decide +kernel)
  exact ⟨ds, hds, (parse_extends (by decide +kernel) hds).1⟩

/-- A string with a carriage return is cut there, and what it holds behind that is blanked out if it
looks like a group. -/
theorem not_parse_extends_of_brokenString :
    ∃ ds, parse ⟨false⟩ "\x7b y(a: \"\r)\x7d fragment F($x: Int) \" \r) \x7d" = .ok ds ∧
      parse ⟨true⟩ "\x7b y(a: \"\r)\x7d fragment F($x: Int) \" \r) \x7d" ≠
        .ok (ds.map Definition.withoutVariables) := by
  have hprint : ((parse ⟨true⟩ "\x7b y(a: \"\r)\x7d fragment F($x: Int) \" \r) \x7d").toOption.map
        fun ds => ds.map fun d => d.ast.print) ≠
      (parse ⟨false⟩ "\x7b y(a: \"\r)\x7d fragment F($x: Int) \" \r) \x7d").toOption.map
        fun ds => ds.map fun d => d.ast.print := by decide +kernel
  obtain ⟨ds, hds⟩ := @exists_parse_of_isSome ⟨false⟩
    "\x7b y(a: \"\r)\x7d fragment F($x: Int) \" \r) \x7d" (by decide +kernel)
  refine ⟨ds, hds, fun he => hprint ?_⟩
  rw [he, hds]
  simp [Except.toOption, ast_withoutVariables]

end QueryDoc
