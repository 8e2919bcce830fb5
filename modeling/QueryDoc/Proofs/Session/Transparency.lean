import QueryDoc.Proofs.Document.Alike
import QueryDoc.Proofs.Session.Run

/-!
# Transparency

What an engine answers to a plain text is what the text means on its own, but for the positions and
the fragments that come twice. This can fail in one way only: where a number of the text is glued to
what follows it, and a text with the same key was parsed before.
-/
namespace QueryDoc

open QueryDoc.Lexis QueryDoc.Grammar

/-! ## First occurrences -/

/-- The definition of a node. -/
def Node.definition : Node → Definition
  | operation o => .operation o.value
  | fragment f => .fragment f.value

def Node.shape (n : Node) : Definition := n.definition.shape

/-- The definitions but the fragments that are like an earlier one or one of those seen. -/
def firstsFrom (seen : List Fragment) : List Definition → List Definition
  | [] => []
  | .operation o :: ds => .operation o :: firstsFrom seen ds
  | .fragment f :: ds =>
    if seen.any (·.alike f) then firstsFrom seen ds
    else .fragment f :: firstsFrom (seen ++ [f]) ds

theorem firstsFrom_of_any {seen : List Fragment} {f : Fragment} (h : seen.any (·.alike f) = true)
    (ds : List Definition) : firstsFrom seen (.fragment f :: ds) = firstsFrom seen ds := if_pos h

theorem firstsFrom_of_not_any {seen : List Fragment} {f : Fragment}
    (h : seen.any (·.alike f) = false) (ds : List Definition) :
    firstsFrom seen (.fragment f :: ds) = .fragment f :: firstsFrom (seen ++ [f]) ds :=
  if_neg (Bool.eq_false_iff.mp h)

/-- The definitions but the fragments that are like an earlier one. -/
def firsts (ds : List Definition) : List Definition := firstsFrom [] ds

theorem map_definition_instances (next : Nat) (ds : List Definition) :
    (instances next ds).map Node.definition = ds := by
  have hdefinition : (Node.definition ∘ fun x : Definition × Nat => x.1.instance (next + x.2)) =
      Prod.fst := by
    funext x
    obtain ⟨d, i⟩ := x
    cases d <;> rfl
  unfold instances
  rw [List.mapIdx_eq_zipIdx_map, List.map_map]
  exact (congrArg (List.map · ds.zipIdx) hdefinition).trans (List.zipIdx_map_fst 0 ds)

/-- Every fragment of the registry was read from a regular text. -/
def Registry.Stems (o : ParseOptions) (r : Registry) : Prop :=
  ∀ f ∈ r.fragments, QueryDoc.Stems o (.fragment f.value)

theorem Registry.Stems.registering {o : ParseOptions} {r : Registry} {f : Instance Fragment}
    (h : r.Stems o) (hf : QueryDoc.Stems o (.fragment f.value)) : (r.registering f).Stems o := by
  cases hi : r.instance? f.value with
  | some g => rwa [registering_of_some hi]
  | none =>
    rw [registering_of_none hi, Stems, add, List.forall_mem_append]
    exact ⟨h, by simpa using hf⟩

/-- The instance that a registry has for a fragment has its shape. -/
theorem Registry.Stems.shape_eq {o : ParseOptions} {r : Registry} (h : r.Stems o) {f : Fragment}
    (hf : QueryDoc.Stems o (.fragment f)) {g : Instance Fragment} (hg : r.instance? f = some g) :
    g.value.shape = f.shape :=
  (h g (mem_of_instance? hg)).shape_eq hf (alike_of_instance? hg)

namespace Merge

variable {o : ParseOptions} {m : Merge}

/-- The shapes of the fragments that a merge keeps. -/
def seen (m : Merge) : List Fragment := (fragmentsIn m.kept).map fun f => f.value.shape

theorem any_seen (m : Merge) (f : Fragment) : m.seen.any (·.alike f.shape) = m.keeps f := by
  rw [seen, List.any_map]
  rfl

theorem stems_step (hm : m.registry.Stems o) {n : Node} (hn : QueryDoc.Stems o n.definition) :
    (m.step n).registry.Stems o := by
  rcases m.step_cases n with ⟨p, rfl, hregistry, -⟩ | ⟨f, rfl, -, hstep⟩ |
    ⟨f, rfl, -, hregistry, -⟩
  · rwa [hregistry]
  · rwa [hstep]
  · rw [hregistry]
    exact hm.registering hn

/-- A step keeps a first occurrence, whatever the registry knows. -/
theorem firstsFrom_step (hm : m.registry.Stems o) {n : Node} (hn : QueryDoc.Stems o n.definition)
    (ds : List Definition) :
    (m.step n).kept.map Node.shape ++ firstsFrom (m.step n).seen ds =
      m.kept.map Node.shape ++ firstsFrom m.seen (n.shape :: ds) := by
  rcases m.step_cases n with ⟨p, rfl, -, hkept⟩ | ⟨f, rfl, hf, hstep⟩ | ⟨f, rfl, hf, -, hkept⟩
  · rw [seen, hkept, fragmentsIn_concat_operation, List.map_append, List.append_assoc]
    rfl
  · rw [hstep]
    exact congrArg _ (firstsFrom_of_any ((m.any_seen f.value).trans hf) ds).symm
  · have hshape : (m.registry.resolve f).value.shape = f.value.shape := by
      cases hi : m.registry.instance? f.value with
      | some g =>
        rw [Registry.resolve_of_some hi]
        exact hm.shape_eq hn hi
      | none => rw [Registry.resolve_of_none hi]
    have hfirst := firstsFrom_of_not_any ((m.any_seen f.value).trans hf) ds
    rw [seen, hkept, fragmentsIn_concat_fragment, List.map_append, List.map_append,
      List.append_assoc]
    refine congrArg (m.kept.map Node.shape ++ ·) (Eq.trans ?_ hfirst.symm)
    simp only [List.map_cons, List.map_nil, hshape]
    exact congrArg (· :: _) (congrArg Definition.fragment hshape)

/-- A merge keeps first occurrences, whatever the registry knows. -/
theorem foldl_step {nodes : List Node} (hnodes : ∀ n ∈ nodes, QueryDoc.Stems o n.definition)
    (hm : m.registry.Stems o) :
    (nodes.foldl step m).registry.Stems o ∧ (nodes.foldl step m).kept.map Node.shape =
      m.kept.map Node.shape ++ firstsFrom m.seen (nodes.map Node.shape) := by
  induction nodes generalizing m with
  | nil => exact ⟨hm, (List.append_nil _).symm⟩
  | cons n nodes ih =>
    obtain ⟨hn, hrest⟩ := List.forall_mem_cons.mp hnodes
    obtain ⟨hstems, hshapes⟩ := ih hrest (stems_step hm hn)
    exact ⟨hstems, hshapes.trans (firstsFrom_step hm hn _)⟩

end Merge

theorem Merge.map_shape_all {o : ParseOptions} {r : Registry} (hr : r.Stems o) (next : Nat)
    {ds : List Definition} (hds : ∀ d ∈ ds, QueryDoc.Stems o d) :
    (all r (instances next ds)).registry.Stems o ∧
      (all r (instances next ds)).kept.map Node.shape = firsts (ds.map Definition.shape) := by
  have hdefinition := map_definition_instances next ds
  have hnodes : ∀ n ∈ instances next ds, QueryDoc.Stems o n.definition := fun n hn =>
    hds _ (hdefinition ▸ List.mem_map_of_mem hn)
  have hshape : (instances next ds).map Node.shape = ds.map Definition.shape := by
    conv_rhs => rw [← hdefinition, List.map_map]
    rfl
  rw [← hshape]
  exact Merge.foldl_step hnodes hr

/-! ## Runs of plain texts -/

/-- A text that is regular unless it is refused. -/
def Steady (o : ParseOptions) (text : String) : Prop :=
  (∃ ds, parse o text = .ok ds) → Regular o text

/-- A call that parses a plain text or resets the session. -/
def Call.IsPlain (c : Call) : Prop := c = .reset ∨ ∃ text, c = .text text

theorem Source.assembled_ofText (text : String) : (ofText text).assembled = text := by
  simp [assembled, ofText, Segment.render]

theorem Source.embedded_ofText (text : String) : (ofText text).embedded = [] := rfl

theorem Session.parsePrimary_ofText (s : Session) (text : String) :
    s.parsePrimary (.ofText text) = QueryDoc.parse s.settings.parseOptions text := by
  have hprimary : (Source.ofText text).primary = text := by
    simp [Source.primary, Source.ofText, Segment.render, Segment.document?]
  rw [parsePrimary, Source.embedded_ofText, hprimary]
  rfl

/-- What is remembered is what regular texts mean. -/
structure Faithful (o : ParseOptions) (s : Session) : Prop where
  options : s.settings.parseOptions = o
  cached : ∀ k d, s.cache.get? k = some d → ∃ text ds, key text = k ∧ Regular o text ∧
    parse o text = .ok ds ∧ d.value.definitions.map Node.shape = firsts (ds.map Definition.shape)
  registry : s.registry.Stems o

theorem faithful_new (settings : Settings) : Faithful settings.parseOptions (.new settings) := by
  refine ⟨rfl, fun k d h => ?_, fun f h => ?_⟩
  · cases h
  · cases h

/-- A plain text that is stored is stored for what it means. -/
theorem Faithful.kept {o : ParseOptions} {s : Session} (h : Faithful o s) {text : String}
    {ds : List Definition} (hregular : Regular o text) (hds : parse o text = .ok ds) (next : Nat) :
    (s.stored next (.ofText text) ds).session.registry.Stems o ∧
      (s.stored next (.ofText text) ds).document.value.definitions.map Node.shape =
        firsts (ds.map Definition.shape) := by
  have hstems : ∀ d ∈ ds, Stems o d := fun d hd => ⟨text, ds, hregular, hds, hd⟩
  have hmerge := Merge.map_shape_all h.registry next hstems
  have hcombine : Session.combine next ds (.ofText text) = instances next ds :=
    List.append_nil _
  rw [← hcombine] at hmerge
  exact hmerge

theorem Faithful.stored {o : ParseOptions} {s : Session} (h : Faithful o s) {text : String}
    {ds : List Definition} (hnone : s.cache.get? (key text) = none) (hregular : Regular o text)
    (hds : parse o text = .ok ds) (next : Nat) :
    Faithful o (s.stored next (.ofText text) ds).session := by
  obtain ⟨hregistry, hshapes⟩ := h.kept hregular hds next
  refine ⟨h.options, fun k d hd => ?_, hregistry⟩
  rw [← Source.assembled_ofText text] at hnone
  rw [Session.get?_stored hnone, Option.or_eq_some_iff, Source.assembled_ofText] at hd
  rcases hd with hd | ⟨-, hd⟩
  · exact h.cached k d hd
  · split at hd
    · subst k
      cases hd
      exact ⟨text, ds, rfl, hregular, hds, hshapes⟩
    · cases hd

theorem Faithful.call {o : ParseOptions} {e : Engine} (h : Faithful o e.session) {c : Call}
    (hplain : c.IsPlain) (hsteady : ∀ text, c = .text text → Steady o text) :
    Faithful o (e.call c).session := by
  rcases hplain with rfl | ⟨text, rfl⟩
  · exact h.options ▸ faithful_new e.session.settings
  · rw [Engine.call_of_source? (s := .ofText text) rfl]
    cases hr : e.session.parse e.next (.ofText text) with
    | error f => exact h
    | ok r =>
      rcases Session.parse_cases hr with ⟨-, hsame⟩ | ⟨ds, hnone, hds, hstored⟩
      · rw [hsame]
        exact h
      · rw [Session.parsePrimary_ofText, h.options] at hds
        rw [Source.assembled_ofText] at hnone
        rw [hstored]
        exact h.stored hnone (hsteady text rfl ⟨ds, hds⟩) hds _

/-- What the engine answers to a text is what the text means on its own, but for fragments that come
twice. -/
structure Transparent (e : Engine) (text : String) : Prop where
  accepts : (∃ r, e.session.parse e.next (.ofText text) = .ok r) ↔
    ∃ ds, parse e.session.settings.parseOptions text = .ok ds
  definitions : ∀ r ds, e.session.parse e.next (.ofText text) = .ok r →
    parse e.session.settings.parseOptions text = .ok ds →
    r.document.value.definitions.map Node.shape = firsts (ds.map Definition.shape)

/-- A text that is not in the cache is parsed on its own. -/
theorem transparent_of_vacant {o : ParseOptions} {e : Engine} (h : Faithful o e.session)
    {text : String} (hsteady : Steady o text) (hnone : e.session.cache.get? (key text) = none) :
    Transparent e text := by
  have hparse : e.session.parse e.next (.ofText text) =
      (parse o text).map (e.session.stored e.next (.ofText text)) := by
    rw [Session.parse_of_none ((Source.assembled_ofText text).symm ▸ hnone),
      Session.parsePrimary_ofText, h.options]
  refine ⟨?_, fun r ds hr hds => ?_⟩
  · rw [hparse, h.options]
    cases parse o text <;> simp [Except.map]
  · rw [h.options] at hds
    rw [hparse, hds] at hr
    cases hr
    exact (h.kept (hsteady ⟨ds, hds⟩) hds _).2

/-- A text that is in the cache is understood as long as its numbers are not glued. -/
theorem transparent_iff_of_cached {o : ParseOptions} {e : Engine} (h : Faithful o e.session)
    {text : String} {d : Instance Document} (hd : e.session.cache.get? (key text) = some d) :
    Transparent e text ↔ Unglued (words text.toList) := by
  obtain ⟨earlier, ds, hkey, hregular, hds, hshapes⟩ := h.cached _ _ hd
  have hreply : e.session.parse e.next (.ofText text) = .ok ⟨d, e.session, e.next, []⟩ :=
    Session.parse_of_some ((Source.assembled_ofText text).symm ▸ hd) e.next
  constructor
  · intro ht
    obtain ⟨es, hes⟩ := ht.accepts.mp ⟨_, hreply⟩
    rw [h.options] at hes
    exact (hregular.map_shape_eq hkey hds hes).2
  · intro hu
    obtain ⟨es, hes, hsame⟩ := (hregular.exists_parse_iff_unglued hkey hds).mpr hu
    rw [← h.options] at hes
    refine ⟨⟨fun _ => ⟨es, hes⟩, fun _ => ⟨_, hreply⟩⟩, fun r ds' hr hds' => ?_⟩
    rw [hreply] at hr
    rw [hes] at hds'
    cases hr
    cases hds'
    rw [hshapes, hsame]

/-- After any run of plain texts, an engine is transparent to a text exactly if its numbers are not
glued to what follows them or no text with its key is in the cache. A text with the key of one that
is accepted is accepted exactly if its numbers are not glued, and then it means the same. -/
theorem transparent_iff {settings : Settings} {next : Nat} {calls : List Call}
    (hplain : ∀ c ∈ calls, c.IsPlain)
    (hsteady : ∀ text, Call.text text ∈ calls → Steady settings.parseOptions text) {text : String}
    (htext : Steady settings.parseOptions text) :
    (Transparent ((Engine.start settings next).run calls) text ↔
      Unglued (words text.toList) ∨
        ((Engine.start settings next).run calls).session.cache.get? (key text) = none) ∧
    ∀ other ds, key other = key text → Steady settings.parseOptions other →
      parse settings.parseOptions other = .ok ds →
      ((∃ es, parse settings.parseOptions text = .ok es) ↔ Unglued (words text.toList)) ∧
        ∀ es, parse settings.parseOptions text = .ok es →
          es.map Definition.shape = ds.map Definition.shape := by
  have hfaithful : Faithful settings.parseOptions
      ((Engine.start settings next).run calls).session :=
    Engine.run_induction (P := fun e => Faithful settings.parseOptions e.session)
      (faithful_new settings) fun c hc e h =>
        h.call (hplain c hc) fun text he => hsteady text (he ▸ hc)
  refine ⟨?_, fun other ds hkey hother hds => ?_⟩
  · cases hget : ((Engine.start settings next).run calls).session.cache.get? (key text) with
    | none => exact ⟨fun _ => .inr rfl, fun _ => transparent_of_vacant hfaithful htext hget⟩
    | some d =>
      rw [transparent_iff_of_cached hfaithful hget]
      exact ⟨.inl, fun h => h.elim id fun hnone => by cases hnone⟩
  · have hregular := hother ⟨ds, hds⟩
    refine ⟨⟨fun ⟨es, hes⟩ => (hregular.map_shape_eq hkey hds hes).2, fun hu => ?_⟩,
      fun es hes => (hregular.map_shape_eq hkey hds hes).1⟩
    obtain ⟨es, hes, -⟩ := (hregular.exists_parse_iff_unglued hkey hds).mpr hu
    exact ⟨es, hes⟩

instance (ws : List Word) : Decidable (Unglued ws) :=
  inferInstanceAs (Decidable (∀ w ∈ ws, w.glued = false))

/-- Spacing does not count, before a reset and after it. -/
theorem transparent_of_spacing : Transparent
    ((Engine.start {} 0).run [.text "\x7bf(a:1 b:2)\x7d", .reset, .text "\x7bf(a:1 b:2)\x7d"])
    "\x7b f(a: 1, b: 2) \x7d" := by
  have hplain : ∀ c ∈ [Call.text "\x7bf(a:1 b:2)\x7d", .reset, .text "\x7bf(a:1 b:2)\x7d"],
      c.IsPlain := by
    simp only [List.forall_mem_cons]
    exact ⟨.inr ⟨_, rfl⟩, .inl rfl, .inr ⟨_, rfl⟩, by simp⟩
  have hsteady : ∀ text, Call.text text ∈
      [Call.text "\x7bf(a:1 b:2)\x7d", .reset, .text "\x7bf(a:1 b:2)\x7d"] →
        Steady (Settings.parseOptions {}) text := by
    intro text h
    obtain rfl : text = "\x7bf(a:1 b:2)\x7d" := by simpa [Call.text, Source.ofText] using h
    exact fun _ => by decide +kernel
  exact (transparent_iff hplain hsteady fun _ => by decide +kernel).1.mpr (.inl (by decide +kernel))

/-- A text with a glued number is refused on its own, and accepted where it was parsed before with a
space in it. -/
theorem not_transparent_of_glued :
    ¬ Transparent ((Engine.start {} 0).run [.text "\x7bf(a:1 b:2)\x7d"]) "\x7bf(a:1b:2)\x7d" := by
  intro h
  have hreply : (((Engine.start {} 0).run [.text "\x7bf(a:1 b:2)\x7d"]).session.parse
      ((Engine.start {} 0).run [.text "\x7bf(a:1 b:2)\x7d"]).next
      (.ofText "\x7bf(a:1b:2)\x7d")).toOption.isSome = true := by decide +kernel
  have hrefused : (parse ((Engine.start {} 0).run
      [.text "\x7bf(a:1 b:2)\x7d"]).session.settings.parseOptions
      "\x7bf(a:1b:2)\x7d").toOption.isSome = false := by decide +kernel
  obtain ⟨r, hr⟩ := Option.isSome_iff_exists.mp hreply
  obtain ⟨ds, hds⟩ := h.accepts.mp ⟨r, toOption_eq_some hr⟩
  rw [hds] at hrefused
  cases hrefused

/-- A definition as it is printed. -/
def Definition.print : Definition → String
  | .operation o => o.ast.print
  | .fragment f => f.print

/-- A string that is cut at a carriage return hides what stands behind it. -/
theorem not_transparent_of_brokenString :
    ¬ Transparent ((Engine.start {} 0).run [.text "fragment F on T \x7b y(a: \"x\ry\") \x7d"])
      "fragment F on T \x7b y(a: \"x\r y\") \x7d" := by
  intro h
  let e := (Engine.start {} 0).run [.text "fragment F on T \x7b y(a: \"x\ry\") \x7d"]
  let text := "fragment F on T \x7b y(a: \"x\r y\") \x7d"
  have hdiffer : (e.session.parse e.next (.ofText text)).toOption.any (fun r =>
      (parse e.session.settings.parseOptions text).toOption.any fun ds =>
        (r.document.value.definitions.map Node.shape).map Definition.print !=
          (firsts (ds.map Definition.shape)).map Definition.print) = true := by decide +kernel
  simp only [Option.any_eq_true, bne_iff_ne] at hdiffer
  obtain ⟨r, hr, ds, hds, hne⟩ := hdiffer
  exact hne (congrArg _ (h.definitions r ds (toOption_eq_some hr) (toOption_eq_some hds)))

end QueryDoc
