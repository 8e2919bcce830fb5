import QueryDoc.Proofs.Session.Resolution

/-!
# Flattening

A document that was made of others stands for them: whatever embeds it has the definitions that it
would have if it embedded the others one by one (`resolve_nested`). The fragments that were left out
when the document was made would be left out behind those that were kept, and the registry knows the
ones that were kept until it is reset.
-/
namespace QueryDoc

/-! ## First occurrences among first occurrences -/

namespace Node

theorem pairwise_firsts (ns : List Node) : (firsts ns).Pairwise fun n m => n.alike m = false := by
  induction ns with
  | nil => exact .nil
  | cons n ns ih =>
    refine List.pairwise_cons.mpr ⟨fun m hm => ?_, ih.filter _⟩
    simpa using (List.mem_filter.mp hm).2

theorem firsts_eq_self {ns : List Node} (h : ns.Pairwise fun n m => n.alike m = false) :
    firsts ns = ns := by
  induction ns with
  | nil => rfl
  | cons n ns ih =>
    obtain ⟨hn, hns⟩ := List.pairwise_cons.mp h
    rw [firsts, ih hns, List.filter_eq_self.mpr fun m hm => by rw [hn m hm]; rfl]

end Node

namespace Registry

theorem firsts_settle (r : Registry) (ns : List Node) :
    Node.firsts (ns.map r.settle) = (Node.firsts ns).map r.settle := by
  induction ns with
  | nil => rfl
  | cons n ns ih =>
    have halike : (fun m => !(r.settle n).alike m) ∘ r.settle = fun m => !n.alike m := by
      funext m
      rw [Function.comp, Node.alike_congr (r.face_settle n) (r.face_settle m)]
    rw [List.map_cons, Node.firsts, ih, List.filter_map, halike, Node.firsts, List.map_cons]

/-- The fragments among the nodes are the instances that the registry has for them. -/
def Knows (r : Registry) (ns : List Node) : Prop :=
  ∀ f ∈ fragmentsIn ns, r.instance? f.value = some f

/-- A registry that knows what another one has settled settles it in the same way. -/
theorem Knows.settle_settle {r r' : Registry} {ns : List Node} (h : r'.Knows (ns.map r.settle))
    {n : Node} (hn : n ∈ ns) : r'.settle (r.settle n) = r'.settle n := by
  cases n with
  | operation o => rfl
  | fragment f =>
    have hknown : r'.instance? (r.resolve f).value = some (r.resolve f) :=
      h _ (List.mem_filterMap.mpr ⟨_, List.mem_map_of_mem hn, rfl⟩)
    have hsame := instance?_congr r' (r.alike_resolve f)
    rw [settle, settle, settle, resolve_of_some hknown, resolve_of_some (hsame.symm.trans hknown)]

end Registry

/-- What was merged before can be merged again in place of what it was made from. -/
theorem Merge.kept_merged {r r' : Registry} {nodes : List Node}
    (h : r'.Knows (all r nodes).kept) (front : List Node) :
    (all r' (front ++ (all r nodes).kept)).kept = (all r' (front ++ nodes)).kept := by
  rw [kept_all r] at h ⊢
  have hfirsts : Node.firsts ((Node.firsts nodes).map r.settle) =
      (Node.firsts nodes).map r.settle := by
    rw [r.firsts_settle, Node.firsts_eq_self (Node.pairwise_firsts nodes)]
  have hmet : (fun m => !front.any fun n => n.alike m) ∘ r.settle =
      fun m => !front.any fun n => n.alike m := by
    funext m
    simp only [Function.comp, Node.alike_congr rfl (r.face_settle m)]
  rw [kept_all, kept_all, Node.firsts_append, Node.firsts_append, hfirsts, List.filter_map, hmet,
    List.map_append, List.map_append, List.map_map]
  congr 1
  exact List.map_congr_left fun n hn => h.settle_settle (List.mem_of_mem_filter hn)

/-! ## Later registries -/

namespace Engine

/-- An instance stays the one of its fragment until the session is reset. -/
theorem instance?_run_of_some {e : Engine} {calls : List Call} (hreset : .reset ∉ calls)
    {f : Fragment} {g : Instance Fragment} (h : e.session.registry.instance? f = some g) :
    (e.run calls).session.registry.instance? f = some g := by
  refine run_induction (P := fun e => e.session.registry.instance? f = some g) h
    fun c hc e he => ?_
  cases e.effect c with
  | reset isReset call reply => exact absurd (isReset ▸ hc) hreset
  | hit source d called cached call reply => rwa [call]
  | stored source own called vacant read call reply =>
    have hregistry : (e.call c).session.registry =
        (Merge.all e.session.registry (Session.combine e.next own source)).registry := by
      rw [call]
      rfl
    rw [hregistry, (Merge.canonical_all _ _).registry]
    exact Registry.instance?_registerAll_of_some he _
  | kept next notReset le call reply => rwa [call]

end Engine

/-! ## Documents behind segments -/

namespace Source

/-- The segments with documents behind them. -/
def embedding (front : List Segment) (ds : List (Instance Document)) : Source :=
  ⟨front ++ ds.map fun d => .value (.document d)⟩

theorem embedded_embedding (front : List Segment) (ds : List (Instance Document)) :
    (embedding front ds).embedded = (Source.mk front).embedded ++ ds := by
  simp [embedding, embedded, Function.comp_def, Segment.document?, Substitution.document?]

theorem primary_embedding (front : List Segment) (ds : List (Instance Document)) :
    (embedding front ds).primary = (Source.mk front).primary := by
  have hnone : ((ds.map fun d => Segment.value (.document d)).filter
      fun g => g.document?.isNone) = [] := by
    simp [List.filter_eq_nil_iff, Segment.document?, Substitution.document?]
  simp only [embedding, primary, List.filter_append, hnone, List.append_nil]

end Source

namespace Session

variable {front : List Segment} {ds ds' : List (Instance Document)}

theorem combine_embedding (next : Nat) (own : List Definition) :
    combine next own (.embedding front ds) =
      combine next own ⟨front⟩ ++ ds.flatMap fun d => d.value.definitions := by
  rw [combine, combine, Source.embedded_embedding, List.flatMap_append, List.append_assoc]

/-- It does not matter to a source's own text which documents are embedded. -/
theorem parsePrimary_embedding (hds : ds ≠ []) (hds' : ds' ≠ []) (s : Session) :
    s.parsePrimary (.embedding front ds) = s.parsePrimary (.embedding front ds') := by
  have hembeds {xs : List (Instance Document)} (h : xs ≠ []) :
      (Source.embedding front xs).embedded.isEmpty = false := by
    simp [Source.embedded_embedding, h]
  unfold parsePrimary
  rw [hembeds hds, hembeds hds', Source.primary_embedding, Source.primary_embedding]

/-- A source with a blank text of its own is made of the documents that it embeds. -/
theorem resolve_of_blank {source : Source} (hembeds : source.embedded ≠ [])
    (hblank : hasTokens source.primary = false) (s : Session) (next : Nat) :
    s.resolve next source = .ok (s.stored next source []) := by
  have hown : s.parsePrimary source = .ok [] := by
    rw [parsePrimary, hblank, List.isEmpty_eq_false_iff.mpr hembeds]
    rfl
  rw [resolve_eq, hown]
  rfl

end Session

/-! ## Nested documents -/

/-- What a registry does not have: operations, and fragments that it was not told. -/
def Registry.Lacks (r : Registry) : Definition → Prop
  | .operation _ => True
  | .fragment f => r.get? f.name f.body = none

/-- An instance of a definition that the registry lacks stays what it is, and all instances of one
that it has become the same node. -/
theorem Registry.settle_instance (r : Registry) (d : Definition) :
    (r.Lacks d ∧ ∀ id, r.settle (d.instance id) = d.instance id) ∨
      ∃ g, ∀ id, r.settle (d.instance id) = .fragment g := by
  cases d with
  | operation o => exact .inl ⟨trivial, fun _ => rfl⟩
  | fragment f =>
    cases hf : r.instance? f with
    | none => exact .inl ⟨hf, fun _ => congrArg Node.fragment (resolve_of_none hf)⟩
    | some g => exact .inr ⟨g, fun _ => congrArg Node.fragment (resolve_of_some hf)⟩

/-- One node, or instances of a definition that the registry lacks, numbered from two counters. -/
def Renewed (own : List Definition) (r : Registry) (next next' : Nat) (n m : Node) : Prop :=
  n = m ∨ ∃ i, ∃ h : i < own.length,
    n = own[i].instance (next + i) ∧ m = own[i].instance (next' + i) ∧ r.Lacks own[i]

variable {own : List Definition} {r : Registry} {next next' : Nat} {n m : Node}

theorem Renewed.face_eq (h : Renewed own r next next' n m) : n.face = m.face := by
  rcases h with rfl | ⟨i, hi, rfl, rfl, -⟩
  · rfl
  · exact face_instance own[i] _ _

theorem Renumbered.settle (h : Renumbered own next next' n m) (r : Registry) :
    Renewed own r next next' (r.settle n) (r.settle m) := by
  rcases h with rfl | ⟨i, hi, rfl, rfl⟩
  · exact .inl rfl
  · rcases r.settle_instance own[i] with ⟨hlacks, hsettle⟩ | ⟨g, hsettle⟩
    · exact .inr ⟨i, hi, hsettle _, hsettle _, hlacks⟩
    · exact .inl ((hsettle _).trans (hsettle _).symm)

/-- Behind the given segments, one list of documents goes for the other: both sources fail, or they
have definitions with the same faces, which are the same nodes but for those that are new in the
text of the segments. -/
structure Interchangeable (s : Session) (front : List Segment) (ds ds' : List (Instance Document))
    (next next' : Nat) : Prop where
  fails : ∀ f, s.resolve next (.embedding front ds) = .error f ↔
    s.resolve next' (.embedding front ds') = .error f
  agree : ∀ r r', s.resolve next (.embedding front ds) = .ok r →
    s.resolve next' (.embedding front ds') = .ok r' →
      r.document.value.definitions.map Node.face = r'.document.value.definitions.map Node.face ∧
      ∃ own, s.parsePrimary (.embedding front ds) = .ok own ∧
        List.Forall₂ (Renewed own s.registry next next') r.document.value.definitions
          r'.document.value.definitions

theorem interchangeable_of_renewed {s : Session} {front : List Segment}
    {ds ds' : List (Instance Document)} (hds : ds ≠ []) (hds' : ds' ≠ [])
    (h : ∀ own, List.Forall₂ (Renewed own s.registry next next')
      (s.stored next (.embedding front ds) own).document.value.definitions
      (s.stored next' (.embedding front ds') own).document.value.definitions) :
    Interchangeable s front ds ds' next next' := by
  have hresolve := s.resolve_eq next (.embedding front ds)
  have hresolve' := s.resolve_eq next' (.embedding front ds')
  rw [← Session.parsePrimary_embedding hds hds'] at hresolve'
  cases hown : s.parsePrimary (.embedding front ds) with
  | error f =>
    rw [hown] at hresolve hresolve'
    refine ⟨fun g => ?_, fun r r' hr => ?_⟩
    · rw [hresolve, hresolve']
      rfl
    · cases hresolve.symm.trans hr
  | ok own =>
    rw [hown] at hresolve hresolve'
    refine ⟨fun g => ?_, fun r r' hr hr' => ?_⟩
    · rw [hresolve, hresolve']
      exact ⟨nofun, nofun⟩
    · cases hresolve.symm.trans hr
      cases hresolve'.symm.trans hr'
      exact ⟨Node.map_face_eq ((h own).imp fun _ _ => Renewed.face_eq), own, hown, h own⟩

/-- A document that was made of others alone goes for them behind any segments, until the session
is reset. -/
theorem resolve_nested {e : Engine} {inner : Source} (hembeds : inner.embedded ≠ [])
    (hblank : hasTokens inner.primary = false) :
    ∃ b, e.session.resolve e.next inner = .ok b ∧
      ∀ calls, .reset ∉ calls → ∀ front next next',
        Interchangeable (Engine.run ⟨b.session, b.next⟩ calls).session front [b.document]
          inner.embedded next next' := by
  refine ⟨_, Session.resolve_of_blank hembeds hblank _ _, ?_⟩
  intro calls hreset front next next'
  generalize hb : e.session.stored e.next inner [] = b
  generalize hlater : (Engine.run ⟨b.session, b.next⟩ calls).session = later
  have hmerged : b.document.value.definitions =
      (Merge.all e.session.registry (inner.embedded.flatMap fun d => d.value.definitions)).kept := by
    rw [← hb]
    rfl
  -- what the document holds was registered when it was made, and is so until a reset
  have hknows : later.registry.Knows b.document.value.definitions := by
    intro f hf
    rw [← hlater]
    apply Engine.instance?_run_of_some hreset
    rw [← hb] at hf ⊢
    exact (Merge.canonical_all _ _).registered f hf
  apply interchangeable_of_renewed (List.cons_ne_nil _ _) hembeds
  intro own
  have hnested : (later.stored next (.embedding front [b.document]) own).document.value.definitions =
      (later.stored next (.embedding front inner.embedded) own).document.value.definitions := by
    change (Merge.all _ _).kept = (Merge.all _ _).kept
    rw [hmerged] at hknows
    rw [Session.combine_embedding, Session.combine_embedding, List.flatMap_singleton, hmerged]
    exact Merge.kept_merged hknows _
  rw [hnested, Session.definitions_stored, Session.definitions_stored, List.forall₂_map_left_iff,
    List.forall₂_map_right_iff]
  have hnodes := Node.forall₂_firsts (fun _ _ => Renumbered.face_eq)
    (renumbered_combine own next next' (.embedding front inner.embedded))
  exact hnodes.imp fun _ _ h => h.settle later.registry

/-- A fragment and an operation. -/
def mixedReply : Except ParseFailure Reply :=
  (Engine.start {} 0).session.parse 0 (.ofText "fragment F on T \x7b x \x7d \x7b a \x7d")

/-- A document twice, with a comment for its own text. -/
def Source.twice (d : Instance Document) : Source :=
  .ofParts ["", "# again\n"] [.document d, .document d]

/-- An operation, the fragment once more, and a new fragment. -/
def mixedText : List Segment :=
  [.literal "\x7b ...F \x7d fragment F on T \x7bx\x7d fragment G on T \x7b y \x7d "]

/-- The engine behind a reply and another call. -/
def Reply.later (r : Reply) : Engine := Engine.run ⟨r.session, r.next⟩ [.text "\x7b a \x7d"]

/-- The numbers of a reply's definitions. -/
def Reply.numbers (r : Reply) : List Nat := r.document.value.definitions.map Node.id

/-- A document goes for the one that it holds twice: both have the operation twice and the fragment
once, in the first place and as the instance that it had. -/
theorem resolve_nested_twice : ∃ d b, mixedReply = .ok d ∧
    d.session.resolve d.next (.twice d.document) = .ok b ∧
    Interchangeable b.later.session mixedText [b.document] [d.document, d.document] 10 20 ∧
    ∃ r r', b.later.session.resolve 10 (.embedding mixedText [b.document]) = .ok r ∧
      b.later.session.resolve 20 (.embedding mixedText [d.document, d.document]) = .ok r' ∧
      r.numbers = [10, 0, 12, 1, 1] ∧ r'.numbers = [20, 0, 22, 1, 1] := by
  have h : mixedReply.toOption.any (fun d =>
      (d.session.resolve d.next (.twice d.document)).toOption.any fun b =>
        (b.later.session.resolve 10 (.embedding mixedText [b.document])).toOption.any fun r =>
          (b.later.session.resolve 20
              (.embedding mixedText [d.document, d.document])).toOption.any fun r' =>
            r.numbers == [10, 0, 12, 1, 1] && r'.numbers == [20, 0, 22, 1, 1]) = true := by
    decide +kernel
  simp only [Option.any_eq_true, Bool.and_eq_true, beq_iff_eq] at h
  obtain ⟨d, hd, b, hb, r, hr, r', hr', hnumbers, hnumbers'⟩ := h
  have hembeds : (Source.twice d.document).embedded ≠ [] := List.cons_ne_nil _ _
  have hblank : hasTokens (Source.twice d.document).primary = false := by
    change hasTokens (String.join ["", "# again\n"]) = false
    decide +kernel
  obtain ⟨b', hb', hnested⟩ := resolve_nested (e := ⟨d.session, d.next⟩) hembeds hblank
  cases (toOption_eq_some hb).symm.trans hb'
  have hreset : .reset ∉ [Call.text "\x7b a \x7d"] := by simp [Call.text]
  exact ⟨d, b, toOption_eq_some hd, toOption_eq_some hb, hnested _ hreset mixedText 10 20,
    r, r', toOption_eq_some hr, toOption_eq_some hr', hnumbers, hnumbers'⟩

end QueryDoc
