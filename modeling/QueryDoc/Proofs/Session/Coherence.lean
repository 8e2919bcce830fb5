import QueryDoc.Proofs.Session.Run

/-!
# Coherence

The cache and the registry of a session tell one story: the registry knows the fragments of the
cached documents and nothing else, and they are the instances that it has.
-/
namespace QueryDoc

/-- The fragments of all cached documents, in cache order. -/
def Cache.fragments (c : Cache) : List (Instance Fragment) :=
  c.entries.flatMap fun e => e.2.value.fragments

namespace Session

/-- What the cache and the registry have to do with each other. -/
structure Coherent (s : Session) : Prop where
  keys : s.cache.keys.Nodup
  key : ∀ e ∈ s.cache.entries, key e.2.value.source = e.1
  distinct : ∀ e ∈ s.cache.entries, Distinct e.2.value.fragments
  registered : ∀ e ∈ s.cache.entries, ∀ f ∈ e.2.value.fragments,
    s.registry.get? f.value.name f.value.body = some f
  registry : s.registry = Registry.empty.registerAll s.cache.fragments

theorem coherent_new (settings : Settings) : (new settings).Coherent := by
  refine ⟨.nil, ?_, ?_, ?_, rfl⟩ <;> simp [new, Cache.empty]

/-- A session stays coherent when a document is stored. -/
theorem Coherent.stored {s : Session} (h : s.Coherent) {source : Source}
    (hnone : s.cache.get? (QueryDoc.key source.assembled) = none) (next : Nat)
    (own : List Definition) : (s.stored next source own).session.Coherent := by
  have hcache := cache_stored hnone next own
  have hmerge := Merge.canonical_all s.registry (combine next own source)
  have hregistry : (s.stored next source own).session.registry =
      (Merge.all s.registry (combine next own source)).registry := rfl
  have hfragments : (s.stored next source own).document.value.fragments =
      fragmentsIn (Merge.all s.registry (combine next own source)).kept := rfl
  refine ⟨?_, ?_, ?_, ?_, ?_⟩
  · rw [hcache, Cache.keys, List.map_append]
    refine List.nodup_append.mpr ⟨h.keys, by simp, ?_⟩
    simp only [List.map_cons, List.map_nil, List.mem_singleton, forall_eq]
    rintro k hk rfl
    exact Cache.get?_eq_none_iff.mp hnone hk
  · simp only [hcache, List.forall_mem_append, List.mem_singleton, forall_eq]
    exact ⟨h.key, rfl⟩
  · simp only [hcache, List.forall_mem_append, List.mem_singleton, forall_eq]
    exact ⟨h.distinct, hmerge.distinct⟩
  · simp only [hcache, List.forall_mem_append, List.mem_singleton, forall_eq]
    refine ⟨fun e he f hf => ?_, hmerge.registered⟩
    rw [hregistry, hmerge.registry]
    exact Registry.instance?_registerAll_of_some (h.registered e he f hf) _
  · have hcached : (s.stored next source own).session.cache.fragments = s.cache.fragments ++
        fragmentsIn (Merge.all s.registry (combine next own source)).kept := by
      rw [hcache, Cache.fragments, List.flatMap_append]
      simp [Cache.fragments, hfragments]
    rw [hregistry, hmerge.registry, hcached, Registry.registerAll_append, ← h.registry]

end Session

theorem Engine.coherent_call {e : Engine} (h : e.session.Coherent) (c : Call) :
    (e.call c).session.Coherent := by
  rcases e.call_cases c with ⟨-, hc⟩ | ⟨source, own, -, hnone, -, hc⟩ | ⟨-, settings, next, hc⟩
  · rw [hc]
    exact Session.coherent_new _
  · rw [hc]
    exact h.stored hnone _ own
  · rw [hc]
    exact ⟨h.keys, h.key, h.distinct, h.registered, h.registry⟩

/-- Every engine is coherent, whatever was called, and alike fragments of cached documents are one
instance. -/
theorem coherent_run (settings : Settings) (next : Nat) (calls : List Call) :
    ((Engine.start settings next).run calls).session.Coherent ∧
      ∀ f ∈ ((Engine.start settings next).run calls).session.cache.fragments,
        ∀ g ∈ ((Engine.start settings next).run calls).session.cache.fragments,
          f.value.alike g.value = true → f = g := by
  have hcoherent : ((Engine.start settings next).run calls).session.Coherent :=
    Engine.run_induction (P := fun e => e.session.Coherent) (Session.coherent_new settings)
      fun c _ e h => Engine.coherent_call h c
  refine ⟨hcoherent, fun f hf g hg halike => ?_⟩
  obtain ⟨d, hd, hf⟩ := List.mem_flatMap.mp hf
  obtain ⟨d', hd', hg⟩ := List.mem_flatMap.mp hg
  have hfirst := hcoherent.registered d hd f hf
  have hsecond := hcoherent.registered d' hd' g hg
  obtain ⟨hname, hbody⟩ := Fragment.alike_iff.mp halike
  rw [hname, hbody, hsecond] at hfirst
  exact (Option.some.inj hfirst).symm

end QueryDoc
