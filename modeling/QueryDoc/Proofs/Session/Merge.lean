import QueryDoc.Session.Merge

/-!
# Registering and merging

What a registry answers after a fragment was registered, and what a merge keeps: no two fragments
that are alike, each of them the instance that the registry has for it, and nothing that the
registry was not told (`Merge.canonical_all`).
-/
namespace QueryDoc

/-! ## Alike fragments -/

theorem Fragment.alike_iff {f g : Fragment} :
    f.alike g = true ↔ f.name = g.name ∧ f.body = g.body := by
  simp [alike]

theorem Fragment.alike_refl (f : Fragment) : f.alike f = true := alike_iff.mpr ⟨rfl, rfl⟩

theorem Fragment.alike_symm {f g : Fragment} (h : f.alike g = true) : g.alike f = true :=
  alike_iff.mpr ⟨(alike_iff.mp h).1.symm, (alike_iff.mp h).2.symm⟩

theorem Fragment.alike_trans {f g k : Fragment} (h : f.alike g = true) (h' : g.alike k = true) :
    f.alike k = true :=
  alike_iff.mpr ⟨(alike_iff.mp h).1.trans (alike_iff.mp h').1,
    (alike_iff.mp h).2.trans (alike_iff.mp h').2⟩

/-! ## Registries -/

namespace Registry

variable {r : Registry} {f g : Instance Fragment}

/-- The instance that the registry has for a fragment. -/
def instance? (r : Registry) (f : Fragment) : Option (Instance Fragment) := r.get? f.name f.body

theorem instance?_eq_find? (r : Registry) (f : Fragment) :
    r.instance? f = r.fragments.find? fun g => g.value.alike f := rfl

theorem alike_of_instance? {f : Fragment} (h : r.instance? f = some g) :
    g.value.alike f = true := by
  rw [instance?_eq_find?] at h
  simpa using List.find?_some h

theorem mem_of_instance? {f : Fragment} (h : r.instance? f = some g) : g ∈ r.fragments := by
  rw [instance?_eq_find?] at h
  exact List.mem_of_find?_eq_some h

/-- Alike fragments have one instance. -/
theorem instance?_congr (r : Registry) {f g : Fragment} (h : f.alike g = true) :
    r.instance? f = r.instance? g := by
  obtain ⟨hname, hbody⟩ := Fragment.alike_iff.mp h
  rw [instance?, instance?, hname, hbody]

/-- The instance that goes for a fragment: the one that the registry has for it, or its own. -/
def resolve (r : Registry) (f : Instance Fragment) : Instance Fragment :=
  (r.instance? f.value).getD f

theorem resolve_of_some (h : r.instance? f.value = some g) : r.resolve f = g := by
  rw [resolve, h, Option.getD_some]

theorem resolve_of_none (h : r.instance? f.value = none) : r.resolve f = f := by
  rw [resolve, h, Option.getD_none]

theorem alike_resolve (r : Registry) (f : Instance Fragment) :
    (r.resolve f).value.alike f.value = true := by
  cases h : r.instance? f.value with
  | some g =>
    rw [resolve_of_some h]
    exact alike_of_instance? h
  | none =>
    rw [resolve_of_none h]
    exact f.value.alike_refl

/-- The registry behind a fragment that is registered. -/
def registering (r : Registry) (f : Instance Fragment) : Registry := (r.register f).2

theorem registering_of_some (h : r.instance? f.value = some g) : r.registering f = r := by
  unfold registering register
  rw [show r.get? f.value.name f.value.body = some g from h]

theorem registering_of_none (h : r.instance? f.value = none) : r.registering f = r.add f := by
  unfold registering register
  rw [show r.get? f.value.name f.value.body = none from h]
  cases r.bodies f.value.name <;> rfl

/-- Earlier fragments go before the one that is listed last. -/
theorem instance?_add (r : Registry) (f : Instance Fragment) (g : Fragment) :
    (r.add f).instance? g =
      (r.instance? g).or (if f.value.alike g then some f else none) := by
  rw [instance?_eq_find?, instance?_eq_find?, add, List.find?_append, List.find?_singleton]

/-- A fragment that is registered has an instance. -/
theorem instance?_registering_self (r : Registry) (f : Instance Fragment) :
    (r.registering f).instance? f.value = some (r.resolve f) := by
  cases h : r.instance? f.value with
  | some g => rw [registering_of_some h, resolve_of_some h, h]
  | none =>
    rw [registering_of_none h, resolve_of_none h, instance?_add, h, if_pos f.value.alike_refl,
      Option.none_or]

/-- To register the instance that goes for a fragment is to register the fragment. -/
theorem registering_resolve (r : Registry) (f : Instance Fragment) :
    r.registering (r.resolve f) = r.registering f := by
  cases h : r.instance? f.value with
  | some g =>
    have hg : r.instance? g.value = some g := by
      rw [instance?_congr r (alike_of_instance? h), h]
    rw [resolve_of_some h, registering_of_some h, registering_of_some hg]
  | none => rw [resolve_of_none h]

/-- An instance stays the one of its fragment. -/
theorem instance?_registering_of_some {f : Fragment} (h : r.instance? f = some g)
    (k : Instance Fragment) : (r.registering k).instance? f = some g := by
  cases hk : r.instance? k.value with
  | some e => rw [registering_of_some hk, h]
  | none => rw [registering_of_none hk, instance?_add, h]; rfl

/-- A list of fragments is registered one by one. -/
def registerAll (r : Registry) (fs : List (Instance Fragment)) : Registry := fs.foldl registering r

theorem registerAll_append (r : Registry) (fs gs : List (Instance Fragment)) :
    r.registerAll (fs ++ gs) = (r.registerAll fs).registerAll gs := List.foldl_append

theorem instance?_registerAll_of_some {f : Fragment} (h : r.instance? f = some g)
    (fs : List (Instance Fragment)) : (r.registerAll fs).instance? f = some g := by
  induction fs generalizing r with
  | nil => exact h
  | cons k fs ih => exact ih (instance?_registering_of_some h k)

end Registry

/-! ## Merges -/

/-- The fragments among nodes. -/
abbrev fragmentsIn (nodes : List Node) : List (Instance Fragment) := nodes.filterMap Node.fragment?

/-- No two of the fragments are alike. -/
def Distinct (fs : List (Instance Fragment)) : Prop :=
  fs.Pairwise fun f g => f.value.alike g.value = false

namespace Merge

variable {r : Registry} {m : Merge}

/-- What holds of a merge that started from the registry `r`. -/
structure Canonical (r : Registry) (m : Merge) : Prop where
  distinct : Distinct (fragmentsIn m.kept)
  registered : ∀ f ∈ fragmentsIn m.kept, m.registry.instance? f.value = some f
  registry : m.registry = r.registerAll (fragmentsIn m.kept)

theorem canonical_start (r : Registry) : (start r).Canonical r :=
  ⟨.nil, by simp [start], rfl⟩

theorem keeps_eq_false {f : Fragment} : m.keeps f = false ↔
    ∀ g ∈ fragmentsIn m.kept, g.value.alike f = false := by
  unfold keeps
  rw [List.any_eq_false]
  simp only [Bool.not_eq_true]

/-- A merge takes in the instance that goes for a fragment. -/
theorem register_eq (m : Merge) (f : Instance Fragment) :
    (m.register f).registry = m.registry.registering f ∧
      (m.register f).kept = m.kept ++ [.fragment (m.registry.resolve f)] := by
  unfold register Registry.registering Registry.register
  cases h : m.registry.get? f.value.name f.value.body with
  | some g =>
    rw [Registry.resolve_of_some h]
    exact ⟨rfl, rfl⟩
  | none =>
    rw [Registry.resolve_of_none h]
    cases m.registry.bodies f.value.name <;> exact ⟨rfl, rfl⟩

/-- A step keeps an operation, leaves a fragment out that is like a kept one, or registers it. -/
theorem step_cases (m : Merge) (n : Node) :
    (∃ o, n = .operation o ∧ (m.step n).registry = m.registry ∧
      (m.step n).kept = m.kept ++ [.operation o]) ∨
    (∃ f, n = .fragment f ∧ m.keeps f.value = true ∧ m.step n = m) ∨
    ∃ f, n = .fragment f ∧ m.keeps f.value = false ∧
      (m.step n).registry = m.registry.registering f ∧
      (m.step n).kept = m.kept ++ [.fragment (m.registry.resolve f)] := by
  cases n with
  | operation o => exact .inl ⟨o, rfl, rfl, rfl⟩
  | fragment f =>
    cases hf : m.keeps f.value with
    | true => exact .inr (.inl ⟨f, rfl, hf, if_pos hf⟩)
    | false =>
      have hstep : m.step (.fragment f) = m.register f := if_neg (by simp [hf])
      rw [hstep]
      exact .inr (.inr ⟨f, rfl, hf, m.register_eq f⟩)

theorem fragmentsIn_concat_operation (nodes : List Node) (o : Instance Operation) :
    fragmentsIn (nodes ++ [.operation o]) = fragmentsIn nodes := by
  simp [Node.fragment?]

theorem fragmentsIn_concat_fragment (nodes : List Node) (f : Instance Fragment) :
    fragmentsIn (nodes ++ [.fragment f]) = fragmentsIn nodes ++ [f] := by
  simp [Node.fragment?]

theorem Canonical.step (h : m.Canonical r) (n : Node) : (m.step n).Canonical r := by
  rcases m.step_cases n with ⟨o, rfl, hregistry, hkept⟩ | ⟨f, rfl, -, hstep⟩ |
    ⟨f, rfl, hf, hregistry, hkept⟩
  · refine ⟨?_, ?_, ?_⟩ <;> rw [hkept, fragmentsIn_concat_operation]
    · exact h.distinct
    · rw [hregistry]
      exact h.registered
    · rw [hregistry]
      exact h.registry
  · rw [hstep]
    exact h
  · have halike := m.registry.alike_resolve f
    refine ⟨?_, ?_, ?_⟩ <;> rw [hkept, fragmentsIn_concat_fragment]
    · refine List.pairwise_append.mpr ⟨h.distinct, List.pairwise_singleton _ _, ?_⟩
      simp only [List.mem_singleton, forall_eq]
      intro e he
      refine Bool.eq_false_iff.mpr fun heg => ?_
      have hef := Fragment.alike_trans heg halike
      rw [keeps_eq_false.mp hf e he] at hef
      cases hef
    · rw [hregistry, List.forall_mem_append]
      refine ⟨fun e he => Registry.instance?_registering_of_some (h.registered e he) f, ?_⟩
      simp only [List.mem_singleton, forall_eq]
      rw [Registry.instance?_congr _ halike, Registry.instance?_registering_self]
    · rw [hregistry, Registry.registerAll_append, ← h.registry]
      exact (Registry.registering_resolve _ f).symm

/-- What a merge keeps is canonical. -/
theorem canonical_all (r : Registry) (nodes : List Node) : (all r nodes).Canonical r :=
  List.foldlRecOn nodes step (canonical_start r) fun _ h n _ => h.step n

/-! ## What is kept -/

/-- One of the fragments is like the given one. -/
def Has (fs : List (Instance Fragment)) (f : Fragment) : Prop :=
  ∃ g ∈ fs, g.value.alike f = true

theorem has_append {fs gs : List (Instance Fragment)} {f : Fragment} :
    Has (fs ++ gs) f ↔ Has fs f ∨ Has gs f := by
  unfold Has
  simp only [List.mem_append, or_and_right, exists_or]

theorem has_singleton {g : Instance Fragment} {f : Fragment} :
    Has (fragmentsIn [.fragment g]) f ↔ g.value.alike f = true := by
  simp [Has, Node.fragment?]

theorem has_step (m : Merge) (n : Node) (f : Fragment) :
    Has (fragmentsIn (m.step n).kept) f ↔ Has (fragmentsIn m.kept) f ∨ Has (fragmentsIn [n]) f := by
  rcases m.step_cases n with ⟨o, rfl, -, hkept⟩ | ⟨g, rfl, hg, hstep⟩ | ⟨g, rfl, -, -, hkept⟩
  · rw [hkept, fragmentsIn_concat_operation]
    simp [Has, Node.fragment?]
  · obtain ⟨k, hk, halike⟩ : Has (fragmentsIn m.kept) g.value := List.any_eq_true.mp hg
    rw [hstep, has_singleton]
    refine ⟨.inl, ?_⟩
    rintro (h | h)
    · exact h
    · exact ⟨k, hk, Fragment.alike_trans halike h⟩
  · have halike := m.registry.alike_resolve g
    rw [hkept, fragmentsIn, List.filterMap_append, has_append, has_singleton, has_singleton]
    exact or_congr_right
      ⟨Fragment.alike_trans (Fragment.alike_symm halike), Fragment.alike_trans halike⟩

/-- A merge keeps a fragment like each one that it was given, and no others. -/
theorem has_all (r : Registry) (nodes : List Node) (f : Fragment) :
    Has (fragmentsIn (all r nodes).kept) f ↔ Has (fragmentsIn nodes) f := by
  have hfoldl (m : Merge) : Has (fragmentsIn (nodes.foldl step m).kept) f ↔
      Has (fragmentsIn m.kept) f ∨ Has (fragmentsIn nodes) f := by
    induction nodes generalizing m with
    | nil => simp [Has]
    | cons n nodes ih =>
      rw [List.foldl_cons, ih, has_step, or_assoc, ← has_append, ← List.filterMap_append,
        List.singleton_append]
  refine (hfoldl (start r)).trans ?_
  simp [start, Has]

end Merge

end QueryDoc
