import Mathlib.Data.List.DropRight
import Mathlib.Data.List.Induction
import QueryDoc.Proofs.Session.Catalog

/-!
# Histories

What a registry answers is told by the fragments that were registered since it was last reset
(`register_history`). These fragments, listed with all that came twice, make up a registry as well,
and the two answer alike but that one of them lists a body once (`Registry.Tells`).
-/
namespace QueryDoc

namespace Registry

variable {r h : Registry} {f : Instance Fragment} {name body : String}

/-- What can happen to a registry. -/
inductive Event where
  | register (f : Instance Fragment)
  | reset

def Event.fragment? : Event → Option (Instance Fragment)
  | register f => some f
  | reset => none

/-- The registry behind an event. -/
def after (r : Registry) : Event → Registry
  | .register f => (r.register f).2
  | .reset => empty

/-- The registry behind a history. -/
def replay (events : List Event) : Registry := events.foldl after empty

/-- The fragments that were registered since the last reset, in order. -/
def since (events : List Event) : List (Instance Fragment) :=
  (events.rtakeWhile fun e => e.fragment?.isSome).filterMap Event.fragment?

/-! ## Lookups -/

theorem get?_add (r : Registry) (f : Instance Fragment) (name body : String) :
    (r.add f).get? name body = (r.get? name body).or
      (if f.value.name = name ∧ f.value.body = body then some f else none) := by
  simp [get?, add, List.find?_append, List.find?_singleton]

theorem get?_eq_none_iff : r.get? name body = none ↔ body ∉ r.bodies name := by
  simp [get?, bodies, named]

theorem mem_names_of_mem_bodies (hbody : body ∈ r.bodies name) : name ∈ r.names := by
  rw [mem_names]
  intro hnil
  simp [bodies, hnil] at hbody

/-! ## Registries and their histories -/

/-- The registry answers as its history does, but that it lists a body once. -/
structure Tells (r h : Registry) : Prop where
  names : r.names = h.names
  bodies : ∀ name, r.bodies name = (h.bodies name).eraseDups
  get? : ∀ name body, r.get? name body = h.get? name body

theorem Tells.registering (hr : r.Tells h) (f : Instance Fragment) :
    (r.registering f).Tells (h.add f) := by
  have hnew : r.instance? f.value = none ↔ f.value.body ∉ h.bodies f.value.name := by
    rw [instance?, hr.get?, get?_eq_none_iff]
  cases hf : r.instance? f.value with
  | some g =>
    have hbody : f.value.body ∈ h.bodies f.value.name := by simpa [hf] using hnew
    rw [registering_of_some hf]
    refine ⟨?_, fun name => ?_, fun name body => ?_⟩
    · rw [names_add, if_pos (mem_names_of_mem_bodies hbody), hr.names]
    · rw [bodies_add, hr.bodies]
      split
      · next hname => rw [Engine.eraseDups_concat, if_pos (hname ▸ hbody)]
      · rw [List.append_nil]
    · rw [get?_add, ← hr.get?]
      split
      · next heq =>
        obtain ⟨rfl, rfl⟩ := heq
        rw [show r.get? f.value.name f.value.body = some g from hf, Option.some_or]
      · rw [Option.or_none]
  | none =>
    have hbody := hnew.mp hf
    rw [registering_of_none hf]
    refine ⟨?_, fun name => ?_, fun name body => ?_⟩
    · rw [names_add, names_add, hr.names]
    · rw [bodies_add, bodies_add, hr.bodies]
      split
      · next hname => rw [Engine.eraseDups_concat, if_neg (hname ▸ hbody)]
      · rw [List.append_nil, List.append_nil]
    · rw [get?_add, get?_add, hr.get?]

/-- A registry tells its history since the last reset. -/
theorem tells_replay (events : List Event) : (replay events).Tells ⟨since events⟩ := by
  induction events using List.reverseRecOn with
  | nil => exact ⟨rfl, fun _ => rfl, fun _ _ => rfl⟩
  | append_singleton events e ih =>
    rw [replay, List.foldl_append]
    cases e with
    | reset =>
      have hsince : since (events ++ [.reset]) = [] := by simp [since, Event.fragment?]
      rw [hsince]
      exact ⟨rfl, fun _ => rfl, fun _ _ => rfl⟩
    | register f =>
      have hsince : since (events ++ [.register f]) = since events ++ [f] := by
        simp [since, Event.fragment?]
      rw [hsince]
      exact ih.registering f

theorem nodup_names (r : Registry) : r.names.Nodup := by
  obtain ⟨fs⟩ := r
  induction fs using List.reverseRecOn with
  | nil => exact .nil
  | append_singleton fs f ih =>
    change (add ⟨fs⟩ f).names.Nodup
    rw [names_add]
    split
    · exact ih
    · next hnew =>
      refine List.nodup_append.mpr ⟨ih, by simp, ?_⟩
      simp only [List.mem_singleton, forall_eq]
      rintro name hname rfl
      exact hnew hname

theorem distinct_replay (events : List Event) : Distinct (replay events).fragments := by
  have hafter (r : Registry) (hr : Distinct r.fragments) :
      Distinct (events.foldl after r).fragments := by
    induction events generalizing r with
    | nil => exact hr
    | cons e events ih =>
      cases e with
      | register f => exact ih _ (distinct_registering hr f)
      | reset => exact ih _ .nil
  exact hafter empty .nil

/-! ## Registrations -/

theorem head?_eraseDups (l : List String) : l.eraseDups.head? = l.head? := by
  cases l <;> simp [List.eraseDups_cons]

theorem bodies_eq_nil_iff : r.bodies name = [] ↔ name ∉ r.names := by
  rw [mem_names, not_not, bodies, List.map_eq_nil_iff]

theorem register_eq_registered_iff :
    (r.register f).1 = .registered ↔ f.value.name ∉ r.names := by
  rw [← bodies_eq_nil_iff]
  unfold register
  cases hget : r.get? f.value.name f.value.body with
  | some e =>
    have hne : r.bodies f.value.name ≠ [] := by
      intro hnil
      rw [get?_eq_none_iff.mpr (by simp [hnil])] at hget
      cases hget
    simp [hne]
  | none => cases r.bodies f.value.name <;> simp

theorem register_eq_known_iff {g : Instance Fragment} :
    (r.register f).1 = .known g ↔ r.instance? f.value = some g := by
  unfold register instance?
  cases r.get? f.value.name f.value.body with
  | some e => simp
  | none => cases r.bodies f.value.name <;> simp

theorem register_eq_collision_iff {first : String} : (r.register f).1 = .collision first ↔
    r.instance? f.value = none ∧ (r.bodies f.value.name).head? = some first := by
  unfold register instance?
  cases r.get? f.value.name f.value.body with
  | some e => simp
  | none => cases r.bodies f.value.name <;> simp

end Registry

/-! ## Catalogues -/

/-- No name and no body under a name is listed twice, no shelf is empty, and every fragment stands
on the shelf of its name, under its body. -/
structure Catalog.WellFormed (c : Catalog) : Prop where
  names : c.names.Nodup
  bodies : ∀ s ∈ c.shelves, (s.2.map Prod.fst).Nodup
  shelves : ∀ s ∈ c.shelves, s.2 ≠ []
  fragments : ∀ s ∈ c.shelves, ∀ x ∈ s.2, x.2.value.name = s.1 ∧ x.2.value.body = x.1

namespace Catalog

/-- The catalogue behind an event. -/
def after (c : Catalog) : Registry.Event → Catalog
  | .register f => (c.register f).2
  | .reset => empty

/-- The catalogue behind a history. -/
def replay (events : List Registry.Event) : Catalog := events.foldl after empty

theorem after_catalog (r : Registry) (e : Registry.Event) :
    r.catalog.after e = (r.after e).catalog := by
  cases e with
  | register f => exact congrArg Prod.snd (r.register_catalog f)
  | reset => rfl

theorem replay_eq (events : List Registry.Event) :
    replay events = (Registry.replay events).catalog :=
  (List.foldl_hom Registry.catalog after_catalog :
    events.foldl after (Registry.catalog .empty) = _)

theorem wellFormed_replay (events : List Registry.Event) : (replay events).WellFormed := by
  rw [replay_eq]
  have hshelf {s : String × Shelf} (hs : s ∈ (Registry.replay events).catalog.shelves) :
      s.1 ∈ (Registry.replay events).names ∧ s.2 = (Registry.replay events).shelf s.1 := by
    obtain ⟨name, hname, rfl⟩ := List.mem_map.mp hs
    exact ⟨hname, rfl⟩
  refine ⟨?_, fun s hs => ?_, fun s hs => ?_, fun s hs => ?_⟩
  · rw [Registry.names_catalog]
    exact Registry.nodup_names _
  · rw [(hshelf hs).2, Registry.map_fst_shelf]
    exact Registry.nodup_bodies (Registry.distinct_replay events) s.1
  · rw [(hshelf hs).2, Registry.shelf]
    exact mt List.map_eq_nil_iff.mp (Registry.mem_names.mp (hshelf hs).1)
  · rw [(hshelf hs).2]
    intro x hx
    obtain ⟨f, hf, rfl⟩ := List.mem_map.mp hx
    exact ⟨by simpa using (List.mem_filter.mp hf).2, rfl⟩

end Catalog

/-- What a registry answers is what was registered since it was last reset. -/
theorem register_history (events : List Registry.Event) :
    let fs := Registry.since events
    let r := Registry.replay events
    let c := Catalog.replay events
    (∀ f, ((r.register f).1 = .registered ↔ ∀ g ∈ fs, g.value.name ≠ f.value.name) ∧
      (∀ e, (r.register f).1 = .known e ↔ fs.find? (fun g => g.value.alike f.value) = some e) ∧
      ∀ first, (r.register f).1 = .collision first ↔
        fs.find? (fun g => g.value.alike f.value) = none ∧
          (fs.find? fun g => g.value.name == f.value.name).map (fun g => g.value.body) =
            some first) ∧
    r.names = (fs.map fun g => g.value.name).eraseDups ∧
    (∀ name, r.bodies name =
      ((fs.filter fun g => g.value.name == name).map fun g => g.value.body).eraseDups) ∧
    (∀ name body, r.get? name body =
      fs.find? fun g => g.value.name == name && g.value.body == body) ∧
    c.WellFormed ∧ (∀ f, (c.register f).1 = (r.register f).1) ∧ c.names = r.names ∧
    (∀ name, c.bodies name = r.bodies name) ∧
    ∀ name body, c.get? name body = r.get? name body := by
  intro fs r c
  have htells := Registry.tells_replay events
  have hc : c = r.catalog := Catalog.replay_eq events
  refine ⟨fun f => ⟨?_, fun e => ?_, fun first => ?_⟩, htells.names, htells.bodies, htells.get?,
    Catalog.wellFormed_replay events, ?_, ?_, ?_, ?_⟩
  · rw [Registry.register_eq_registered_iff, htells.names]
    simp [Registry.names, fs]
  · rw [Registry.register_eq_known_iff, Registry.instance?, htells.get?]
    rfl
  · rw [Registry.register_eq_collision_iff, Registry.instance?, htells.get?, htells.bodies,
      Registry.head?_eraseDups, Registry.bodies, List.head?_map, Registry.named, List.head?_filter]
    rfl
  · intro f
    rw [hc, Registry.register_catalog]
  · rw [hc, Registry.names_catalog]
  · intro name
    rw [hc, Registry.bodies_catalog]
  · intro name body
    rw [hc, Registry.get?_catalog]

end QueryDoc
