import Mathlib.Data.List.Basic
import QueryDoc.Proofs.Session.Stability
import QueryDoc.Proofs.Session.Warnings

/-!
# Catalogues

A registry kept in two levels: the names in the order they were first registered, and for each name
a shelf with its bodies in the order they were registered, each with its instance. Only the shelf of
its own name is looked at when a fragment is registered. A catalogue answers as the registry does
that lists the same fragments (`Registry.register_catalog`).
-/
namespace QueryDoc

/-- The bodies under one name. -/
abbrev Shelf := List (String × Instance Fragment)

structure Catalog where
  shelves : List (String × Shelf)

namespace Catalog

def empty : Catalog := ⟨[]⟩

def names (c : Catalog) : List String := c.shelves.map Prod.fst

def shelf? (c : Catalog) (name : String) : Option Shelf := c.shelves.lookup name

def bodies (c : Catalog) (name : String) : List String := ((c.shelf? name).getD []).map Prod.fst

def get? (c : Catalog) (name body : String) : Option (Instance Fragment) :=
  (c.shelf? name).bind fun shelf => shelf.lookup body

/-- Puts a fragment last on the shelf of its name. -/
def shelve (c : Catalog) (f : Instance Fragment) : Catalog :=
  ⟨c.shelves.map fun s => if s.1 = f.value.name then (s.1, s.2 ++ [(f.value.body, f)]) else s⟩

def register (c : Catalog) (f : Instance Fragment) : Registration × Catalog :=
  match c.shelf? f.value.name with
  | none => (.registered, ⟨c.shelves ++ [(f.value.name, [(f.value.body, f)])]⟩)
  | some shelf =>
    match shelf.lookup f.value.body with
    | some earlier => (.known earlier, c)
    | none => (.collision ((shelf.map Prod.fst).headD ""), c.shelve f)

end Catalog

namespace Registry

variable {r : Registry} {f : Instance Fragment} {name : String}

/-- The fragments of a registry under one name, by their bodies. -/
def shelf (r : Registry) (name : String) : Shelf := (r.named name).map fun f => (f.value.body, f)

/-- The catalogue of the fragments that a registry lists. -/
def catalog (r : Registry) : Catalog := ⟨r.names.map fun name => (name, r.shelf name)⟩

/-! ## One more fragment -/

theorem mem_names : name ∈ r.names ↔ r.named name ≠ [] := by
  simp [names, named]

theorem names_add (r : Registry) (f : Instance Fragment) :
    (r.add f).names = if f.value.name ∈ r.names then r.names else r.names ++ [f.value.name] := by
  rw [names, add, List.map_append, List.map_singleton, Engine.eraseDups_concat]
  simp [names]

theorem shelf_add (r : Registry) (f : Instance Fragment) (name : String) :
    (r.add f).shelf name =
      r.shelf name ++ if f.value.name = name then [(f.value.body, f)] else [] := by
  simp only [shelf, named, add, List.filter_append, List.map_append]
  split <;> simp_all

/-- A fragment goes on the shelf of its name. -/
theorem shelve_catalog (h : r.named f.value.name ≠ []) :
    r.catalog.shelve f = (r.add f).catalog := by
  have hnames : (r.add f).names = r.names := by rw [names_add, if_pos (mem_names.mpr h)]
  simp only [Catalog.shelve, catalog, hnames, List.map_map, Catalog.mk.injEq]
  refine List.map_congr_left fun name _ => ?_
  by_cases hname : name = f.value.name
  · simp [shelf_add, hname]
  · simp [shelf_add, hname, Ne.symm hname]

/-- A new name gets a shelf of its own, behind all others. -/
theorem catalog_add_of_new (h : r.named f.value.name = []) :
    (r.add f).catalog = ⟨r.catalog.shelves ++ [(f.value.name, [(f.value.body, f)])]⟩ := by
  have hnew : f.value.name ∉ r.names := by rwa [mem_names, not_not]
  have hshelf : (r.add f).shelf f.value.name = [(f.value.body, f)] := by
    rw [shelf_add, shelf, h, if_pos rfl]
    rfl
  simp only [catalog, names_add, if_neg hnew, List.map_append, List.map_singleton, hshelf,
    Catalog.mk.injEq, List.append_cancel_right_eq]
  refine List.map_congr_left fun name hname => ?_
  have hne : f.value.name ≠ name := by
    rintro rfl
    exact hnew hname
  simp [shelf_add, hne]

/-! ## What a catalogue answers -/

theorem shelf?_catalog (r : Registry) (name : String) :
    r.catalog.shelf? name = if r.named name = [] then none else some (r.shelf name) := by
  by_cases h : r.named name = []
  · rw [if_pos h, Catalog.shelf?, catalog, List.lookup_eq_none_iff]
    simp only [List.mem_map, forall_exists_index, and_imp]
    rintro s n hn rfl
    refine bne_iff_ne.mpr ?_
    rintro rfl
    exact mem_names.mp hn h
  · rw [if_neg h]
    exact List.lookup_graph r.shelf (mem_names.mpr h)

theorem lookup_shelf (r : Registry) (name body : String) :
    (r.shelf name).lookup body = r.get? name body := by
  unfold shelf named get?
  induction r.fragments with
  | nil => rfl
  | cons g fs ih =>
    rw [List.filter_cons, List.find?_cons]
    by_cases hname : g.value.name = name
    · by_cases hbody : g.value.body = body
      · simp [hname, hbody]
      · have hlookup := beq_false_of_ne (Ne.symm hbody)
        simp [hname, beq_false_of_ne hbody, hlookup, List.lookup_cons, ih]
    · simp [beq_false_of_ne hname, ih]

theorem map_fst_shelf (r : Registry) (name : String) :
    (r.shelf name).map Prod.fst = r.bodies name := List.map_map ..

theorem names_catalog (r : Registry) : r.catalog.names = r.names := by
  simp [Catalog.names, catalog, Function.comp_def]

theorem bodies_catalog (r : Registry) (name : String) :
    r.catalog.bodies name = r.bodies name := by
  rw [Catalog.bodies, shelf?_catalog]
  split
  · next h => rw [bodies, h]; rfl
  · exact r.map_fst_shelf name

theorem get?_catalog (r : Registry) (name body : String) :
    r.catalog.get? name body = r.get? name body := by
  rw [Catalog.get?, shelf?_catalog, ← lookup_shelf]
  split
  · next h => rw [shelf, h]; rfl
  · rfl

/-- A catalogue registers a fragment as the registry does. -/
theorem register_catalog (r : Registry) (f : Instance Fragment) :
    r.catalog.register f = ((r.register f).1, (r.register f).2.catalog) := by
  unfold Catalog.register register
  rw [shelf?_catalog]
  by_cases h : r.named f.value.name = []
  · have hnone : r.get? f.value.name f.value.body = none := by
      rw [← lookup_shelf, shelf, h]
      rfl
    have hbodies : r.bodies f.value.name = [] := by rw [bodies, h]; rfl
    rw [if_pos h, hnone, hbodies]
    simp only [catalog_add_of_new h]
  · rw [if_neg h]
    simp only [lookup_shelf]
    cases hget : r.get? f.value.name f.value.body with
    | some earlier => rfl
    | none =>
      simp only [map_fst_shelf, shelve_catalog h]
      cases hbodies : r.bodies f.value.name with
      | nil => exact absurd (List.map_eq_nil_iff.mp hbodies) h
      | cons first others => rfl

end Registry

end QueryDoc
