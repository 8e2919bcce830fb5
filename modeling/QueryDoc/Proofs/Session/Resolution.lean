import Mathlib.Data.List.Forall2
import Mathlib.Data.List.Induction
import QueryDoc.Proofs.Session.Catalog

/-!
# Resolution

The document of a source has the definitions of its own text and those of the documents that it
embeds, less each fragment that is like an earlier one (`Node.firsts`). A fragment that stays is the
instance that the registry had for it, or else its own (`Registry.settle`). So the nodes and the
registry that a merge starts with tell what it keeps (`Merge.kept_all`), and the nodes alone tell
which of them are kept (`resolve_firsts`).
-/
namespace QueryDoc

/-! ## First occurrences -/

namespace Node

/-- Are the nodes fragments that are alike? -/
def alike : Node → Node → Bool
  | fragment f, fragment g => f.value.alike g.value
  | _, _ => false

/-- What stands for a definition in a listing: its kind, its name, and its body. -/
def face (n : Node) : String × Option String × String := (n.kind, n.name?, n.body)

/-- Faces tell whether fragments are alike. -/
theorem alike_congr {n n' m m' : Node} (hn : n.face = n'.face) (hm : m.face = m'.face) :
    n.alike m = n'.alike m' := by
  cases n <;> cases n' <;> cases m <;> cases m' <;>
    simp_all [face, kind, name?, body, alike, Fragment.alike]

/-- The nodes without each fragment that is like an earlier one. -/
def firsts : List Node → List Node
  | [] => []
  | n :: ns => n :: (firsts ns).filter fun m => !n.alike m

theorem firsts_append (ns ms : List Node) :
    firsts (ns ++ ms) = firsts ns ++ (firsts ms).filter fun m => !ns.any fun n => n.alike m := by
  induction ns with
  | nil => simp [firsts]
  | cons n ns ih =>
    simp only [List.cons_append, firsts, ih, List.filter_append, List.filter_filter, List.any_cons,
      Bool.not_or]

theorem firsts_concat (ns : List Node) (n : Node) :
    firsts (ns ++ [n]) = firsts ns ++ if ns.any fun m => m.alike n then [] else [n] := by
  rw [firsts_append]
  cases h : ns.any fun m => m.alike n <;> simp [firsts, h]

/-- No operation is left out. -/
theorem operations_firsts (ns : List Node) :
    (firsts ns).filterMap operation? = ns.filterMap operation? := by
  induction ns with
  | nil => rfl
  | cons n ns ih =>
    have hfilter : ((firsts ns).filter fun m => !n.alike m).filterMap operation? =
        (firsts ns).filterMap operation? := by
      rw [List.filterMap_filter]
      congr 1
      funext m
      cases n <;> cases m <;> simp [alike, operation?]
    rw [firsts, List.filterMap_cons, List.filterMap_cons, hfilter, ih]

/-- A fragment was met before exactly if one of the fragments in front is like it. -/
theorem any_alike_fragment {ns : List Node} {f : Instance Fragment} :
    (ns.any fun n => n.alike (.fragment f)) = true ↔ Merge.Has (fragmentsIn ns) f.value := by
  induction ns with
  | nil => simp [Merge.Has]
  | cons n ns ih =>
    rw [List.any_cons, Bool.or_eq_true, ih]
    cases n <;> simp [alike, Merge.Has, fragment?]

/-- Nodes whose faces are the same, place for place, have the same first occurrences. -/
theorem forall₂_firsts {R : Node → Node → Prop} (hR : ∀ n m, R n m → n.face = m.face)
    {ns ms : List Node} (h : List.Forall₂ R ns ms) : List.Forall₂ R (firsts ns) (firsts ms) := by
  induction h with
  | nil => exact .nil
  | @cons n m ns ms hn hns ih =>
    have halike {k k' : Node} (hk : R k k') : (!n.alike k) = true ↔ (!m.alike k') = true := by
      rw [alike_congr (hR _ _ hn) (hR _ _ hk)]
    exact .cons hn (List.rel_filter (fun k k' hk => halike hk) ih)

theorem map_face_eq {ns ms : List Node} (h : List.Forall₂ (fun n m => n.face = m.face) ns ms) :
    ns.map face = ms.map face := by
  induction h with
  | nil => rfl
  | cons hn _ ih => rw [List.map_cons, List.map_cons, hn, ih]

end Node

/-! ## Settled nodes -/

namespace Registry

/-- The node that goes for a node: an operation itself, and for a fragment the instance that the
registry has for it. -/
def settle (r : Registry) : Node → Node
  | .operation o => .operation o
  | .fragment f => .fragment (r.resolve f)

theorem face_settle (r : Registry) (n : Node) : (r.settle n).face = n.face := by
  cases n with
  | operation o => rfl
  | fragment f =>
    obtain ⟨hname, hbody⟩ := Fragment.alike_iff.mp (r.alike_resolve f)
    simp only [Node.face, settle, Node.kind, Node.name?, Node.body, hname, hbody]

theorem map_face_settle (r : Registry) (ns : List Node) :
    (ns.map r.settle).map Node.face = ns.map Node.face := by
  rw [List.map_map]
  exact List.map_congr_left fun n _ => r.face_settle n

theorem operations_settle (r : Registry) (ns : List Node) :
    (ns.map r.settle).filterMap Node.operation? = ns.filterMap Node.operation? := by
  rw [List.filterMap_map]
  congr 1
  funext n
  cases n <;> rfl

/-- Fragments that are not like a given one leave its instance as it is. -/
theorem resolve_registerAll {fs : List (Instance Fragment)} {f : Instance Fragment}
    (h : ¬ Merge.Has fs f.value) (r : Registry) : (r.registerAll fs).resolve f = r.resolve f := by
  induction fs generalizing r with
  | nil => rfl
  | cons g fs ih =>
    obtain ⟨hg, hfs⟩ : g.value.alike f.value = false ∧ ¬ Merge.Has fs f.value := by
      simpa [Merge.Has] using h
    refine (ih hfs (r.registering g)).trans ?_
    cases hinstance : r.instance? g.value with
    | some k => rw [registering_of_some hinstance]
    | none => rw [registering_of_none hinstance, resolve, resolve, instance?_add, hg]; simp

end Registry

namespace Merge

theorem keeps_iff_has {m : Merge} {f : Fragment} :
    m.keeps f = true ↔ Has (fragmentsIn m.kept) f := List.any_eq_true

/-- A merge keeps the first occurrences, settled by the registry that it started with. -/
theorem kept_all (r : Registry) (nodes : List Node) :
    (all r nodes).kept = (Node.firsts nodes).map r.settle := by
  induction nodes using List.reverseRecOn with
  | nil => rfl
  | append_singleton nodes n ih =>
    have hall : all r (nodes ++ [n]) = (all r nodes).step n := List.foldl_concat ..
    rw [hall, Node.firsts_concat, List.map_append]
    rcases (all r nodes).step_cases n with ⟨o, rfl, -, hkept⟩ | ⟨f, rfl, hf, hstep⟩ |
      ⟨f, rfl, hf, -, hkept⟩
    · have hnone : (nodes.any fun m => m.alike (.operation o)) = false := by simp [Node.alike]
      rw [hkept, ih, hnone]
      rfl
    · have hmet : Has (fragmentsIn nodes) f.value := (has_all r nodes _).mp (keeps_iff_has.mp hf)
      rw [hstep, ih, if_pos (Node.any_alike_fragment.mpr hmet), List.map_nil, List.append_nil]
    · have hkeeps : ¬ Has (fragmentsIn (all r nodes).kept) f.value := by
        rw [← keeps_iff_has, hf]
        exact Bool.false_ne_true
      have hnew := mt (has_all r nodes _).mpr hkeeps
      -- nothing that was registered on the way is like `f`
      have hresolve : (all r nodes).registry.resolve f = r.resolve f := by
        rw [(canonical_all r nodes).registry]
        exact Registry.resolve_registerAll hkeeps r
      rw [hkept, ih, hresolve, if_neg (mt Node.any_alike_fragment.mp hnew)]
      rfl

end Merge

/-! ## Two memories -/

namespace Registration

/-- The instance that is taken for a fragment. -/
def taken (f : Instance Fragment) : Registration → Instance Fragment
  | .known earlier => earlier
  | _ => f

theorem taken_register (r : Registry) (f : Instance Fragment) :
    (r.register f).1.taken f = r.resolve f := by
  unfold Registry.register
  cases h : r.get? f.value.name f.value.body with
  | some g => rw [Registry.resolve_of_some h]; rfl
  | none =>
    rw [Registry.resolve_of_none h]
    cases r.bodies f.value.name <;> rfl

end Registration

/-- A merge that remembers the fragments it has met by their names and bodies, and tells them to a
catalogue. -/
structure Walk where
  catalog : Catalog
  visited : List (String × String)
  kept : List Node
  warnings : List Warning

namespace Walk

def start (c : Catalog) : Walk := ⟨c, [], [], []⟩

/-- Takes a fragment in that was not met before. -/
def visit (w : Walk) (f : Instance Fragment) : Walk :=
  { catalog := (w.catalog.register f).2
    visited := w.visited ++ [(f.value.name, f.value.body)]
    kept := w.kept ++ [.fragment ((w.catalog.register f).1.taken f)]
    warnings := w.warnings ++ (w.catalog.register f).1.warnings f.value }

def step (w : Walk) : Node → Walk
  | .operation o => { w with kept := w.kept ++ [.operation o] }
  | .fragment f => if (f.value.name, f.value.body) ∈ w.visited then w else w.visit f

def all (c : Catalog) (nodes : List Node) : Walk := nodes.foldl step (start c)

/-- The walk is as far as the merge. -/
structure Follows (w : Walk) (m : Merge) : Prop where
  catalog : w.catalog = m.registry.catalog
  visited : ∀ f : Fragment, (f.name, f.body) ∈ w.visited ↔ m.keeps f = true
  kept : w.kept = m.kept
  warnings : w.warnings = m.warnings

theorem Follows.step {w : Walk} {m : Merge} (h : w.Follows m) (n : Node) :
    (w.step n).Follows (m.step n) := by
  have hkeeps (f : Fragment) : (m.step n).keeps f = true ↔
      m.keeps f = true ∨ Merge.Has (fragmentsIn [n]) f := by
    rw [Merge.keeps_iff_has, m.has_step, ← Merge.keeps_iff_has]
  cases n with
  | operation o =>
    refine ⟨h.catalog, fun f => ?_, congrArg (· ++ [Node.operation o]) h.kept, h.warnings⟩
    refine (h.visited f).trans ?_
    simp [hkeeps, Merge.Has, Node.fragment?]
  | fragment f =>
    by_cases hf : m.keeps f.value = true
    · rwa [Walk.step, if_pos ((h.visited f.value).mpr hf), Merge.step, if_pos hf]
    · have hstep : m.step (.fragment f) = m.register f := if_neg hf
      obtain ⟨hregistry, hwarnings⟩ := m.warnings_register f
      have hkept := (m.register_eq f).2
      have hregister := m.registry.register_catalog f
      rw [Walk.step, if_neg (mt (h.visited f.value).mp hf), visit, h.catalog, hregister]
      refine ⟨?_, fun g => ?_, ?_, ?_⟩
      · rw [hstep, hregistry]
      · rw [hkeeps, Merge.has_singleton, List.mem_append, h.visited, List.mem_singleton,
          Fragment.alike_iff, Prod.mk.injEq]
        exact or_congr_right (and_congr eq_comm eq_comm)
      · rw [hstep, hkept, h.kept, Registration.taken_register]
      · rw [hstep, hwarnings, h.warnings]

/-- A walk through a catalogue ends where the merge does that starts with the registry of the same
fragments. -/
theorem follows_all (r : Registry) (nodes : List Node) :
    (all r.catalog nodes).Follows (Merge.all r nodes) := by
  have hfoldl (w : Walk) (m : Merge) (h : w.Follows m) :
      (nodes.foldl step w).Follows (nodes.foldl Merge.step m) := by
    induction nodes generalizing w m with
    | nil => exact h
    | cons n nodes ih => exact ih _ _ (h.step n)
  exact hfoldl _ _ ⟨rfl, fun f => by simp [start, Merge.start, Merge.keeps], rfl, rfl⟩

end Walk

/-! ## The document of a source -/

theorem face_instance (d : Definition) (id id' : Nat) :
    (d.instance id).face = (d.instance id').face := by
  cases d <;> rfl

/-- One node, or instances of one of the definitions, numbered from two counters. -/
def Renumbered (own : List Definition) (next next' : Nat) (n m : Node) : Prop :=
  n = m ∨ ∃ i, ∃ h : i < own.length,
    n = own[i].instance (next + i) ∧ m = own[i].instance (next' + i)

theorem Renumbered.face_eq {own : List Definition} {next next' : Nat} {n m : Node}
    (h : Renumbered own next next' n m) : n.face = m.face := by
  rcases h with rfl | ⟨i, hi, rfl, rfl⟩
  · rfl
  · exact face_instance own[i] _ _

theorem renumbered_combine (own : List Definition) (next next' : Nat) (source : Source) :
    List.Forall₂ (Renumbered own next next') (Session.combine next own source)
      (Session.combine next' own source) := by
  have hown : List.Forall₂ (Renumbered own next next') (instances next own)
      (instances next' own) := by
    refine List.forall₂_iff_get.mpr ⟨by simp [instances], fun i h h' => ?_⟩
    have hi : i < own.length := by simpa [instances] using h
    exact .inr ⟨i, hi, by simp [instances], by simp [instances]⟩
  exact List.rel_append hown (List.forall₂_same.mpr fun n _ => .inl rfl)

namespace Session

theorem parsePrimary_congr {s s' : Session} (h : s.settings.parseOptions = s'.settings.parseOptions)
    (source : Source) : s.parsePrimary source = s'.parsePrimary source := by
  unfold parsePrimary
  rw [h]

variable (s : Session) (next next' : Nat) (source : Source) (own : List Definition)

/-- The document of a source that is stored, from its nodes. -/
theorem definitions_stored : (s.stored next source own).document.value.definitions =
    (Node.firsts (combine next own source)).map s.registry.settle := Merge.kept_all ..

theorem faces_stored : (s.stored next source own).document.value.definitions.map Node.face =
    (Node.firsts (combine next own source)).map Node.face := by
  rw [definitions_stored, Registry.map_face_settle]

/-- The faces of a source's nodes do not depend on the counter. -/
theorem faces_combine : (Node.firsts (combine next own source)).map Node.face =
    (Node.firsts (combine next' own source)).map Node.face := by
  have hfirsts := Node.forall₂_firsts (fun _ _ => Renumbered.face_eq)
    (renumbered_combine own next next' source)
  exact Node.map_face_eq (hfirsts.imp fun _ _ => Renumbered.face_eq)

end Session

/-- A source that can be read has the definitions of its own text and of the documents that it
embeds, less each fragment that is like an earlier one: they do not depend on the registry. All
operations are the instances that they were, and each fragment is the one that the registry has for
it from then on. -/
theorem resolve_firsts {s : Session} {next : Nat} {source : Source} {r : Reply}
    (h : s.resolve next source = .ok r) :
    ∃ own, s.parsePrimary source = .ok own ∧
      r.document.value.definitions.map Node.face =
        (Node.firsts (Session.combine next own source)).map Node.face ∧
      r.document.value.operations =
        (Session.combine next own source).filterMap Node.operation? ∧
      (∀ f ∈ r.document.value.fragments,
        r.session.registry.get? f.value.name f.value.body = some f) ∧
      ∀ (s' : Session) next', s.settings.parseOptions = s'.settings.parseOptions →
        ∃ r', s'.resolve next' source = .ok r' ∧
          r'.document.value.definitions.map Node.face =
            r.document.value.definitions.map Node.face := by
  rw [Session.resolve_eq] at h
  cases hown : s.parsePrimary source with
  | error f => rw [hown] at h; cases h
  | ok own =>
    rw [hown] at h
    cases h
    refine ⟨own, rfl, s.faces_stored _ _ _, ?_, (Merge.canonical_all _ _).registered, ?_⟩
    · rw [Document.operations, Session.definitions_stored, Registry.operations_settle,
        Node.operations_firsts]
    · intro s' next' hoptions
      refine ⟨s'.stored next' source own, ?_, ?_⟩
      · rw [Session.resolve_eq, ← Session.parsePrimary_congr hoptions, hown]
        rfl
      · rw [Session.faces_stored, Session.faces_stored, Session.faces_combine]

/-- A fragment that was registered before, an operation, and the fragment once more. -/
def fragmentTwice : Except ParseFailure Reply :=
  let e := (Engine.start {} 0).run [.text "fragment F on T \x7b x \x7d"]
  e.session.resolve e.next
    (.ofText "fragment F on T \x7bx\x7d \x7b ...F \x7d fragment F on T \x7b x, \x7d")

/-- The fragment is kept once, in the first place, as the instance that is registered. -/
theorem resolve_fragmentTwice : ∃ r, fragmentTwice = .ok r ∧
    r.document.value.definitions.map Node.id = [0, 3] ∧
    ∀ f ∈ r.document.value.fragments,
      r.session.registry.get? f.value.name f.value.body = some f := by
  have h : fragmentTwice.toOption.any (fun r =>
      r.document.value.definitions.map Node.id == [0, 3]) = true := by
    decide +kernel
  simp only [Option.any_eq_true, beq_iff_eq] at h
  obtain ⟨r, hr, hids⟩ := h
  obtain ⟨own, -, -, -, hregistered, -⟩ := resolve_firsts (toOption_eq_some hr)
  exact ⟨r, toOption_eq_some hr, hids, hregistered⟩

end QueryDoc
