import QueryDoc.Proofs.Session.Coherence

/-!
# Warnings

A run warns of each body that is not the first under its name, and of nothing else: the warnings of
a name are told by the bodies that the registry lists under it (`Registry.collisions`). Registering
one fragment adds to both in step, and so do a merge and a call, which registers no more than it
merges.
-/
namespace QueryDoc

/-! ## Collisions -/

namespace Registry

variable {r : Registry}

/-- The warnings that the bodies under a name amount to: each body but the first collides with the
first. -/
def collisions (r : Registry) (name : String) : List Warning :=
  match r.bodies name with
  | [] => []
  | first :: others => others.map fun body => ⟨name, first, body⟩

theorem bodies_add (r : Registry) (f : Instance Fragment) (name : String) :
    (r.add f).bodies name =
      r.bodies name ++ if f.value.name = name then [f.value.body] else [] := by
  simp only [bodies, named, add, List.filter_append, List.map_append]
  split <;> simp_all

end Registry

/-- The warnings that a registration of the fragment gives rise to. -/
def Registration.warnings (f : Fragment) : Registration → List Warning
  | .collision first => [⟨f.name, first, f.body⟩]
  | _ => []

/-- The warnings that concern the given name. -/
def warningsOf (name : String) (ws : List Warning) : List Warning :=
  ws.filter fun w => w.fragment == name

@[simp] theorem warningsOf_append (name : String) (ws vs : List Warning) :
    warningsOf name (ws ++ vs) = warningsOf name ws ++ warningsOf name vs := List.filter_append ..

/-- A registration adds the collisions that it warns of. -/
theorem Registry.collisions_register (r : Registry) (f : Instance Fragment) (name : String) :
    (r.register f).2.collisions name =
      r.collisions name ++ warningsOf name ((r.register f).1.warnings f.value) := by
  unfold register
  cases r.get? f.value.name f.value.body with
  | some earlier => simp [Registration.warnings, warningsOf]
  | none =>
    by_cases hname : f.value.name = name
    · subst hname
      cases hb : r.bodies f.value.name <;>
        simp [collisions, bodies_add, hb, Registration.warnings, warningsOf]
    · cases r.bodies f.value.name <;>
        simp [collisions, bodies_add, hname, Registration.warnings, warningsOf]

/-! ## Merges -/

namespace Merge

theorem warnings_register (m : Merge) (f : Instance Fragment) :
    (m.register f).registry = (m.registry.register f).2 ∧
      (m.register f).warnings = m.warnings ++ (m.registry.register f).1.warnings f.value := by
  unfold register
  cases m.registry.register f with
  | mk registration r => cases registration <;> simp [keep, warn, Registration.warnings]

/-- A step leaves registry and warnings as they are, or registers a fragment and warns of that. -/
theorem warnings_step_cases (m : Merge) (n : Node) :
    ((m.step n).registry = m.registry ∧ (m.step n).warnings = m.warnings) ∨
    ∃ f, (m.step n).registry = (m.registry.register f).2 ∧
      (m.step n).warnings = m.warnings ++ (m.registry.register f).1.warnings f.value := by
  cases n with
  | operation o => exact .inl ⟨rfl, rfl⟩
  | fragment f =>
    by_cases hf : m.keeps f.value = true
    · refine .inl ?_
      rw [step, if_pos hf]
      exact ⟨rfl, rfl⟩
    · refine .inr ⟨f, ?_⟩
      rw [step, if_neg hf]
      exact m.warnings_register f

/-- The merge, which started from the registry `r`, has warned of the collisions that it added. -/
def Warned (r : Registry) (m : Merge) : Prop :=
  ∀ name, m.registry.collisions name = r.collisions name ++ warningsOf name m.warnings

theorem Warned.step {r : Registry} {m : Merge} (h : m.Warned r) (n : Node) :
    (m.step n).Warned r := by
  intro name
  rcases m.warnings_step_cases n with ⟨hregistry, hwarnings⟩ | ⟨f, hregistry, hwarnings⟩
  · rw [hregistry, hwarnings, h name]
  · rw [hregistry, hwarnings, Registry.collisions_register, h name, warningsOf_append,
      List.append_assoc]

/-- A merge warns of the collisions that it adds. -/
theorem warned_all (r : Registry) (nodes : List Node) : (all r nodes).Warned r := by
  have hstart : (start r).Warned r := fun name => by simp [start, warningsOf]
  exact List.foldlRecOn nodes step hstart fun _ h n _ => h.step n

end Merge

/-! ## Runs -/

namespace Engine

variable {e : Engine} {c : Call}

/-- The warnings of a call. A call without a reply warns of nothing. -/
def warned (e : Engine) (c : Call) : List Warning := (e.reply? c).elim [] Reply.warnings

/-- The warnings of a run, in order. -/
def emitted (e : Engine) : List Call → List Warning
  | [] => []
  | c :: cs => e.warned c ++ (e.call c).emitted cs

/-- Are the warnings on? -/
def Warns (e : Engine) : Prop := e.session.settings.fragmentWarnings = true

theorem Warns.call (h : e.Warns) (hc : c ≠ .setWarnings false) : (e.call c).Warns := by
  unfold Warns
  rw [settings_call]
  cases c with
  | setWarnings on =>
    cases on with
    | true => rfl
    | false => exact absurd rfl hc
  | source s | file v path | reset | setVariables on | elsewhere count => exact h

/-- While the warnings are on, a call that stores a document warns of what its merge met. -/
theorem Warns.warned_eq (h : e.Warns) {source : Source} {own : List Definition}
    (reply : e.reply? c = some (e.session.stored e.next source own)) : e.warned c =
      (Merge.all e.session.registry (Session.combine e.next own source)).warnings := by
  rw [warned, reply]
  exact if_pos h

/-- While the warnings are on, a call warns of the collisions that it adds to the registry. -/
theorem collisions_call (h : e.Warns) (hc : c ≠ .reset) (name : String) :
    (e.call c).session.registry.collisions name =
      e.session.registry.collisions name ++ warningsOf name (e.warned c) := by
  cases e.effect c with
  | reset isReset call reply => exact absurd isReset hc
  | hit source d called cached call reply => simp [call, warned, reply, warningsOf]
  | stored source own called vacant read call reply =>
    rw [call, h.warned_eq reply]
    exact Merge.warned_all _ _ name
  | kept next notReset le call reply => simp [call, warned, reply, warningsOf]

/-- While the warnings are on, a run warns of the collisions that it adds to the registry. -/
theorem collisions_run (h : e.Warns) {calls : List Call}
    (hc : ∀ c ∈ calls, c ≠ .reset ∧ c ≠ .setWarnings false) (name : String) :
    (e.run calls).session.registry.collisions name =
      e.session.registry.collisions name ++ warningsOf name (e.emitted calls) := by
  induction calls generalizing e with
  | nil => simp [run, emitted, warningsOf]
  | cons c calls ih =>
    obtain ⟨⟨hreset, hoff⟩, hrest⟩ := List.forall_mem_cons.mp hc
    have hfirst := collisions_call h hreset name
    have hbehind := ih (h.call hoff) hrest
    rw [hfirst] at hbehind
    simp only [emitted, warningsOf_append, ← List.append_assoc]
    exact hbehind

end Engine

/-! ## No body twice -/

theorem Registry.distinct_registering {r : Registry} (h : Distinct r.fragments)
    (f : Instance Fragment) : Distinct (r.registering f).fragments := by
  cases hf : r.instance? f.value with
  | some g => rwa [registering_of_some hf]
  | none =>
    rw [registering_of_none hf, add]
    refine List.pairwise_append.mpr ⟨h, List.pairwise_singleton _ _, ?_⟩
    simp only [List.mem_singleton, forall_eq]
    rw [instance?_eq_find?, List.find?_eq_none] at hf
    exact fun g hg => Bool.eq_false_iff.mpr (hf g hg)

theorem Registry.distinct_registerAll {r : Registry} (h : Distinct r.fragments)
    (fs : List (Instance Fragment)) : Distinct (r.registerAll fs).fragments := by
  induction fs generalizing r with
  | nil => exact h
  | cons f fs ih => exact ih (distinct_registering h f)

theorem Registry.nodup_bodies {r : Registry} (h : Distinct r.fragments) (name : String) :
    (r.bodies name).Nodup := by
  refine List.pairwise_map.mpr (List.Pairwise.imp_of_mem ?_ (h.filter _))
  intro f g hf hg hfg hbody
  have hname : f.value.name = name := by simpa using (List.mem_filter.mp hf).2
  have hname' : g.value.name = name := by simpa using (List.mem_filter.mp hg).2
  rw [Fragment.alike_iff.mpr ⟨hname.trans hname'.symm, hbody⟩] at hfg
  cases hfg

/-- What a name is warned of is told apart by the bodies, and the first body is not among them. -/
theorem Registry.nodup_collisions {r : Registry} (h : Distinct r.fragments) (name : String) :
    ((r.collisions name).map Warning.newBody).Nodup ∧
      ∀ w ∈ r.collisions name, ∃ others, r.bodies name = w.firstBody :: others ∧
        w.newBody ∈ others ∧ w.newBody ≠ w.firstBody := by
  have hnodup := nodup_bodies h name
  unfold collisions
  cases hb : r.bodies name with
  | nil => simp
  | cons first others =>
    rw [hb, List.nodup_cons] at hnodup
    constructor
    · simpa [Function.comp_def] using hnodup.2
    · simp only [List.forall_mem_map]
      intro body hbody
      refine ⟨others, rfl, hbody, ?_⟩
      rintro rfl
      exact hnodup.1 hbody

/-- Warnings are told apart by name and body if those of each name are told apart by the body. -/
theorem nodup_of_warningsOf {ws : List Warning}
    (h : ∀ name, ((warningsOf name ws).map Warning.newBody).Nodup) :
    (ws.map fun w => (w.fragment, w.newBody)).Nodup := by
  induction ws with
  | nil => exact .nil
  | cons w ws ih =>
    rw [List.map_cons, List.nodup_cons]
    constructor
    · intro hmem
      obtain ⟨v, hv, he⟩ := List.mem_map.mp hmem
      obtain ⟨hname, hbody⟩ := Prod.mk.inj he
      have hw := h w.fragment
      simp only [warningsOf, List.filter_cons, beq_self_eq_true, if_true, List.map_cons,
        List.nodup_cons, List.mem_map, List.mem_filter, beq_iff_eq, not_exists] at hw
      exact hw.1 v ⟨⟨hv, hname⟩, hbody⟩
    · apply ih
      intro name
      refine (h name).sublist ?_
      exact ((List.sublist_cons_self w ws).filter _).map _

/-! ## Since the last reset -/

/-- Since the engine was new or was reset last, with the warnings on all the time: the warnings of a
name are its bodies but the first, in the order they were registered in, and each names the first.
No body is warned of twice, and no first body at all. -/
theorem warnings_since_reset {settings : Settings} {next : Nat} {earlier since : List Call}
    (hnew : earlier = [] ∨ ∃ front, earlier = front ++ [.reset])
    (hon : ((Engine.start settings next).run earlier).Warns)
    (hsince : ∀ c ∈ since, c ≠ .reset ∧ c ≠ .setWarnings false) :
    (∀ name, warningsOf name (((Engine.start settings next).run earlier).emitted since) =
      ((Engine.start settings next).run (earlier ++ since)).session.registry.collisions name) ∧
    ((((Engine.start settings next).run earlier).emitted since).map fun w =>
      (w.fragment, w.newBody)).Nodup ∧
    ∀ w ∈ ((Engine.start settings next).run earlier).emitted since, ∃ others,
      ((Engine.start settings next).run (earlier ++ since)).session.registry.bodies w.fragment =
        w.firstBody :: others ∧ w.newBody ∈ others ∧ w.newBody ≠ w.firstBody := by
  have hempty : ((Engine.start settings next).run earlier).session.registry = .empty := by
    rcases hnew with rfl | ⟨front, rfl⟩
    · rfl
    · rw [Engine.run_concat]
      rfl
  have hall (name : String) :
      warningsOf name (((Engine.start settings next).run earlier).emitted since) =
        ((Engine.start settings next).run (earlier ++ since)).session.registry.collisions name := by
    have hrun := Engine.collisions_run hon hsince name
    rw [hempty, ← Engine.run_append] at hrun
    exact hrun.symm
  have hcoherent : ((Engine.start settings next).run (earlier ++ since)).session.Coherent :=
    Engine.run_induction (P := fun e => e.session.Coherent) (Session.coherent_new settings)
      fun c _ e h => Engine.coherent_call h c
  have hdistinct : Distinct
      ((Engine.start settings next).run (earlier ++ since)).session.registry.fragments := by
    rw [hcoherent.registry]
    exact Registry.distinct_registerAll .nil _
  refine ⟨hall, nodup_of_warningsOf ?_, ?_⟩
  · intro name
    rw [hall]
    exact (Registry.nodup_collisions hdistinct name).1
  · intro w hw
    refine (Registry.nodup_collisions hdistinct w.fragment).2 w ?_
    rw [← hall]
    simpa [warningsOf] using hw

/-- Three bodies under one name, one of them twice, and a text that cannot be read. -/
def threeBodies : List Call :=
  [.text "fragment F on T \x7b y \x7d", .text "\x7b", .text "fragment F on T \x7b x \x7d",
    .text "fragment F on T \x7by\x7d fragment F on T \x7bz\x7d"]

/-- Behind a reset, a name that was taken before is warned of once for each body but the first. -/
theorem warnings_of_threeBodies :
    (∀ c ∈ threeBodies, c ≠ .reset ∧ c ≠ .setWarnings false) ∧
    ((Engine.start {} 0).run [.text "fragment F on T \x7b x \x7d", .reset]).Warns ∧
    warningsOf "F" (((Engine.start {} 0).run
      [.text "fragment F on T \x7b x \x7d", .reset]).emitted threeBodies) =
      [⟨"F", "fragment F on T \x7b y \x7d", "fragment F on T \x7b x \x7d"⟩,
        ⟨"F", "fragment F on T \x7b y \x7d", "fragment F on T \x7b z \x7d"⟩] := by
  have hsince : ∀ c ∈ threeBodies, c ≠ .reset ∧ c ≠ .setWarnings false := by
    simp [threeBodies, Call.text]
  have hon : ((Engine.start {} 0).run [.text "fragment F on T \x7b x \x7d", .reset]).Warns := by
    unfold Engine.Warns
    decide +kernel
  have hnew : [Call.text "fragment F on T \x7b x \x7d", .reset] = [] ∨
      ∃ front, [Call.text "fragment F on T \x7b x \x7d", .reset] = front ++ [.reset] :=
    .inr ⟨[_], rfl⟩
  refine ⟨hsince, hon, ((warnings_since_reset hnew hon hsince).1 "F").trans ?_⟩
  decide +kernel

end QueryDoc
