import QueryDoc.Proofs.Lexis.Key

/-!
# Nested brackets

Brackets are nested if each one that opens is closed by its partner, with nested brackets between
the two. In nested brackets the level never falls below where it started, and what stands between
two partners is never on the ground.
-/
namespace QueryDoc

/-- The bracket that closes an opening one. -/
def Punctuator.partner? : Punctuator → Option Punctuator
  | parenOpen => some parenClose
  | squareOpen => some squareClose
  | braceOpen => some braceClose
  | _ => none

theorem Punctuator.nesting_of_partner? {p q : Punctuator} (h : p.partner? = some q) :
    p.nesting = 1 ∧ q.nesting = -1 := by
  unfold partner? at h
  split at h <;> cases h <;> exact ⟨rfl, rfl⟩

namespace Lexis

variable {α β : Type}

/-! ## Levels -/

/-- How far an element moves the level; `p` says which elements are punctuators. -/
def turn (p : α → Option Punctuator) (a : α) : Int := (p a).elim 0 Punctuator.nesting

def level (p : α → Option Punctuator) : List α → Int
  | [] => 0
  | a :: as => turn p a + level p as

/-- The elements in front of which the level is zero; in front of the first one it is `depth`. -/
def ground (p : α → Option Punctuator) (depth : Int) : List α → List α
  | [] => []
  | a :: as =>
    if depth = 0 then a :: ground p (depth + turn p a) as else ground p (depth + turn p a) as

variable {p : α → Option Punctuator}

@[simp] theorem level_append (as bs : List α) :
    level p (as ++ bs) = level p as + level p bs := by
  induction as with
  | nil => simp [level]
  | cons a as ih => simp [level, ih, Int.add_assoc]

theorem ground_append (depth : Int) (as bs : List α) : ground p depth (as ++ bs) =
    ground p depth as ++ ground p (depth + level p as) bs := by
  induction as generalizing depth with
  | nil => simp [ground, level]
  | cons a as ih =>
    simp only [List.cons_append, ground, level, ih, Int.add_assoc]
    split <;> rfl

@[simp] theorem ground_cons {a : α} (ha : turn p a = 0) (as : List α) :
    ground p 0 (a :: as) = a :: ground p 0 as := by simp [ground, ha]

/-- The first element is on the ground. -/
theorem eq_nil_of_ground {as : List α} (h : ground p 0 as = []) : as = [] := by
  cases as with
  | nil => rfl
  | cons a as => simp [ground] at h

theorem ground_map (f : β → α) (depth : Int) (bs : List β) :
    ground p depth (bs.map f) = (ground (p ∘ f) depth bs).map f := by
  induction bs generalizing depth with
  | nil => rfl
  | cons b bs ih =>
    simp only [List.map_cons, ground, ih]
    split <;> rfl

/-- What stands on the ground stands behind what is on the ground in front of it. -/
theorem ground_append_cons {pre : List α} (h : level p pre = 0) (a : α) (post : List α) :
    ground p 0 (pre ++ a :: post) = ground p 0 pre ++ a :: ground p (turn p a) post := by
  rw [ground_append, h]
  simp [ground]

/-! ## Nested brackets -/

/-- The first element is a bracket that the second one closes. -/
def Partners (p : α → Option Punctuator) (o c : α) : Prop :=
  ∃ q r, p o = some q ∧ q.partner? = some r ∧ p c = some r

/-- The brackets are nested by kind. -/
inductive Nested (p : α → Option Punctuator) : List α → Prop where
  | nil : Nested p []
  | word {a : α} {as : List α} (ha : turn p a = 0) (h : Nested p as) : Nested p (a :: as)
  | bracket {o c : α} {inner as : List α} (hoc : Partners p o c) (hinner : Nested p inner)
    (h : Nested p as) : Nested p (o :: (inner ++ c :: as))

theorem Partners.turn_eq {o c : α} (h : Partners p o c) : turn p o = 1 ∧ turn p c = -1 := by
  obtain ⟨q, r, ho, hqr, hc⟩ := h
  simp only [turn, ho, hc]
  exact Punctuator.nesting_of_partner? hqr

namespace Nested

variable {as bs : List α}

theorem append (ha : Nested p as) (hb : Nested p bs) : Nested p (as ++ bs) := by
  induction ha with
  | nil => exact hb
  | word ha h ih => exact .word ha ih
  | bracket hoc hinner h ihinner ih =>
    rw [List.cons_append, List.append_assoc, List.cons_append]
    exact .bracket hoc hinner ih

theorem map {f : β → α} {bs : List β} (h : Nested (p ∘ f) bs) : Nested p (bs.map f) := by
  induction h with
  | nil => exact .nil
  | word hb h ih => exact .word hb ih
  | bracket hoc hinner h ihinner ih =>
    rw [List.map_cons, List.map_append, List.map_cons]
    exact .bracket hoc ihinner ih

theorem of_map {f : β → α} {bs : List β} (h : Nested p (bs.map f)) : Nested (p ∘ f) bs := by
  generalize has : bs.map f = as at h
  induction h generalizing bs with
  | nil =>
    obtain rfl := List.map_eq_nil_iff.mp has
    exact .nil
  | word ha h ih =>
    obtain ⟨b, bs, rfl, rfl, hbs⟩ := List.map_eq_cons_iff.mp has
    exact .word ha (ih hbs)
  | bracket hoc hinner h ihinner ih =>
    obtain ⟨o, bs, rfl, rfl, hbs⟩ := List.map_eq_cons_iff.mp has
    obtain ⟨inner, cs, rfl, hin, hcs⟩ := List.map_eq_append_iff.mp hbs
    obtain ⟨c, ds, rfl, rfl, hds⟩ := List.map_eq_cons_iff.mp hcs
    exact .bracket hoc (ihinner hin) (ih hds)

theorem level_eq (h : Nested p as) : level p as = 0 := by
  induction h with
  | nil => rfl
  | word ha h ih => simp [level, ha, ih]
  | bracket hoc hinner h ihinner ih => simp [level, hoc.turn_eq, ihinner, ih]

/-- Nested brackets never fall below the level they start from. -/
theorem level_nonneg (h : Nested p as) {pre post : List α} (has : as = pre ++ post) :
    0 ≤ level p pre := by
  rcases pre with _ | ⟨b, pre⟩
  · exact Int.le_refl 0
  induction h generalizing b pre post with
  | nil => cases has
  | word ha h ih =>
    obtain ⟨rfl, hcut⟩ := List.cons.inj has
    rcases pre with _ | ⟨b, pre⟩
    · simp [level, ha]
    · simpa [level, ha] using ih _ _ hcut
  | bracket hoc hinner h ihinner ih =>
    obtain ⟨rfl, hcut⟩ := List.cons.inj has
    obtain ⟨more, hpre, hmore⟩ | ⟨more, rfl, -⟩ := List.append_eq_append_iff.mp hcut
    · rcases more with _ | ⟨b, more⟩
      · simp [level, hpre, hoc.turn_eq, hinner.level_eq]
      · obtain ⟨rfl, hcut⟩ := List.cons.inj hmore
        rcases more with _ | ⟨b, more⟩
        · simp [level, hpre, hoc.turn_eq, hinner.level_eq]
        · have := ih b more hcut
          simp only [hpre, level, level_append, hoc.turn_eq, hinner.level_eq] at this ⊢
          omega
    · rcases pre with _ | ⟨b, pre⟩
      · simp [level, hoc.turn_eq]
      · have := ihinner b pre rfl
        simp only [level, hoc.turn_eq] at this ⊢
        omega

/-- Above the ground, nested brackets stay above it. -/
theorem ground_eq_nil (h : Nested p as) {depth : Int} (hd : 1 ≤ depth) :
    ground p depth as = [] := by
  induction h generalizing depth with
  | nil => rfl
  | word ha h ih => rw [ground, if_neg (by omega), ha, ih (by omega)]
  | @bracket o c inner as hoc hinner h ihinner ih =>
    obtain ⟨ho, hc⟩ := hoc.turn_eq
    rw [ground, if_neg (by omega), ground_append, ihinner (by omega), hinner.level_eq, ground,
      if_neg (by omega), ih (by omega)]
    rfl

theorem ground_append (h : Nested p as) (bs : List α) :
    ground p 0 (as ++ bs) = ground p 0 as ++ ground p 0 bs := by
  rw [Lexis.ground_append, h.level_eq]
  rfl

end Nested

theorem nested_map_iff {f : β → α} {bs : List β} : Nested p (bs.map f) ↔ Nested (p ∘ f) bs :=
  ⟨.of_map, .map⟩

/-! ## Enclosed text -/

/-- A bracket of the given kind, nested text, and the partner of the bracket. -/
def Enclosed (p : α → Option Punctuator) (q : Punctuator) (as : List α) : Prop :=
  ∃ o inner c, as = o :: (inner ++ [c]) ∧ p o = some q ∧ Partners p o c ∧ Nested p inner

theorem Enclosed.nested {q : Punctuator} {as : List α} (h : Enclosed p q as) : Nested p as := by
  obtain ⟨o, inner, c, rfl, -, hoc, hinner⟩ := h
  exact .bracket hoc hinner .nil

end Lexis

end QueryDoc
