import Mathlib.Computability.Language
import QueryDoc.Proofs.Grammar.Alignment

/-!
# Lexical languages

The languages of names and of numbers, put together from classes of characters, and the longest
text of a language that another text starts with. A number goes on as a longer one in three ways
only: with a digit, with a point and a digit behind an integer, and with the mark of an exponent
behind a number that has none (`goes_on`).
-/
namespace QueryDoc.Lexis

open QueryDoc.Grammar (isExponentMark)
open scoped Computability

/-! ## Texts of a class -/

/-- The texts that are one character of a class. -/
def single (p : Char → Bool) : Language Char := {w | ∃ c, w = [c] ∧ p c = true}

variable {p : Char → Bool} {l m : Language Char} {w : List Char}

theorem mem_single_mul : w ∈ single p * l ↔ ∃ c x, w = c :: x ∧ p c = true ∧ x ∈ l := by
  rw [Language.mem_mul]
  constructor
  · rintro ⟨_, ⟨c, rfl, hc⟩, x, hx, rfl⟩
    exact ⟨c, x, rfl, hc, hx⟩
  · rintro ⟨c, x, rfl, hc, hx⟩
    exact ⟨[c], ⟨c, rfl, hc⟩, x, hx, rfl⟩

theorem append_mem_star {u v : List Char} (hu : u ∈ l) (hv : v ∈ l∗) : u ++ v ∈ l∗ :=
  Set.mem_of_mem_of_subset (Language.append_mem_mul hu hv) (mul_kstar_le_kstar (a := l))

theorem mem_star_single : w ∈ (single p)∗ ↔ ∀ c ∈ w, p c = true := by
  constructor
  · rintro ⟨ws, rfl, hws⟩ c hc
    obtain ⟨v, hv, hcv⟩ := List.mem_flatten.mp hc
    obtain ⟨d, rfl, hd⟩ := hws v hv
    rwa [List.mem_singleton.mp hcv]
  · intro h
    induction w with
    | nil => exact Language.nil_mem_kstar _
    | cons c w ih =>
      obtain ⟨hc, hw⟩ := List.forall_mem_cons.mp h
      have single_mem : [c] ∈ single p := ⟨c, rfl, hc⟩
      exact append_mem_star single_mem (ih hw)

theorem mem_single_mul_star {q : Char → Bool} : w ∈ single p * (single q)∗ ↔
    ∃ c x, w = c :: x ∧ p c = true ∧ ∀ d ∈ x, q d = true := by
  simp only [mem_single_mul, mem_star_single]

theorem mem_optional : w ∈ 1 + l ↔ w = [] ∨ w ∈ l := by
  rw [Language.mem_add, Language.mem_one]

/-- A character of a text of two parts stands in the first or in the second. -/
theorem cons_mem_mul {u x : List Char} {c : Char} (h : u ++ c :: x ∈ l * m) :
    (∃ a b, x = a ++ b ∧ u ++ c :: a ∈ l ∧ b ∈ m) ∨
      ∃ a b, u = a ++ b ∧ a ∈ l ∧ b ++ c :: x ∈ m := by
  obtain ⟨a, ha, b, hb, hab⟩ := Language.mem_mul.mp h
  obtain ⟨e, hu, rfl⟩ | ⟨e, rfl, he⟩ := List.append_eq_append_iff.mp hab
  · exact .inr ⟨a, e, hu, ha, hb⟩
  · rcases e with _ | ⟨d, e⟩
    · exact .inr ⟨u, [], by simp, by simpa using ha, by simpa [he] using hb⟩
    · obtain ⟨rfl, rfl⟩ := List.cons.inj he
      exact .inl ⟨e, b, rfl, ha, hb⟩

/-! ## Classes of characters in texts -/

/-- All characters of the texts are of a class. -/
def Over (p : Char → Bool) (l : Language Char) : Prop := ∀ w ∈ l, ∀ c ∈ w, p c = true

theorem over_single {q : Char → Bool} (h : ∀ c, q c = true → p c = true) : Over p (single q) := by
  rintro _ ⟨c, rfl, hc⟩
  simpa using h c hc

theorem over_star_single {q : Char → Bool} (h : ∀ c, q c = true → p c = true) :
    Over p (single q)∗ := fun _ hw c hc => h c (mem_star_single.mp hw c hc)

theorem Over.mul (hl : Over p l) (hm : Over p m) : Over p (l * m) := by
  intro w hw c hc
  obtain ⟨a, ha, b, hb, rfl⟩ := Language.mem_mul.mp hw
  rcases List.mem_append.mp hc with hc | hc
  · exact hl a ha c hc
  · exact hm b hb c hc

theorem Over.add (hl : Over p l) (hm : Over p m) : Over p (l + m) := by
  rintro w (hw | hw)
  · exact hl w hw
  · exact hm w hw

theorem Over.optional (hl : Over p l) : Over p (1 + l) := by
  intro w hw
  rcases mem_optional.mp hw with rfl | hw
  · simp
  · exact hl w hw

/-- The texts end with a character of a class. -/
def EndsIn (p : Char → Bool) (l : Language Char) : Prop := ∀ w ∈ l, w.getLast?.any p = true

theorem ne_nil_of_endsIn (h : EndsIn p l) (hw : w ∈ l) : w ≠ [] := by
  rintro rfl
  cases h [] hw

theorem endsIn_of_over (hp : Over p l) (hl : [] ∉ l) : EndsIn p l := by
  intro w hw
  cases h : w.getLast? with
  | none =>
    obtain rfl := List.getLast?_eq_none_iff.mp h
    exact absurd hw hl
  | some c => exact hp w hw c (List.mem_of_getLast? h)

theorem EndsIn.mul (hm : EndsIn p m) : EndsIn p (l * m) := by
  intro w hw
  obtain ⟨a, -, b, hb, rfl⟩ := Language.mem_mul.mp hw
  have hlast := hm b hb
  cases h : b.getLast? with
  | none => simp [h] at hlast
  | some c => simpa [List.getLast?_append, h] using hlast

theorem EndsIn.mul_optional (hl : EndsIn p l) (hm : EndsIn p m) : EndsIn p (l * (1 + m)) := by
  intro w hw
  obtain ⟨a, ha, b, hb, rfl⟩ := Language.mem_mul.mp hw
  rcases mem_optional.mp hb with rfl | hb
  · simpa using hl a ha
  · exact hm.mul _ (Language.append_mem_mul ha hb)

/-- A text of the language is empty, or starts with a character of the class. -/
def Opens (q : Char → Bool) (l : Language Char) : Prop := ∀ w ∈ l, w = [] ∨ w.head?.any q = true

theorem opens_optional_mul (q : Char → Bool) (l : Language Char) : Opens q (1 + single q * l) := by
  intro w hw
  rcases mem_optional.mp hw with rfl | hw
  · exact .inl rfl
  · obtain ⟨c, x, rfl, hc, -⟩ := mem_single_mul.mp hw
    exact .inr (by simpa using hc)

section

variable {q : Char → Bool} {x : List Char} (hm : Opens q m) (hx : x ∈ m)
  (hqp : ∀ c, q c = true → p c = false)
include hm hx hqp

/-- No text over a class holds one that starts with a character outside. -/
theorem Opens.eq_nil (hl : Over p l) {u v : List Char} (h : u ++ x ++ v ∈ l) : x = [] := by
  rcases hm x hx with hnil | hhead
  · exact hnil
  · obtain ⟨c, hc, hq⟩ := (Option.any_eq_true _ _).mp hhead
    have hp := hl _ h c (by simp [List.mem_of_head? hc])
    simp [hqp c hq] at hp

theorem Opens.any_head_append {tail : List Char} (ht : tail.head?.any p = false) :
    (x ++ tail).head?.any p = false := by
  rcases hm x hx with rfl | hhead
  · exact ht
  · cases x <;> simp_all

end

/-! ## Longest texts -/

/-- The longest start of `r` that is in the language. -/
structure Longest (l : Language Char) (w r : List Char) : Prop where
  front : w <+: r
  mem : w ∈ l
  le : ∀ v, v <+: r → v ∈ l → v.length ≤ w.length

theorem longest_append {rest : List Char} (hw : w ∈ l)
    (h : ∀ c x, c :: x <+: rest → w ++ c :: x ∉ l) : Longest l w (w ++ rest) := by
  refine ⟨List.prefix_append _ _, hw, ?_⟩
  rintro v ⟨y, hy⟩ hv
  by_contra hlt
  obtain ⟨e, rfl, he⟩ | ⟨e, rfl, -⟩ := List.append_eq_append_iff.mp hy
  · simp at hlt
  · rcases e with _ | ⟨c, x⟩
    · simp at hlt
    · exact h c x ⟨y, by simp_all⟩ hv

/-! ## Names and numbers -/

/-- A letter or an underscore, and then any of these and digits. -/
def names : Language Char := single isNameStart * (single isNameContinue)∗

/-- One digit at least. -/
def digits : Language Char := single Char.isDigit * (single Char.isDigit)∗

def isPositiveDigit (c : Char) : Bool := c.isDigit && c != '0'

/-- Zero, or digits of which the first one is not zero. -/
def whole : Language Char := single (· == '0') + single isPositiveDigit * (single Char.isDigit)∗

def fraction : Language Char := single (· == '.') * digits

def exponent : Language Char := single isExponentMark * ((1 + single isSign) * digits)

/-- Numbers without fraction and exponent. -/
def integer : Language Char := (1 + single (· == '-')) * whole

/-- Numbers without exponent. -/
def decimal : Language Char := integer * (1 + fraction)

def numeral : Language Char := decimal * (1 + exponent)

theorem mem_digits : w ∈ digits ↔ w ≠ [] ∧ ∀ c ∈ w, c.isDigit = true := by
  rw [digits, mem_single_mul_star]
  cases w <;> simp

theorem over_digits : Over Char.isDigit digits := fun _ hw => (mem_digits.mp hw).2

theorem over_whole : Over Char.isDigit whole := by
  apply Over.add
  · exact over_single fun c hc => by rw [beq_iff_eq.mp hc]; rfl
  · refine .mul (over_single fun c hc => ?_) (over_star_single fun c hc => hc)
    exact (Bool.and_eq_true_iff.mp hc).1

theorem ne_nil_of_mem_whole (h : w ∈ whole) : w ≠ [] := by
  rcases h with ⟨c, rfl, -⟩ | h
  · simp
  · obtain ⟨c, x, rfl, -⟩ := mem_single_mul.mp h
    simp

theorem endsIn_digits : EndsIn Char.isDigit digits :=
  endsIn_of_over over_digits fun h => (mem_digits.mp h).1 rfl

theorem endsIn_integer : EndsIn Char.isDigit integer :=
  (endsIn_of_over over_whole fun h => ne_nil_of_mem_whole h rfl).mul

theorem endsIn_numeral : EndsIn Char.isDigit numeral :=
  (endsIn_integer.mul_optional endsIn_digits.mul).mul_optional endsIn_digits.mul.mul

/-- A minus and digits. -/
def isIntegerPart (c : Char) : Bool := c == '-' || c.isDigit

/-- No mark of an exponent. -/
def isDecimalPart (c : Char) : Bool := isIntegerPart c || c == '.'

theorem over_integer : Over isIntegerPart integer := by
  refine .mul (.optional (over_single fun c hc => ?_)) fun w hw c hc => ?_
  · simp [isIntegerPart, beq_iff_eq.mp hc]
  · simp [isIntegerPart, over_whole w hw c hc]

theorem over_decimal : Over isDecimalPart decimal := by
  refine .mul (fun w hw c hc => ?_)
    (.optional (.mul (over_single fun c hc => ?_) fun w hw c hc => ?_))
  · simp [isDecimalPart, over_integer w hw c hc]
  · simp [isDecimalPart, beq_iff_eq.mp hc]
  · simp [isDecimalPart, isIntegerPart, over_digits w hw c hc]

theorem eq_false_of_beq {c : Char} (h : p c = false) : ∀ d, (d == c) = true → p d = false := by
  intro d hd
  rw [beq_iff_eq.mp hd]
  exact h

theorem eq_false_of_isExponentMark (he : p 'e' = false) (hE : p 'E' = false) :
    ∀ c, isExponentMark c = true → p c = false := by
  intro c hc
  simp only [isExponentMark, Bool.or_eq_true, beq_iff_eq] at hc
  rcases hc with rfl | rfl
  · exact he
  · exact hE

theorem opens_fraction : Opens (· == '.') (1 + fraction) := opens_optional_mul _ _

theorem opens_exponent : Opens isExponentMark (1 + exponent) := opens_optional_mul _ _

section

variable {i f d e : List Char}

theorem append_mem_decimal (hi : i ∈ integer) (hf : f ∈ 1 + fraction) : i ++ f ∈ decimal :=
  Language.append_mem_mul hi hf

theorem append_mem_numeral (hd : d ∈ decimal) (he : e ∈ 1 + exponent) : d ++ e ∈ numeral :=
  Language.append_mem_mul hd he

theorem mem_decimal_of_mem_integer (h : i ∈ integer) : i ∈ decimal := by
  simpa using append_mem_decimal h (mem_optional.mpr (.inl rfl))

theorem mem_numeral_of_mem_decimal (h : d ∈ decimal) : d ∈ numeral := by
  simpa using append_mem_numeral h (mem_optional.mpr (.inl rfl))

/-- A number is a decimal iff its exponent is empty. -/
theorem append_mem_decimal_iff (hd : d ∈ decimal) (he : e ∈ 1 + exponent) :
    d ++ e ∈ decimal ↔ e = [] := by
  constructor
  · intro h
    rw [← List.append_nil (d ++ e)] at h
    exact opens_exponent.eq_nil he (eq_false_of_isExponentMark rfl rfl) over_decimal h
  · rintro rfl
    simpa using hd

/-- A number is an integer iff its fraction and its exponent are empty. -/
theorem append_mem_integer_iff (hi : i ∈ integer) (hf : f ∈ 1 + fraction) (he : e ∈ 1 + exponent) :
    i ++ f ++ e ∈ integer ↔ f = [] ∧ e = [] := by
  constructor
  · intro h
    have hdecimal := mem_decimal_of_mem_integer h
    exact ⟨opens_fraction.eq_nil hf (eq_false_of_beq rfl) over_integer h,
      (append_mem_decimal_iff (append_mem_decimal hi hf) he).mp hdecimal⟩
  · rintro ⟨rfl, rfl⟩
    simpa using hi

end

/-! ## How a number goes on

Each lemma is about a text of a language that goes on with a character `c` as another text of it. -/

section

variable {c : Char} {u x : List Char}

theorem isDigit_of_mem_digits (h : u ++ c :: x ∈ digits) : c.isDigit = true :=
  over_digits _ h c (by simp)

/-- A character that stands behind the first one of an integer is a digit. -/
theorem isDigit_of_mem_integer (hu : u ≠ []) (h : u ++ c :: x ∈ integer) : c.isDigit = true := by
  rcases cons_mem_mul h with ⟨a, b, -, hsign, -⟩ | ⟨a, b, -, -, hwhole⟩
  · rcases mem_optional.mp hsign with hnil | ⟨d, hd, -⟩
    · simp at hnil
    · cases u with
      | nil => exact absurd rfl hu
      | cons e u => simp at hd
  · exact over_whole _ hwhole c (by simp)

/-- A decimal goes on with a digit, or with a point and a digit behind an integer. -/
theorem decimal_goes_on (hu : u ≠ []) (h : u ++ c :: x ∈ decimal) :
    c.isDigit = true ∨ c = '.' ∧ u ∈ integer ∧ x.head?.any Char.isDigit = true := by
  rcases cons_mem_mul h with ⟨a, b, -, hint, -⟩ | ⟨a, b, rfl, hint, hopt⟩
  · exact .inl (isDigit_of_mem_integer hu hint)
  · have hfraction : b ++ c :: x ∈ fraction := (mem_optional.mp hopt).resolve_left (by simp)
    obtain ⟨d, y, hd, hpoint, hdigits⟩ := mem_single_mul.mp hfraction
    cases b with
    | nil =>
      obtain ⟨rfl, rfl⟩ := List.cons.inj hd
      obtain ⟨e, z, rfl, he, -⟩ := mem_single_mul.mp hdigits
      exact .inr ⟨beq_iff_eq.mp hpoint, by simpa using hint, by simpa using he⟩
    | cons e b =>
      obtain ⟨rfl, rfl⟩ := List.cons.inj hd
      exact .inl (isDigit_of_mem_digits hdigits)

/-- A number goes on with a digit, with a point and a digit behind an integer, or with the mark of
an exponent behind a decimal. -/
theorem numeral_goes_on (hu : u ∈ numeral) (h : u ++ c :: x ∈ numeral) :
    c.isDigit = true ∨ (c = '.' ∧ u ∈ integer ∧ x.head?.any Char.isDigit = true) ∨
      isExponentMark c = true ∧ u ∈ decimal := by
  rcases cons_mem_mul h with ⟨a, b, rfl, hdec, -⟩ | ⟨a, b, rfl, hdec, hopt⟩
  · rcases decimal_goes_on (ne_nil_of_endsIn endsIn_numeral hu) hdec with hd | ⟨hp, hi, ha⟩
    · exact .inl hd
    · refine .inr (.inl ⟨hp, hi, ?_⟩)
      cases a <;> simp_all
  · have hexponent : b ++ c :: x ∈ exponent := (mem_optional.mp hopt).resolve_left (by simp)
    obtain ⟨m, y, hm, hmark, hbehind⟩ := mem_single_mul.mp hexponent
    cases b with
    | nil =>
      obtain ⟨rfl, rfl⟩ := List.cons.inj hm
      exact .inr (.inr ⟨hmark, by simpa using hdec⟩)
    | cons e b =>
      obtain ⟨rfl, rfl⟩ := List.cons.inj hm
      rcases cons_mem_mul hbehind with ⟨d, f, -, hsign, -⟩ | ⟨d, f, -, -, hdigits⟩
      -- no number ends with a mark, so the sign behind one is no number's first new character
      · obtain rfl : b = [] := by
          rcases mem_optional.mp hsign with hnil | ⟨g, hg, -⟩
          · simp at hnil
          · cases b <;> simp_all
        have hlast : e.isDigit = true := by simpa using endsIn_numeral _ hu
        have hnot : e.isDigit = false := eq_false_of_isExponentMark rfl rfl e hmark
        simp [hnot] at hlast
      · exact .inl (isDigit_of_mem_digits hdigits)

end

end QueryDoc.Lexis
