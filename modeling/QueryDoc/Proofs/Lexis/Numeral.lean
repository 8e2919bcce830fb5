import QueryDoc.Proofs.Lexis.Language

/-!
# Numbers

Where the scan of a number ends is told by the languages: it reads a number exactly if the text
starts with one that cannot go on, behind which stands neither a digit nor, unless the number has an
exponent, the mark of one (`scanSigned_of_numberEnds`, `exists_numberEnds`). Such a number is the
longest at the start of the text (`numberEnds_iff`).
-/
namespace QueryDoc.Lexis

open QueryDoc.Grammar (isExponentMark scanSigned scanSigned_append scanFraction_append isIntText
  isIntText_digits isFractionText)

variable {w rest tail i f e : List Char}

/-- The number `w` ends in front of `rest`. -/
structure NumberEnds (w rest : List Char) : Prop where
  mem : w ∈ numeral
  digit : rest.head?.any Char.isDigit = false
  point : w ∈ integer → rest.head? = some '.' → rest.tail.head?.any Char.isDigit = false
  mark : w ∈ decimal → rest.head?.any isExponentMark = false

/-! ## Reading a number that ends -/

theorem isIntText_of_mem_integer (h : w ∈ integer) : isIntText w = true := by
  obtain ⟨sign, hsign, digits, hdigits, rfl⟩ := Language.mem_mul.mp h
  have hsign : sign = [] ∨ sign = ['-'] := by
    rcases mem_optional.mp hsign with rfl | ⟨c, rfl, hc⟩
    · exact .inl rfl
    · exact .inr (by rw [beq_iff_eq.mp hc])
  rcases hdigits with ⟨c, rfl, hc⟩ | hpositive
  · obtain rfl : c = '0' := beq_iff_eq.mp hc
    rcases hsign with rfl | rfl <;> rfl
  · obtain ⟨c, x, rfl, hc, hx⟩ := mem_single_mul_star.mp hpositive
    simp only [isPositiveDigit, Bool.and_eq_true, bne_iff_ne] at hc
    obtain ⟨hpos, hneg⟩ := isIntText_digits hc.2 hc.1 hx
    rcases hsign with rfl | rfl
    · exact hpos
    · exact hneg

theorem scanFraction_of_mem_fraction (hf : f ∈ fraction)
    (ht : tail.head?.any Char.isDigit = false) :
    scanFraction i (f ++ tail) = scanExponent .float (i ++ f) tail := by
  obtain ⟨c, ds, rfl, hc, hds⟩ := mem_single_mul.mp hf
  obtain ⟨hne, hall⟩ := mem_digits.mp hds
  obtain rfl : c = '.' := beq_iff_eq.mp hc
  have htext : isFractionText ds = true := by simpa [isFractionText, hne] using hall
  exact scanFraction_append i htext tail ht

theorem scanExponentDigits_of_mem_digits {text ds : List Char} (hds : ds ∈ digits)
    (hr : rest.head?.any Char.isDigit = false) :
    scanExponentDigits text (ds ++ rest) = ⟨.float, text ++ ds, rest⟩ := by
  obtain ⟨d, x, rfl, hd, hx⟩ := mem_single_mul_star.mp hds
  simp [scanExponentDigits, hd, Scanned.extend, takeWhile_append_of_all hx hr,
    dropWhile_append_of_all hx hr]

theorem scanExponent_mark {kind : Kind} {text x : List Char} {c : Char}
    (hc : isExponentMark c = true) :
    scanExponent kind text (c :: x) = scanExponentSign (text ++ [c]) x := by
  rcases (by simpa [isExponentMark] using hc : c = 'e' ∨ c = 'E') with rfl | rfl <;> rfl

theorem scanExponent_of_mem_exponent {kind : Kind} {text : List Char} (he : e ∈ exponent)
    (hr : rest.head?.any Char.isDigit = false) :
    scanExponent kind text (e ++ rest) = ⟨.float, text ++ e, rest⟩ := by
  obtain ⟨c, x, rfl, hc, hx⟩ := mem_single_mul.mp he
  obtain ⟨sign, hsign, ds, hds, rfl⟩ := Language.mem_mul.mp hx
  have hscan : scanExponentSign (text ++ [c]) (sign ++ ds ++ rest) =
      scanExponentDigits (text ++ [c] ++ sign) (ds ++ rest) := by
    rcases mem_optional.mp hsign with rfl | ⟨s, rfl, hs⟩
    · obtain ⟨d, y, rfl, hd, -⟩ := mem_single_mul_star.mp hds
      unfold scanExponentSign
      split <;> simp_all
    · rcases (by simpa [isSign] using hs : s = '+' ∨ s = '-') with rfl | rfl <;> rfl
  rw [List.cons_append, scanExponent_mark hc, hscan, scanExponentDigits_of_mem_digits hds hr]
  simp

theorem scanExponent_of_mem_optional (kind : Kind) (text : List Char) (he : e ∈ 1 + exponent)
    (hr : rest.head?.any Char.isDigit = false)
    (hm : e = [] → rest.head?.any isExponentMark = false) :
    scanExponent kind text (e ++ rest) = ⟨if e = [] then kind else .float, text ++ e, rest⟩ := by
  rcases mem_optional.mp he with rfl | he
  · simpa using scanExponent_of_any_head kind text (hm rfl)
  · obtain ⟨c, x, rfl, -⟩ := mem_single_mul.mp he
    rw [scanExponent_of_mem_exponent he hr, if_neg (by simp)]

theorem scanFraction_of_mem_optional (hf : f ∈ 1 + fraction)
    (ht : tail.head?.any Char.isDigit = false)
    (hp : f = [] → tail.head? = some '.' → tail.tail.head?.any Char.isDigit = false) :
    scanFraction i (f ++ tail) =
      scanExponent (if f = [] then .int else .float) (i ++ f) tail := by
  rcases mem_optional.mp hf with rfl | hf
  · simpa using scanFraction_of_not_digit i (hp rfl)
  · obtain ⟨c, x, rfl, -⟩ := mem_single_mul.mp hf
    simpa using scanFraction_of_mem_fraction hf ht

/-- A number that ends is read up to its end. -/
theorem scanSigned_of_numberEnds (h : NumberEnds w rest) : ∃ kind,
    scanSigned (w ++ rest) = ⟨kind, w, rest⟩ ∧ kind.isNumber = true ∧
      (kind = .int ↔ w ∈ integer) := by
  obtain ⟨hw, hdigit, hpoint, hmark⟩ := h
  obtain ⟨d, hd, e, he, rfl⟩ := Language.mem_mul.mp hw
  obtain ⟨i, hi, f, hf, rfl⟩ := Language.mem_mul.mp hd
  have hmark' : e = [] → rest.head?.any isExponentMark = false := fun hnil =>
    hmark ((append_mem_decimal_iff hd he).mpr hnil)
  have hpoint' : f = [] → (e ++ rest).head? = some '.' →
      (e ++ rest).tail.head?.any Char.isDigit = false := by
    intro hf' hp
    rcases opens_exponent e he with rfl | hhead
    · exact hpoint ((append_mem_integer_iff hi hf he).mpr ⟨hf', rfl⟩) hp
    -- an exponent starts with its mark, which is no point
    · rw [List.head?_append] at hp
      obtain ⟨c, hc, hm⟩ := (Option.any_eq_true _ _).mp hhead
      simp only [hc, Option.some_or, Option.some.injEq] at hp
      subst hp
      cases hm
  have hbehind : (e ++ rest).head?.any Char.isDigit = false :=
    opens_exponent.any_head_append he (eq_false_of_isExponentMark rfl rfl) hdigit
  have hexponent (kind : Kind) :=
    scanExponent_of_mem_optional kind (i ++ f) he hdigit hmark'
  have hfraction := scanFraction_of_mem_optional (i := i) hf hbehind hpoint'
  have hinteger : scanSigned (i ++ (f ++ (e ++ rest))) = scanFraction i (f ++ (e ++ rest)) :=
    scanSigned_append (isIntText_of_mem_integer hi) _
      (opens_fraction.any_head_append hf (eq_false_of_beq rfl) hbehind)
  refine ⟨if e = [] then if f = [] then .int else .float else .float, ?_, ?_, ?_⟩
  · simp only [List.append_assoc] at *
    rw [hinteger, hfraction, hexponent]
  · split
    · split <;> rfl
    · rfl
  · rw [append_mem_integer_iff hi hf he]
    split
    · split <;> simp_all
    · simp_all

/-! ## The number that is read -/

theorem exists_digits {x : List Char} (h : x.head?.any Char.isDigit = true) : ∃ ds rest,
    x = ds ++ rest ∧ ds ∈ digits ∧ rest.head?.any Char.isDigit = false := by
  refine ⟨x.takeWhile Char.isDigit, x.dropWhile Char.isDigit,
    List.takeWhile_append_dropWhile.symm, ?_, any_head_dropWhile _ x⟩
  refine mem_digits.mpr ⟨?_, fun c hc => List.mem_takeWhile_imp hc⟩
  cases x <;> simp_all

theorem exists_whole {sign x : List Char} (h : (scanInteger sign x).kind.isNumber = true) :
    ∃ v rest, x = v ++ rest ∧ v ∈ whole ∧ rest.head?.any Char.isDigit = false := by
  by_cases hd : x.head?.any Char.isDigit = true
  · cases x with
    | nil => simp at hd
    | cons c x =>
      by_cases hc : c = '0'
      · subst hc
        refine ⟨['0'], x, rfl, .inl ⟨'0', rfl, rfl⟩, ?_⟩
        by_contra hx
        rw [scanInteger_zero, if_pos (by simpa using hx)] at h
        cases h
      · have hdigit : c.isDigit = true := by simpa using hd
        refine ⟨c :: x.takeWhile Char.isDigit, x.dropWhile Char.isDigit,
          by simp [List.takeWhile_append_dropWhile], .inr ?_, any_head_dropWhile _ x⟩
        refine mem_single_mul_star.mpr ⟨c, _, rfl, ?_, fun d hd => List.mem_takeWhile_imp hd⟩
        simp [isPositiveDigit, hdigit, hc]
  · rw [scanInteger_other sign (Bool.eq_false_iff.mpr hd)] at h
    cases h

theorem exists_integer {x : List Char} (h : (scanSigned x).kind.isNumber = true) :
    ∃ i tail, x = i ++ tail ∧ i ∈ integer ∧ tail.head?.any Char.isDigit = false := by
  unfold scanSigned at h
  split at h
  · obtain ⟨v, rest, rfl, hv, hr⟩ := exists_whole h
    have minus : ['-'] ∈ 1 + single (· == '-') := mem_optional.mpr (.inr ⟨'-', rfl, rfl⟩)
    exact ⟨['-'] ++ v, rest, rfl, Language.append_mem_mul minus hv, hr⟩
  · obtain ⟨v, rest, rfl, hv, hr⟩ := exists_whole h
    have none : [] ∈ 1 + single (· == '-') := mem_optional.mpr (.inl rfl)
    exact ⟨[] ++ v, rest, rfl, Language.append_mem_mul none hv, hr⟩

theorem exists_fraction {x : List Char} (hx : x.head?.any Char.isDigit = false) :
    ∃ f tail, x = f ++ tail ∧ f ∈ 1 + fraction ∧ tail.head?.any Char.isDigit = false ∧
      (f = [] → tail.head? = some '.' → tail.tail.head?.any Char.isDigit = false) := by
  by_cases hpoint : x.head? = some '.' ∧ x.tail.head?.any Char.isDigit = true
  · obtain ⟨hp, hd⟩ := hpoint
    obtain ⟨ds, tail, htail, hds, ht⟩ := exists_digits hd
    have hf : '.' :: ds ∈ fraction := mem_single_mul.mpr ⟨'.', ds, rfl, rfl, hds⟩
    obtain rfl : x = '.' :: ds ++ tail := by
      cases x <;> simp_all
    exact ⟨'.' :: ds, tail, rfl, mem_optional.mpr (.inr hf), ht, by simp⟩
  · have hp : x.head? = some '.' → x.tail.head?.any Char.isDigit = false := fun hp =>
      Bool.eq_false_iff.mpr fun hd => hpoint ⟨hp, hd⟩
    exact ⟨[], x, rfl, mem_optional.mpr (.inl rfl), hx, fun _ => hp⟩

theorem any_head_of_scanExponentDigits {text x : List Char}
    (h : (scanExponentDigits text x).kind.isNumber = true) : x.head?.any Char.isDigit = true := by
  unfold scanExponentDigits at h
  split at h
  · split at h
    · simpa
    · cases h
  · cases h

theorem exists_sign {text x : List Char} (h : (scanExponentSign text x).kind.isNumber = true) :
    ∃ sign y, x = sign ++ y ∧ sign ∈ 1 + single isSign ∧ y.head?.any Char.isDigit = true := by
  unfold scanExponentSign at h
  split at h
  · exact ⟨['+'], _, rfl, mem_optional.mpr (.inr ⟨'+', rfl, rfl⟩), any_head_of_scanExponentDigits h⟩
  · exact ⟨['-'], _, rfl, mem_optional.mpr (.inr ⟨'-', rfl, rfl⟩), any_head_of_scanExponentDigits h⟩
  · exact ⟨[], _, rfl, mem_optional.mpr (.inl rfl), any_head_of_scanExponentDigits h⟩

theorem exists_exponent {kind : Kind} {text x : List Char} (hx : x.head?.any Char.isDigit = false)
    (h : (scanExponent kind text x).kind.isNumber = true) :
    ∃ e rest, x = e ++ rest ∧ e ∈ 1 + exponent ∧ rest.head?.any Char.isDigit = false ∧
      (e = [] → rest.head?.any isExponentMark = false) := by
  by_cases hmark : x.head?.any isExponentMark = true
  · cases x with
    | nil => simp at hmark
    | cons c x =>
      have hc : isExponentMark c = true := by simpa using hmark
      rw [scanExponent_mark hc] at h
      obtain ⟨sign, y, rfl, hsign, hy⟩ := exists_sign h
      obtain ⟨ds, rest, rfl, hds, hr⟩ := exists_digits hy
      have he : c :: (sign ++ ds) ∈ exponent :=
        mem_single_mul.mpr ⟨c, _, rfl, hc, Language.append_mem_mul hsign hds⟩
      exact ⟨c :: (sign ++ ds), rest, by simp, mem_optional.mpr (.inr he), hr, by simp⟩
  · exact ⟨[], x, rfl, mem_optional.mpr (.inl rfl), hx, fun _ => Bool.eq_false_iff.mpr hmark⟩

/-- The scan of a number starts with one that ends. -/
theorem exists_numberEnds {x : List Char} (h : (scanSigned x).kind.isNumber = true) :
    ∃ w rest, x = w ++ rest ∧ NumberEnds w rest := by
  obtain ⟨i, y, rfl, hi, hy⟩ := exists_integer h
  rw [scanSigned_append (isIntText_of_mem_integer hi) y hy] at h
  obtain ⟨f, z, rfl, hf, hz, hpoint⟩ := exists_fraction hy
  rw [scanFraction_of_mem_optional hf hz hpoint] at h
  obtain ⟨e, rest, rfl, he, hr, hmark⟩ := exists_exponent hz h
  have hd := append_mem_decimal hi hf
  refine ⟨i ++ f ++ e, rest, by simp, append_mem_numeral hd he, hr, ?_, ?_⟩
  · intro hw
    obtain ⟨rfl, rfl⟩ := (append_mem_integer_iff hi hf he).mp hw
    simpa using hpoint rfl
  · exact fun hw => hmark ((append_mem_decimal_iff hd he).mp hw)

/-! ## The longest number -/

/-- A number ends where the longest one does, with no digit behind it and, unless it has an
exponent, no mark of one. -/
theorem numberEnds_iff : NumberEnds w rest ↔
    Longest numeral w (w ++ rest) ∧ rest.head?.any Char.isDigit = false ∧
      (w ∈ decimal → rest.head?.any isExponentMark = false) := by
  constructor
  · rintro ⟨hw, hdigit, hpoint, hmark⟩
    refine ⟨longest_append hw ?_, hdigit, hmark⟩
    rintro c x ⟨y, rfl⟩ hlonger
    rcases numeral_goes_on hw hlonger with hd | ⟨rfl, hi, hx⟩ | ⟨hc, hdec⟩
    · simp [hd] at hdigit
    · have := hpoint hi rfl
      cases x <;> simp_all
    · have := hmark hdec
      simp [hc] at this
  · rintro ⟨hlong, hdigit, hmark⟩
    refine ⟨hlong.mem, hdigit, ?_, hmark⟩
    intro hi hp
    by_contra hd
    obtain ⟨ds, y, hy, hds, -⟩ := exists_digits (Bool.of_not_eq_false hd)
    obtain rfl : rest = '.' :: (ds ++ y) := by
      cases rest <;> simp_all
    have hf : '.' :: ds ∈ fraction := mem_single_mul.mpr ⟨'.', ds, rfl, rfl, hds⟩
    have hlonger : w ++ '.' :: ds ∈ numeral :=
      mem_numeral_of_mem_decimal (append_mem_decimal hi (mem_optional.mpr (.inr hf)))
    have hle := hlong.le _ (by simp) hlonger
    simp only [List.length_append, List.length_cons] at hle
    omega

end QueryDoc.Lexis
