import QueryDoc.Grammar.Lexer
import QueryDoc.Lexis.Lexer
import Mathlib.Data.List.TakeWhile
import Mathlib.Tactic.Common

/-!
# Scans and the text behind them

What a scan reads is settled by the text it takes and by very little of what follows: the next
character, and whether a digit stands behind it. `scan_append` says so: the rest of a scan can be
replaced by any text that looks the same, and by any text that starts with a character which ends
every token.
-/
namespace QueryDoc.Lexis

open QueryDoc.Grammar (isExponentMark)

/-! ## What may follow a token -/

/-- Does the character end every token in front of it? -/
def isolates (c : Char) : Bool :=
  isSkipped c || c == ',' || c == '#' || (Punctuator.ofChar? c).isSome

def isolators : List Char :=
  [' ', '\t', '\n', '\r', '\uFEFF', ',', '#', '!', '$', '&', '(', ')', ':', '=', '@', '[', ']', '{',
    '|', '}']

theorem mem_isolators {c : Char} (h : isolates c = true) : c ∈ isolators := by
  simp only [isolates, isSkipped, Bool.or_eq_true, beq_iff_eq] at h
  rcases h with ((((((h | h) | h) | h) | h) | h) | h) | h
  all_goals first
    | (subst h; decide)
    | (revert h; unfold Punctuator.ofChar?; split <;> simp [isolators])

/-- A class of characters none of which ends a token. -/
def Extends (p : Char → Bool) : Prop := ∀ c ∈ isolators, p c = false

theorem extends_of_all {p : Char → Bool} (h : isolators.all (! p ·) = true) : Extends p := by
  intro c hc
  simpa using List.all_eq_true.mp h c hc

theorem extends_isDigit : Extends Char.isDigit := extends_of_all (by decide)
theorem extends_isNumberPart : Extends isNumberPart := extends_of_all (by decide)
theorem extends_isNameContinue : Extends isNameContinue := extends_of_all (by decide)
theorem extends_beq {c : Char} (h : c ∉ isolators) : Extends (· == c) := by
  intro d hd
  simp only [beq_eq_false_iff_ne]
  rintro rfl
  exact h hd

def Kind.isOpen : Kind → Bool
  | .error .openString | .error .openBlock => true
  | _ => false

/-- A token of the given kind ends in front of the text, whatever it is: nothing follows, or a
character that ends every token. Only the end of the text closes an open string, and a string that
is broken by CR takes an LF along. -/
def Ends (kind : Kind) : List Char → Prop
  | [] => True
  | c :: _ => isolates c = true ∧ kind.isOpen = false ∧ (kind = .error .brokenString → c ≠ '\n')

/-- The second text looks like the first to a token in front. -/
def Looks (rest other : List Char) : Prop :=
  rest.head? = other.head? ∧
    (other.tail.head?.any Char.isDigit = true → rest.tail.head?.any Char.isDigit = true)

/-- A token of the given kind that is followed by `rest` can be followed by `other` as well. -/
def Follows (kind : Kind) (rest other : List Char) : Prop := Ends kind other ∨ Looks rest other

theorem Looks.refl (rest : List Char) : Looks rest rest := ⟨rfl, id⟩

/-- Text that looks alike up to the second character. -/
theorem looks_append {u rest other : List Char} (hu : u ≠ [])
    (hd : other.head?.any Char.isDigit = true → rest.head?.any Char.isDigit = true) :
    Looks (u ++ rest) (u ++ other) := by
  rcases u with _ | ⟨a, _ | ⟨b, u⟩⟩
  · exact absurd rfl hu
  · exact ⟨rfl, hd⟩
  · exact ⟨rfl, id⟩

/-- A token that is no error ends in front of every character that ends tokens. -/
theorem ends_of_isError_eq_false {kind : Kind} (h : kind.isError = false) {c : Char}
    (hc : isolates c = true) (rest : List Char) : Ends kind (c :: rest) := by
  refine ⟨hc, ?_, ?_⟩
  · cases kind with
    | error fault => cases h
    | _ => rfl
  · rintro rfl
    cases h

/-- What may follow instead goes on with no class of characters that the rest does not go on with.
-/
theorem Follows.any_head {kind : Kind} {rest other : List Char} {p : Char → Bool} (hp : Extends p)
    (h : Follows kind rest other) (hr : rest.head?.any p = false) : other.head?.any p = false := by
  rcases h with h | h
  · cases other with
    | nil => rfl
    | cons c other => exact hp c (mem_isolators h.1)
  · rwa [← h.1]

/-! ## Scanners -/

/-- The scanner puts `text` in front of what it takes from `rest`, and takes the same in front of
any text that may follow. -/
def Settled (f : List Char → Scanned Kind) (text rest : List Char) : Prop :=
  ∃ u, (f rest).text = text ++ u ∧ rest = u ++ (f rest).rest ∧
    ∀ other, Follows (f rest).kind (f rest).rest other →
      f (u ++ other) = ⟨(f rest).kind, text ++ u, other⟩

/-- A scanner that takes nothing may look at the character in front of it. -/
theorem settled_of_mk {f : List Char → Scanned Kind} (kind : Kind) {text rest : List Char}
    (h : ∀ other, Follows kind rest other → f other = ⟨kind, text, other⟩) :
    Settled f text rest := by
  have hrest := h rest (.inr (.refl rest))
  refine ⟨[], ?_, ?_, ?_⟩ <;> simp_all

theorem Settled.cons {f g : List Char → Scanned Kind} {text rest : List Char} {c : Char}
    (h : ∀ x, f (c :: x) = g x) (hg : Settled g (text ++ [c]) rest) :
    Settled f text (c :: rest) := by
  obtain ⟨u, ht, hr, hu⟩ := hg
  exact ⟨c :: u, by simp [h, ht], by rw [h, List.cons_append, ← hr], fun other ho => by
    rw [h] at ho
    simp [h, hu other ho]⟩

theorem takeWhile_append_of_all {p : Char → Bool} {u other : List Char} (hu : ∀ c ∈ u, p c = true)
    (ho : other.head?.any p = false) : (u ++ other).takeWhile p = u := by
  rw [List.takeWhile_append_of_pos hu]
  cases other <;> simp_all

theorem dropWhile_append_of_all {p : Char → Bool} {u other : List Char} (hu : ∀ c ∈ u, p c = true)
    (ho : other.head?.any p = false) : (u ++ other).dropWhile p = other := by
  rw [List.dropWhile_append_of_pos hu]
  cases other <;> simp_all

theorem any_head_dropWhile (p : Char → Bool) (s : List Char) :
    (s.dropWhile p).head?.any p = false := by
  cases h : s.dropWhile p with
  | nil => rfl
  | cons c t =>
    have := List.head_dropWhile_not p (l := s) (by simp [h])
    simp_all

theorem settled_extend (kind : Kind) (text : List Char) {p : Char → Bool} (hp : Extends p)
    (rest : List Char) : Settled (Scanned.extend kind text p) text rest := by
  refine ⟨rest.takeWhile p, rfl, List.takeWhile_append_dropWhile.symm, fun other ho => ?_⟩
  have hall : ∀ c ∈ rest.takeWhile p, p c = true := fun c hc => List.mem_takeWhile_imp hc
  have hhead : other.head?.any p = false := ho.any_head hp (any_head_dropWhile p rest)
  simp [Scanned.extend, takeWhile_append_of_all hall hhead, dropWhile_append_of_all hall hhead]

/-- In front of what a settled scanner leaves, other text starts with no class of characters that
the rest does not start with. -/
theorem any_head_append {f : List Char → Scanned Kind} {p : Char → Bool} (hp : Extends p)
    {rest u other : List Char} (hu : rest = u ++ (f rest).rest)
    (ho : Follows (f rest).kind (f rest).rest other) (h : rest.head?.any p = false) :
    (u ++ other).head?.any p = false := by
  cases u with
  | nil => exact ho.any_head hp (by rwa [show (f rest).rest = rest from hu.symm])
  | cons c u =>
    rw [hu] at h
    simpa using h

/-- Two scanners that agree on texts that do not go on with `p`. -/
theorem Settled.of_any_head {f g : List Char → Scanned Kind} {text rest : List Char}
    {p : Char → Bool} (hp : Extends p) (hfg : ∀ x, x.head?.any p = false → f x = g x)
    (h : rest.head?.any p = false) (hg : Settled g text rest) : Settled f text rest := by
  obtain ⟨u, ht, hr, hu⟩ := hg
  refine ⟨u, by rw [hfg rest h, ht], by rw [hfg rest h, ← hr], fun other ho => ?_⟩
  rw [hfg rest h] at ho ⊢
  rw [hfg _ (any_head_append hp hr ho h), hu other ho]

/-- Two scanners that agree on texts that go on with `p`, of which the scanner takes some. -/
theorem Settled.of_any_head_of_ne {f g : List Char → Scanned Kind} {text rest : List Char}
    {p : Char → Bool} (hfg : ∀ x, x.head?.any p = true → f x = g x)
    (h : rest.head?.any p = true) (ht : (g rest).text ≠ text) (hg : Settled g text rest) :
    Settled f text rest := by
  obtain ⟨u, hu, hr, ho⟩ := hg
  refine ⟨u, by rw [hfg rest h, hu], by rw [hfg rest h, ← hr], fun other hother => ?_⟩
  rw [hfg rest h] at hother ⊢
  have hh : (u ++ other).head?.any p = true := by
    cases u with
    | nil => exact absurd (hu.trans (List.append_nil _)) ht
    | cons c u =>
      rw [hr] at h
      simpa using h
  rw [hfg _ hh, ho other hother]

/-- A scanner that takes the characters of a class first. -/
theorem Settled.of_takeWhile {f : List Char → Scanned Kind}
    {g : List Char → List Char → Scanned Kind} {text rest : List Char} {p : Char → Bool}
    (hp : Extends p) (hf : ∀ x, f x = g (text ++ x.takeWhile p) (x.dropWhile p))
    (hg : ∀ t r, Settled (g t) t r) : Settled f text rest := by
  obtain ⟨u, ht, hr, hu⟩ := hg (text ++ rest.takeWhile p) (rest.dropWhile p)
  rw [← hf] at ht hr hu
  refine ⟨rest.takeWhile p ++ u, by simp [ht], ?_, fun other ho => ?_⟩
  · rw [List.append_assoc, ← hr, List.takeWhile_append_dropWhile]
  · have hall : ∀ c ∈ rest.takeWhile p, p c = true := fun c hc => List.mem_takeWhile_imp hc
    have hhead : (u ++ other).head?.any p = false := by
      rw [hf] at hr ho
      exact any_head_append (f := g _) hp hr ho (any_head_dropWhile p rest)
    rw [hf (_ ++ u ++ other), List.append_assoc, takeWhile_append_of_all hall hhead,
      dropWhile_append_of_all hall hhead, hu other ho, List.append_assoc]

/-! ### Numbers -/

theorem settled_scanExponentDigits (text rest : List Char) :
    Settled (scanExponentDigits text) text rest := by
  have fault : rest.head?.any Char.isDigit = false → Settled (scanExponentDigits text) text rest :=
    fun h => .of_any_head extends_isDigit (g := numberFault .emptyExponent text)
      (fun x hx => by cases x <;> simp_all [scanExponentDigits]) h
      (settled_extend _ _ extends_isNumberPart _)
  cases rest with
  | nil => exact fault rfl
  | cons d rest =>
    by_cases hd : d.isDigit = true
    · exact .cons (g := Scanned.extend .float (text ++ [d]) Char.isDigit)
        (fun x => by simp [scanExponentDigits, hd]) (settled_extend _ _ extends_isDigit _)
    · exact fault (by simpa using hd)

def isSign (c : Char) : Bool := c == '+' || c == '-'

theorem settled_scanExponentSign (text rest : List Char) :
    Settled (scanExponentSign text) text rest := by
  by_cases h : rest.head?.any isSign = true
  · cases rest with
    | nil => simp at h
    | cons c rest =>
      have hc : c = '+' ∨ c = '-' := by simpa [isSign] using h
      rcases hc with rfl | rfl
      · exact .cons (fun _ => rfl) (settled_scanExponentDigits _ _)
      · exact .cons (fun _ => rfl) (settled_scanExponentDigits _ _)
  · refine .of_any_head (p := isSign) (extends_of_all (by decide)) (fun x hx => ?_)
      (Bool.eq_false_iff.mpr h) (settled_scanExponentDigits _ _)
    unfold scanExponentSign
    split <;> simp_all [isSign]

theorem scanExponent_of_any_head (kind : Kind) (text : List Char) {x : List Char}
    (h : x.head?.any isExponentMark = false) : scanExponent kind text x = ⟨kind, text, x⟩ := by
  unfold scanExponent
  split <;> simp_all [isExponentMark]

theorem extends_isExponentMark : Extends isExponentMark := extends_of_all (by decide)

theorem settled_scanExponent (kind : Kind) (text rest : List Char) :
    Settled (scanExponent kind text) text rest := by
  by_cases h : rest.head?.any isExponentMark = true
  · cases rest with
    | nil => simp at h
    | cons c rest =>
      have hc : c = 'e' ∨ c = 'E' := by simpa [isExponentMark] using h
      rcases hc with rfl | rfl
      · exact .cons (fun _ => rfl) (settled_scanExponentSign _ _)
      · exact .cons (fun _ => rfl) (settled_scanExponentSign _ _)
  · exact settled_of_mk kind fun other ho => scanExponent_of_any_head _ _
      (ho.any_head extends_isExponentMark (Bool.eq_false_iff.mpr h))

theorem scanFraction_of_not_digit (text : List Char) {x : List Char}
    (h : x.head? = some '.' → x.tail.head?.any Char.isDigit = false) :
    scanFraction text x = scanExponent .int text x := by
  unfold scanFraction
  split <;> simp_all [scanExponent_of_any_head, isExponentMark]

theorem settled_scanFraction (text rest : List Char) :
    Settled (scanFraction text) text rest := by
  by_cases point : rest.head? = some '.'
  · by_cases digit : rest.tail.head?.any Char.isDigit = true
    · obtain ⟨d, rest, rfl, hd⟩ : ∃ d r, rest = '.' :: d :: r ∧ d.isDigit = true := by
        rcases rest with _ | ⟨c, _ | ⟨d, r⟩⟩ <;> simp_all
      refine .cons (g := fun x => scanFraction text ('.' :: x)) (fun _ => rfl) ?_
      refine .cons (g := fun x => scanFraction text ('.' :: d :: x)) (fun _ => rfl) ?_
      refine .of_takeWhile extends_isDigit (g := scanExponent .float) (fun x => ?_)
        (settled_scanExponent _)
      simp [scanFraction, hd]
    -- a point that no digit follows ends the number
    · refine settled_of_mk .int fun other ho => ?_
      rw [scanFraction_of_not_digit text, scanExponent_of_any_head]
      · exact ho.any_head extends_isExponentMark (by rw [point]; rfl)
      · intro hp
        rcases ho with ho | ho
        · cases other with
          | nil => rfl
          | cons c other =>
            obtain rfl : c = '.' := by simpa using hp
            exact absurd ho.1 (by decide)
        · exact Bool.eq_false_iff.mpr fun h => digit (ho.2 h)
  · refine .of_any_head (p := (· == '.')) (extends_beq (by decide)) (fun x hx => ?_) ?_
      (settled_scanExponent .int text rest)
    · refine scanFraction_of_not_digit text fun hp => ?_
      simp [hp] at hx
    · cases rest <;> simp_all

theorem scanInteger_zero (sign x : List Char) : scanInteger sign ('0' :: x) =
    if x.head?.any Char.isDigit then numberFault .leadingZero (sign ++ ['0']) x
    else scanFraction (sign ++ ['0']) x := by
  cases x
  · simp [scanInteger]
  · simp [scanInteger]; rfl

theorem scanInteger_digit (sign : List Char) {c : Char} (hc : c ≠ '0') (hd : c.isDigit = true)
    (x : List Char) : scanInteger sign (c :: x) =
      scanFraction (sign ++ [c] ++ x.takeWhile Char.isDigit) (x.dropWhile Char.isDigit) := by
  cases x <;> simp [scanInteger, hc, hd]

theorem scanInteger_other (sign : List Char) {x : List Char}
    (h : x.head?.any Char.isDigit = false) : scanInteger sign x = ⟨.error .loneMinus, sign, x⟩ := by
  unfold scanInteger
  split <;> simp_all

theorem settled_scanInteger (sign rest : List Char) :
    Settled (scanInteger sign) sign rest := by
  by_cases h : rest.head?.any Char.isDigit = true
  · cases rest with
    | nil => simp at h
    | cons c rest =>
      have hd : c.isDigit = true := by simpa using h
      by_cases hc : c = '0'
      · subst hc
        refine .cons (g := fun x => scanInteger sign ('0' :: x)) (fun _ => rfl) ?_
        by_cases hz : rest.head?.any Char.isDigit = true
        · refine .of_any_head_of_ne (fun x hx => by simp [scanInteger_zero, hx]; rfl) hz ?_
            (settled_extend _ _ extends_isNumberPart _)
          rcases rest with _ | ⟨d, rest⟩ <;> simp_all [Scanned.extend, isNumberPart]
        · exact .of_any_head extends_isDigit (fun x hx => by simp [scanInteger_zero, hx])
            (Bool.eq_false_iff.mpr hz) (settled_scanFraction _ _)
      · refine .cons (g := fun x => scanInteger sign (c :: x)) (fun _ => rfl) ?_
        exact .of_takeWhile extends_isDigit (scanInteger_digit sign hc hd) settled_scanFraction
  · exact settled_of_mk _ fun other ho => scanInteger_other sign
      (ho.any_head extends_isDigit (Bool.eq_false_iff.mpr h))

/-! ### Dots and names -/

theorem settled_scanDots (rest : List Char) : Settled scanDots ['.'] rest := by
  have hp : Extends (· == '.') := extends_beq (by decide)
  by_cases h : rest.head?.any (· == '.') = true
  · obtain ⟨rest, rfl⟩ : ∃ r, rest = '.' :: r := by cases rest <;> simp_all
    refine .cons (g := fun x => scanDots ('.' :: x)) (fun _ => rfl) ?_
    by_cases h : rest.head?.any (· == '.') = true
    · obtain ⟨rest, rfl⟩ : ∃ r, rest = '.' :: r := by cases rest <;> simp_all
      exact ⟨['.'], rfl, rfl, fun other _ => rfl⟩
    · refine settled_of_mk (.error (.dots 2)) fun other ho => ?_
      have hh := ho.any_head hp (Bool.eq_false_iff.mpr h)
      cases other <;> simp_all [scanDots]
  · refine settled_of_mk (.error (.dots 1)) fun other ho => ?_
    have hh := ho.any_head hp (Bool.eq_false_iff.mpr h)
    cases other <;> simp_all [scanDots]

theorem settled_scanName (c : Char) (rest : List Char) : Settled (scanName c) [c] rest := by
  refine ⟨rest.takeWhile isNameContinue, rfl, List.takeWhile_append_dropWhile.symm,
    fun other ho => ?_⟩
  have hall : ∀ d ∈ rest.takeWhile isNameContinue, isNameContinue d = true :=
    fun d hd => List.mem_takeWhile_imp hd
  have hhead : other.head?.any isNameContinue = false :=
    ho.any_head extends_isNameContinue (any_head_dropWhile _ rest)
  simp [scanName, takeWhile_append_of_all hall hhead, dropWhile_append_of_all hall hhead]

/-! ### Strings -/

theorem Settled.behind {f g : List Char → Scanned Kind} {text rest : List Char}
    (front : List Char) (h : ∀ x, f (front ++ x) = (g x).behind (text ++ front))
    (hg : Settled g [] rest) :
    Settled f text (front ++ rest) := by
  obtain ⟨u, ht, hr, hu⟩ := hg
  refine ⟨front ++ u, by simp [h, Scanned.behind, ht], ?_, fun other ho => ?_⟩
  · rw [h, List.append_assoc]
    exact congrArg (front ++ ·) hr
  · rw [h] at ho ⊢
    rw [List.append_assoc, h, hu other ho]
    simp [Scanned.behind]

/-- An open string is followed by nothing. -/
theorem Follows.eq_nil {kind : Kind} {other : List Char} (hk : kind.isOpen = true)
    (h : Follows kind [] other) : other = [] := by
  rcases h with h | h
  · cases other with
    | nil => rfl
    | cons c other => exact absurd (hk.symm.trans h.2.1) (by decide)
  · simpa using h.1.symm

/-- A string that a CR breaks is not followed by LF unless it was. -/
theorem Follows.head?_ne {rest other : List Char} (h : Follows (.error .brokenString) rest other)
    (hr : rest.head? ≠ some '\n') : other.head? ≠ some '\n' := by
  rcases h with h | h
  · cases other with
    | nil => simp
    | cons c other => simpa using h.2.2 rfl
  · rwa [← h.1]

theorem scanString_return {x : List Char} (h : x.head? ≠ some '\n') :
    scanString ('\r' :: x) = ⟨.error .brokenString, ['\r'], x⟩ := by
  rcases x with _ | ⟨c, x⟩
  · rfl
  · rw [scanString]
    simp_all

theorem settled_scanString (rest : List Char) : Settled scanString [] rest := by
  fun_induction scanString rest with
  | case1 => exact ⟨[], rfl, rfl, fun other ho => by rw [ho.eq_nil rfl]; rfl⟩
  | case2 rest => exact ⟨['"'], rfl, rfl, fun other _ => rfl⟩
  | case3 rest => exact ⟨['\r', '\n'], rfl, rfl, fun other _ => rfl⟩
  | case4 rest h =>
    have hr : rest.head? ≠ some '\n' := by cases rest <;> simp_all
    rw [Settled, scanString_return hr]
    exact ⟨['\r'], rfl, rfl, fun other ho => scanString_return (ho.head?_ne hr)⟩
  | case5 rest => exact ⟨['\n'], rfl, rfl, fun other _ => rfl⟩
  | case6 c rest ih => exact Settled.behind ['\\', c] (fun _ => rfl) ih
  | case7 c rest quote hcrlf hcr hlf hback ih =>
    by_cases hc : c = '\\'
    · obtain rfl : rest = [] := by cases rest <;> simp_all
      subst hc
      exact ⟨['\\'], rfl, rfl, fun other ho => by rw [ho.eq_nil rfl]; rfl⟩
    · refine Settled.behind [c] (fun x => ?_) ih
      rw [List.singleton_append, scanString]
      all_goals simp_all

/-- A block string is closed by three quotes or open up to the end. -/
theorem scanBlock_cases (rest : List Char) :
    ((scanBlock rest).kind = .string ∧ 3 ≤ (scanBlock rest).text.length) ∨
      ((scanBlock rest).kind = .error .openBlock ∧ (scanBlock rest).rest = []) := by
  fun_induction scanBlock rest with
  | case1 => exact .inr ⟨rfl, rfl⟩
  | case2 rest ih =>
    rcases ih with ⟨hk, hl⟩ | ⟨hk, hr⟩
    · exact .inl ⟨hk, by simp [Scanned.behind]⟩
    · exact .inr ⟨hk, hr⟩
  | case3 rest => exact .inl ⟨rfl, by simp⟩
  | case4 c rest _ _ ih =>
    rcases ih with ⟨hk, hl⟩ | ⟨hk, hr⟩
    · exact .inl ⟨hk, by simp [Scanned.behind]; omega⟩
    · exact .inr ⟨hk, hr⟩

theorem settled_scanBlock (rest : List Char) : Settled scanBlock [] rest := by
  fun_induction scanBlock rest with
  | case1 => exact ⟨[], rfl, rfl, fun other ho => by rw [ho.eq_nil rfl]; rfl⟩
  | case2 rest ih => exact Settled.behind ['\\', '"', '"', '"'] (fun _ => rfl) ih
  | case3 rest => exact ⟨['"', '"', '"'], rfl, rfl, fun other _ => rfl⟩
  | case4 c rest hback hquotes ih =>
    have step : scanBlock (c :: rest) = (scanBlock rest).behind [c] := by
      rw [scanBlock]
      · exact hback
      · exact hquotes
    obtain ⟨u, ht, hr, hu⟩ := ih
    refine ⟨c :: u, by simp [step, Scanned.behind, ht], ?_, fun other ho => ?_⟩
    · rw [step, List.cons_append]
      exact congrArg (c :: ·) hr
    · rw [step] at ho ⊢
      rcases scanBlock_cases rest with ⟨-, hl⟩ | ⟨hk, hn⟩
      -- the three quotes at the end are part of the text, so the same quotes are seen from `c`
      · have hl : 3 ≤ u.length := by simpa [ht] using hl
        obtain ⟨a, b, d, v, rfl⟩ : ∃ a b d v, u = a :: b :: d :: v := by
          clear hu hr ht
          rcases u with _ | ⟨a, _ | ⟨b, _ | ⟨d, v⟩⟩⟩ <;> simp_all
        have hr : rest = a :: b :: d :: (v ++ (scanBlock rest).rest) := hr
        rw [List.cons_append, scanBlock, hu other ho]
        · rfl
        · intro w hc hw
          obtain ⟨rfl, rfl, rfl, -⟩ : a = '"' ∧ b = '"' ∧ d = '"' ∧ v ++ other = w := by
            simpa using hw
          exact hback _ hc hr
        · intro w hc hw
          obtain ⟨rfl, rfl, -⟩ : a = '"' ∧ b = '"' ∧ d :: (v ++ other) = w := by
            simpa using hw
          exact hquotes _ hc hr
      · have hother : other = [] := by
          have ho : Follows (scanBlock rest).kind (scanBlock rest).rest other := ho
          rw [hk, hn] at ho
          exact ho.eq_nil rfl
        have hrest : u ++ other = rest := by rw [hother, ← hn]; exact hr.symm
        have hu := hu other ho
        rw [hrest] at hu
        rw [List.cons_append, hrest, step, hu]
        rfl

theorem text_scanString_ne_nil (c : Char) (rest : List Char) :
    (scanString (c :: rest)).text ≠ [] := by
  unfold scanString
  split <;> simp_all [Scanned.behind]

theorem scanQuote_of_ne {x : List Char} (h : ∀ r, x ≠ '"' :: '"' :: r) :
    scanQuote x = (scanString x).behind ['"'] := by
  unfold scanQuote
  split
  · exact absurd rfl (h _)
  · rfl

theorem settled_scanQuote (rest : List Char) : Settled scanQuote ['"'] rest := by
  by_cases block : ∃ r, rest = '"' :: '"' :: r
  · obtain ⟨r, rfl⟩ := block
    exact Settled.behind ['"', '"'] (fun _ => rfl) (settled_scanBlock r)
  · have hne : ∀ r, rest ≠ '"' :: '"' :: r := fun r h => block ⟨r, h⟩
    obtain ⟨u, ht, hr, hu⟩ := settled_scanString rest
    rw [Settled, scanQuote_of_ne hne]
    refine ⟨u, by simp [Scanned.behind, ht], hr, fun other ho => ?_⟩
    rw [scanQuote_of_ne, hu other ho]
    · rfl
    -- a second quote closes the string, and no third one follows it
    · rintro r hother
      rcases rest with _ | ⟨a, rest⟩
      · obtain rfl : other = [] := ho.eq_nil rfl
        obtain rfl : u = [] := (List.append_eq_nil_iff.mp hr.symm).1
        simp at hother
      · by_cases ha : a = '"'
        · subst ha
          obtain rfl : u = ['"'] := ht.symm
          have hrest : rest.head?.any (· == '"') = false := by
            cases rest with
            | nil => rfl
            | cons b rest => simpa using fun hb : b = '"' => hne rest (by rw [hb])
          have hhead := Follows.any_head (p := (· == '"')) (extends_beq (by decide)) ho hrest
          obtain ⟨-, rfl⟩ := List.cons.inj hother
          simp at hhead
        · rcases u with _ | ⟨b, u⟩
          · exact text_scanString_ne_nil a rest ht
          · exact ha ((List.cons.inj hr).1.trans (List.cons.inj hother).1)

/-! ## Any token -/

/-- A scanner that takes something may have its first character read beforehand. -/
theorem Settled.uncons {f : List Char → Scanned Kind} {text rest : List Char} {c : Char}
    (h : Settled f text (c :: rest)) (hne : (f (c :: rest)).text ≠ text) :
    Settled (fun x => f (c :: x)) (text ++ [c]) rest := by
  obtain ⟨u, ht, hr, hu⟩ := h
  rcases u with _ | ⟨d, u⟩
  · exact absurd (ht.trans (List.append_nil _)) hne
  · obtain ⟨rfl, hrest⟩ := List.cons.inj hr
    exact ⟨u, by simpa using ht, hrest, fun other ho => by simpa using hu other ho⟩

/-- No character of an extending class is a punctuator. -/
theorem ofChar?_eq_none {p : Char → Bool} (hp : Extends p) {c : Char} (h : p c = true) :
    Punctuator.ofChar? c = none := by
  by_contra hn
  have hi : isolates c = true := by simp [isolates, Option.isSome_iff_ne_none.mpr hn]
  exact absurd h (by simp [hp c (mem_isolators hi)])

theorem isNameContinue_of_isNameStart {c : Char} (h : isNameStart c = true) :
    isNameContinue c = true := by simp [isNameContinue, h]

theorem isNumberPart_of_isDigit {c : Char} (h : c.isDigit = true) : isNumberPart c = true := by
  simp [isNumberPart, h]

theorem isNameStart_of_isDigit {c : Char} (h : c.isDigit = true) : isNameStart c = false := by
  have underscore : c ≠ '_' := by rintro rfl; exact absurd h (by decide)
  obtain ⟨-, h9⟩ : '0'.val ≤ c.val ∧ c.val ≤ '9'.val := by simpa [Char.isDigit] using h
  have upper : c.isUpper = false :=
    decide_eq_false fun hA => absurd (UInt32.le_trans hA.1 h9) (by decide)
  have lower : c.isLower = false := Bool.and_eq_false_iff.mpr
    (.inl (decide_eq_false fun ha => absurd (UInt32.le_trans ha h9) (by decide)))
  have alpha : c.isAlpha = false := Bool.or_eq_false_iff.mpr ⟨upper, lower⟩
  simp [isNameStart, underscore, alpha]

/-! The scan of a token is told by its first character. -/

theorem scan_punctuator {c : Char} {p : Punctuator} (h : Punctuator.ofChar? c = some p)
    (rest : List Char) : scan c rest = ⟨.punctuator p, [c], rest⟩ := by simp [scan, h]

theorem scan_name {c : Char} (h : isNameStart c = true) : scan c = scanName c := by
  have hp := ofChar?_eq_none extends_isNameContinue (isNameContinue_of_isNameStart h)
  have dot : c ≠ '.' := by rintro rfl; exact absurd h (by decide)
  have quote : c ≠ '"' := by rintro rfl; exact absurd h (by decide)
  funext x
  simp [scan, hp, dot, quote, h]

theorem scan_digit {c : Char} (h : c.isDigit = true) :
    scan c = fun rest => scanInteger [] (c :: rest) := by
  have hp := ofChar?_eq_none extends_isDigit h
  have dot : c ≠ '.' := by rintro rfl; exact absurd h (by decide)
  have quote : c ≠ '"' := by rintro rfl; exact absurd h (by decide)
  have minus : c ≠ '-' := by rintro rfl; exact absurd h (by decide)
  funext x
  simp [scan, hp, dot, quote, minus, isNameStart_of_isDigit h, h]

/-- The classes of first characters. -/
inductive Start (c : Char) : Prop where
  | punctuator (p : Punctuator) (h : Punctuator.ofChar? c = some p)
  | dot (h : c = '.')
  | quote (h : c = '"')
  | name (h : isNameStart c = true)
  | minus (h : c = '-')
  | digit (h : c.isDigit = true)
  | stray (h : scan c = fun rest => ⟨.error (.stray c), [c], rest⟩)

theorem start (c : Char) : Start c := by
  cases hp : Punctuator.ofChar? c with
  | some p => exact .punctuator p hp
  | none =>
    by_cases dot : c = '.'
    · exact .dot dot
    by_cases quote : c = '"'
    · exact .quote quote
    by_cases name : isNameStart c = true
    · exact .name name
    by_cases minus : c = '-'
    · exact .minus minus
    by_cases digit : c.isDigit = true
    · exact .digit digit
    · exact .stray (by funext x; simp [scan, hp, dot, quote, name, minus, digit])

theorem settled_scan (c : Char) (rest : List Char) : Settled (scan c) [c] rest := by
  cases start c with
  | punctuator p h =>
    have hs : scan c = fun x => ⟨.punctuator p, [c], x⟩ := funext (scan_punctuator h)
    exact hs ▸ ⟨[], rfl, rfl, fun other _ => rfl⟩
  | dot h => subst h; exact settled_scanDots rest
  | quote h => subst h; exact settled_scanQuote rest
  | name h => exact scan_name h ▸ settled_scanName c rest
  | minus h => subst h; exact settled_scanInteger _ rest
  | digit h =>
    exact scan_digit h ▸
      (settled_scanInteger [] (c :: rest)).uncons (text_scanInteger_ne_nil h rest)
  | stray h => exact h ▸ ⟨[], rfl, rfl, fun other _ => rfl⟩

/-- What a scan took, it takes in front of any text that may follow. -/
theorem scan_append {c : Char} {u rest other : List Char} {kind : Kind}
    (h : scan c (u ++ rest) = ⟨kind, c :: u, rest⟩) (ho : Follows kind rest other) :
    scan c (u ++ other) = ⟨kind, c :: u, other⟩ := by
  obtain ⟨v, ht, -, hv⟩ := settled_scan c (u ++ rest)
  rw [h] at ht hv
  obtain rfl : u = v := (List.cons.inj ht).2
  exact hv other ho

/-- A scan takes its first character and some of the text behind it. -/
theorem exists_scan_eq (c : Char) (rest : List Char) :
    ∃ u, (scan c rest).text = c :: u ∧ rest = u ++ (scan c rest).rest := by
  obtain ⟨u, ht, hr, -⟩ := settled_scan c rest
  exact ⟨u, ht, hr⟩

/-! ## Kinds -/

def Kind.isNumber : Kind → Bool
  | .int | .float => true
  | _ => false

/-- A name, or a word that stands for a value. -/
def Kind.isWord : Kind → Bool
  | .name | .boolean _ | .null => true
  | _ => false

/-- A number or a fault of one. -/
def Kind.isNumeric : Kind → Bool
  | .int | .float | .error .loneMinus | .error .leadingZero | .error .emptyExponent => true
  | _ => false

/-- The scan of a number takes nothing but parts of numbers. -/
def Numeric (s : Scanned Kind) : Prop :=
  s.kind.isNumeric = true ∧ ∀ d ∈ s.text, isNumberPart d = true

theorem numeric_mk {kind : Kind} {text : List Char} (hk : kind.isNumeric = true)
    (ht : ∀ d ∈ text, isNumberPart d = true) (rest : List Char) : Numeric ⟨kind, text, rest⟩ :=
  ⟨hk, ht⟩

theorem numeric_extend {kind : Kind} {text : List Char} {p : Char → Bool}
    (hk : kind.isNumeric = true) (hp : ∀ d, p d = true → isNumberPart d = true)
    (ht : ∀ d ∈ text, isNumberPart d = true) (rest : List Char) :
    Numeric (.extend kind text p rest) := by
  refine ⟨hk, fun d hd => ?_⟩
  rcases List.mem_append.mp hd with hd | hd
  · exact ht d hd
  · exact hp d (List.mem_takeWhile_imp hd)

theorem isNumberPart_append {text more : List Char} (ht : ∀ d ∈ text, isNumberPart d = true)
    (hm : ∀ d ∈ more, isNumberPart d = true) : ∀ d ∈ text ++ more, isNumberPart d = true := by
  intro d hd
  rcases List.mem_append.mp hd with hd | hd
  · exact ht d hd
  · exact hm d hd

theorem isNumberPart_takeWhile_isDigit (rest : List Char) :
    ∀ d ∈ rest.takeWhile Char.isDigit, isNumberPart d = true := fun _ hd =>
  isNumberPart_of_isDigit (List.mem_takeWhile_imp hd)

section

variable {text : List Char} (ht : ∀ d ∈ text, isNumberPart d = true)
include ht

theorem numeric_scanExponentDigits (rest : List Char) :
    Numeric (scanExponentDigits text rest) := by
  unfold scanExponentDigits
  split
  · split
    · exact numeric_extend rfl (fun _ => isNumberPart_of_isDigit)
        (isNumberPart_append ht (by simp_all [isNumberPart])) _
    · exact numeric_extend rfl (fun _ => id) ht _
  · exact numeric_extend rfl (fun _ => id) ht _

theorem numeric_scanExponentSign (rest : List Char) : Numeric (scanExponentSign text rest) := by
  unfold scanExponentSign
  split
  · exact numeric_scanExponentDigits (isNumberPart_append ht (List.forall_mem_singleton.mpr rfl)) _
  · exact numeric_scanExponentDigits (isNumberPart_append ht (List.forall_mem_singleton.mpr rfl)) _
  · exact numeric_scanExponentDigits ht _

theorem numeric_scanExponent {kind : Kind} (hk : kind.isNumeric = true) (rest : List Char) :
    Numeric (scanExponent kind text rest) := by
  unfold scanExponent
  split
  · exact numeric_scanExponentSign (isNumberPart_append ht (List.forall_mem_singleton.mpr rfl)) _
  · exact numeric_scanExponentSign (isNumberPart_append ht (List.forall_mem_singleton.mpr rfl)) _
  · exact numeric_mk hk ht _

theorem numeric_scanFraction (rest : List Char) : Numeric (scanFraction text rest) := by
  unfold scanFraction
  split
  · split
    · refine numeric_scanExponent (isNumberPart_append ht fun d hd => ?_) rfl _
      rcases List.mem_cons.mp hd with rfl | hd
      · rfl
      rcases List.mem_cons.mp hd with rfl | hd
      · exact isNumberPart_of_isDigit ‹_›
      · exact isNumberPart_takeWhile_isDigit _ d hd
    · exact numeric_mk rfl ht _
  · exact numeric_scanExponent ht rfl _

theorem numeric_scanInteger (rest : List Char) : Numeric (scanInteger text rest) := by
  unfold scanInteger
  split
  · split
    · exact numeric_extend rfl (fun _ => id)
        (isNumberPart_append ht (List.forall_mem_singleton.mpr rfl)) _
    · exact numeric_scanFraction (isNumberPart_append ht (List.forall_mem_singleton.mpr rfl)) _
  · split
    · refine numeric_scanFraction (isNumberPart_append ht fun d hd => ?_) _
      rcases List.mem_cons.mp hd with rfl | hd
      · exact isNumberPart_of_isDigit ‹_›
      · exact isNumberPart_takeWhile_isDigit _ d hd
    · exact numeric_mk rfl ht _
  · exact numeric_mk rfl ht _

end

theorem isNumeric_scan {c : Char} (hc : c = '-' ∨ c.isDigit = true) (rest : List Char) :
    (scan c rest).kind.isNumeric = true := by
  rcases hc with rfl | hd
  · exact (numeric_scanInteger (List.forall_mem_singleton.mpr rfl) rest).1
  · rw [scan_digit hd]
    exact (numeric_scanInteger (by simp) (c :: rest)).1

theorem nesting_of_isNumeric {k : Kind} (h : k.isNumeric = true) : k.nesting = 0 := by
  unfold Kind.isNumeric at h
  split at h <;> first | rfl | simp at h

/-- A string is closed, broken by a line end, or open up to the end. -/
theorem scanString_cases (rest : List Char) :
    (scanString rest).kind = .string ∨ (scanString rest).kind = .error .brokenString ∨
      ((scanString rest).kind = .error .openString ∧ (scanString rest).rest = []) := by
  fun_induction scanString rest with
  | case1 => exact .inr (.inr ⟨rfl, rfl⟩)
  | case2 => exact .inl rfl
  | case3 | case4 | case5 => exact .inr (.inl rfl)
  | case6 _ _ ih | case7 _ _ _ _ _ _ _ ih => exact ih

theorem kind_scanQuote (rest : List Char) : (scanQuote rest).kind = .string ∨
    ∃ fault, (scanQuote rest).kind = .error fault := by
  unfold scanQuote
  split
  · rename_i rest
    rcases scanBlock_cases rest with ⟨hk, -⟩ | ⟨hk, -⟩
    · exact .inl hk
    · exact .inr ⟨_, hk⟩
  · rcases scanString_cases rest with hk | hk | ⟨hk, -⟩
    · exact .inl hk
    · exact .inr ⟨_, hk⟩
    · exact .inr ⟨_, hk⟩

theorem kind_scanDots (rest : List Char) : (scanDots rest).kind = .punctuator .spread ∨
    ∃ fault, (scanDots rest).kind = .error fault := by
  unfold scanDots
  split
  · exact .inl rfl
  · exact .inr ⟨_, rfl⟩
  · exact .inr ⟨_, rfl⟩

/-- What the kind of a scan says about its text and its rest. -/
structure Sound (s : Scanned Kind) : Prop where
  kind_ne_eof : s.kind ≠ .eof
  rest_of_isOpen : s.kind.isOpen = true → s.rest = []
  text_of_isNumber : s.kind.isNumber = true → ∀ d ∈ s.text, isNumberPart d = true

theorem Numeric.sound {s : Scanned Kind} (h : Numeric s) : Sound s := by
  obtain ⟨hk, ht⟩ := h
  refine ⟨?_, ?_, fun _ => ht⟩
  · rintro he; simp [he, Kind.isNumeric] at hk
  · intro ho
    unfold Kind.isOpen at ho
    split at ho <;> simp_all [Kind.isNumeric]

/-- Kinds that say nothing about the text and the rest. -/
theorem sound_of_not {s : Scanned Kind} (he : s.kind ≠ .eof) (ho : s.kind.isOpen = false)
    (hn : s.kind.isNumber = false) : Sound s :=
  ⟨he, fun h => absurd h (by simp [ho]), fun h => absurd h (by simp [hn])⟩

theorem nameKind_cases (text : List Char) :
    nameKind text = .boolean true ∨ nameKind text = .boolean false ∨ nameKind text = .null ∨
      nameKind text = .name := by
  unfold nameKind
  split
  · exact .inl rfl
  split
  · exact .inr (.inl rfl)
  split
  · exact .inr (.inr (.inl rfl))
  · exact .inr (.inr (.inr rfl))

theorem sound_scanQuote (rest : List Char) : Sound (scanQuote rest) := by
  unfold scanQuote
  split
  · rename_i rest
    rcases scanBlock_cases rest with ⟨hk, -⟩ | ⟨hk, hr⟩
    · exact sound_of_not (by simp [Scanned.behind, hk]) (by simp [Scanned.behind, hk, Kind.isOpen])
        (by simp [Scanned.behind, hk, Kind.isNumber])
    · exact ⟨by simp [Scanned.behind, hk], fun _ => hr,
        fun hn => absurd hn (by simp [Scanned.behind, hk, Kind.isNumber])⟩
  · rcases scanString_cases rest with hk | hk | ⟨hk, hr⟩
    · exact sound_of_not (by simp [Scanned.behind, hk]) (by simp [Scanned.behind, hk, Kind.isOpen])
        (by simp [Scanned.behind, hk, Kind.isNumber])
    · exact sound_of_not (by simp [Scanned.behind, hk]) (by simp [Scanned.behind, hk, Kind.isOpen])
        (by simp [Scanned.behind, hk, Kind.isNumber])
    · exact ⟨by simp [Scanned.behind, hk], fun _ => hr,
        fun hn => absurd hn (by simp [Scanned.behind, hk, Kind.isNumber])⟩

theorem sound_scan (c : Char) (rest : List Char) : Sound (scan c rest) := by
  cases start c with
  | punctuator p h => rw [scan_punctuator h]; exact sound_of_not (by simp) rfl rfl
  | dot h =>
    subst h
    show Sound (scanDots rest)
    unfold scanDots
    split <;> exact sound_of_not (by simp) rfl rfl
  | quote h => subst h; exact sound_scanQuote rest
  | name h =>
    rw [scan_name h]
    have hk := nameKind_cases (c :: rest.takeWhile isNameContinue)
    apply sound_of_not <;> rcases hk with hk | hk | hk | hk <;>
      simp [scanName, hk, Kind.isOpen, Kind.isNumber]
  | minus h => subst h; exact (numeric_scanInteger (List.forall_mem_singleton.mpr rfl) rest).sound
  | digit h => rw [scan_digit h]; exact (numeric_scanInteger (by simp) (c :: rest)).sound
  | stray h => rw [h]; exact sound_of_not (by simp) rfl rfl

/-- What the kind of a token says about its first character. -/
structure Begins (kind : Kind) (c : Char) : Prop where
  word : kind.isWord = true → isNameStart c = true
  number : kind.isNumber = true → c = '-' ∨ c.isDigit = true
  string : kind = .string → c = '"'

/-- Kinds that say nothing about the first character. -/
theorem begins_of_not {kind : Kind} (hw : kind.isWord = false) (hn : kind.isNumber = false)
    (hs : kind ≠ .string) (c : Char) : Begins kind c :=
  ⟨fun h => absurd h (by simp [hw]), fun h => absurd h (by simp [hn]), fun h => absurd h hs⟩

theorem begins_of_isWord {kind : Kind} (h : kind.isWord = true) {c : Char}
    (hc : isNameStart c = true) : Begins kind c := by
  refine ⟨fun _ => hc, ?_, ?_⟩
  · cases kind <;> simp_all [Kind.isWord, Kind.isNumber]
  · rintro rfl
    cases h

theorem begins_of_isNumeric {kind : Kind} (h : kind.isNumeric = true) {c : Char}
    (hc : c = '-' ∨ c.isDigit = true) : Begins kind c := by
  refine ⟨?_, fun _ => hc, ?_⟩
  · cases kind <;> simp_all [Kind.isWord, Kind.isNumeric]
  · rintro rfl
    cases h

theorem isWord_nameKind (text : List Char) : (nameKind text).isWord = true := by
  rcases nameKind_cases text with hk | hk | hk | hk <;> rw [hk] <;> rfl

theorem begins_scan (c : Char) (rest : List Char) : Begins (scan c rest).kind c := by
  cases start c with
  | punctuator p h => rw [scan_punctuator h]; exact begins_of_not rfl rfl (by simp) c
  | dot h =>
    subst h
    change Begins (scanDots rest).kind '.'
    rcases kind_scanDots rest with hk | ⟨fault, hk⟩ <;>
      exact hk ▸ begins_of_not rfl rfl (by simp) '.'
  | quote h =>
    subst h
    change Begins (scanQuote rest).kind '"'
    rcases kind_scanQuote rest with hk | ⟨fault, hk⟩
    · rw [hk]
      exact ⟨fun h => (by cases h), fun h => (by cases h), fun _ => rfl⟩
    · exact hk ▸ begins_of_not rfl rfl (by simp) '"'
  | name h =>
    have hw : (scan c rest).kind.isWord = true := by
      rw [scan_name h]
      exact isWord_nameKind _
    exact begins_of_isWord hw h
  | minus h => exact begins_of_isNumeric (isNumeric_scan (.inl h) rest) (.inl h)
  | digit h => exact begins_of_isNumeric (isNumeric_scan (.inr h) rest) (.inr h)
  | stray h => rw [h]; exact begins_of_not rfl rfl (by simp) c

end QueryDoc.Lexis
