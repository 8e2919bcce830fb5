import QueryDoc.Grammar.Reader
import QueryDoc.Proofs.Grammar.Alignment
import QueryDoc.Proofs.Lexis.Key

/-!
# Reading piece by piece

What a reader makes of the lexemes it takes depends on nothing but their faces and, if it looks
ahead, on the face of the lexeme behind them. `Reads` says so for two readers that may descend to
different depths, and says as well how the lexemes that were taken stand to the nesting of brackets:
`Reads.bind` composes all of it, and each combinator has one lemma. A reader of whole definitions
`Finishes`: no lexeme behind what it takes counts, and the cut of the lexemes falls right there.
-/
namespace QueryDoc.Grammar

open QueryDoc.Lexis (cut foldr_consFirst_cons)

def Category.punctuator? : Category → Option Punctuator
  | .punctuator p => some p
  | _ => none

def Lexeme.punctuator? (l : Lexeme) : Option Punctuator := l.category.punctuator?

/-- Lexemes are cut where a closing brace brings the nesting back to the ground. -/
abbrev pieces (depth : Int) (ls : List Lexeme) : List (List Lexeme) :=
  cut Lexeme.punctuator? depth ls

/-! ## Manners -/

/-- How a reader goes about: does it take any lexeme for sure, does it look at the lexeme behind
those it takes, how deep must it start so that no cut falls among them, and how does it move the
nesting? -/
structure Manner where
  takes : Bool
  looks : Bool
  ground : Int
  moves : Int

namespace Manner

/-- The manner of two readers in turn. -/
def andThen (m n : Manner) : Manner where
  takes := m.takes || n.takes
  looks := n.looks || (m.looks && !n.takes)
  ground := max m.ground (n.ground - m.moves)
  moves := m.moves + n.moves

/-- What has the first manner has the second one as well. -/
def Fits (m n : Manner) : Prop :=
  (n.takes = true → m.takes = true) ∧ (m.looks = true → n.looks = true) ∧ m.ground ≤ n.ground ∧
    m.moves = n.moves

instance (m n : Manner) : Decidable (m.Fits n) := by unfold Fits; infer_instance

/-- The manner of a reader that takes nothing and sees nothing. -/
def idle : Manner := ⟨false, false, 0, 0⟩

/-- The manner of a reader that takes one lexeme. -/
def ofPunctuator : Option Punctuator → Manner
  | none => ⟨true, false, 0, 0⟩
  | some .braceClose => ⟨true, false, 2, -1⟩
  | some p => ⟨true, false, if p.nesting < 0 then 1 else 0, p.nesting⟩

end Manner

/-- No cut falls among lexemes with at least `ground` in front, and they move the nesting. -/
def Passes (ground moves : Int) (taken : List Lexeme) : Prop :=
  ∀ depth, ground ≤ depth → ∀ rest,
    pieces depth (taken ++ rest) = taken.foldr Text.consFirst (pieces (depth + moves) rest)

/-- Lexemes that are taken in the given manner. -/
structure Manner.Taken (m : Manner) (taken : List Lexeme) : Prop where
  ne_nil : m.takes = true → taken ≠ []
  passes : Passes m.ground m.moves taken

theorem Manner.Taken.nil : Manner.idle.Taken [] :=
  ⟨by simp [idle], fun depth _ rest => by simp [idle]⟩

theorem Manner.Taken.append {m n : Manner} {a b : List Lexeme} (ha : m.Taken a) (hb : n.Taken b) :
    (m.andThen n).Taken (a ++ b) := by
  refine ⟨fun ht => ?_, fun depth hd rest => ?_⟩
  · have ht : m.takes = true ∨ n.takes = true := by simpa [andThen] using ht
    rcases ht with ht | ht
    · simp [ha.ne_nil ht]
    · simp [hb.ne_nil ht]
  · have hd : m.ground ≤ depth ∧ n.ground ≤ depth + m.moves := by
      have := hd
      simp only [andThen] at this
      omega
    rw [List.append_assoc, ha.passes depth hd.1, hb.passes _ hd.2, List.foldr_append]
    simp [andThen, Int.add_assoc]

theorem Manner.Taken.weaken {m n : Manner} {a : List Lexeme} (h : m.Taken a) (hm : m.Fits n) :
    n.Taken a := by
  obtain ⟨htakes, -, hground, hmoves⟩ := hm
  refine ⟨fun ht => h.ne_nil (htakes ht), fun depth hd rest => ?_⟩
  rw [h.passes depth (Int.le_trans hground hd), hmoves]

theorem Manner.taken_singleton (l : Lexeme) : (Manner.ofPunctuator l.punctuator?).Taken [l] := by
  refine ⟨by simp, fun depth hd rest => ?_⟩
  cases hp : l.punctuator? with
  | none => simp [ofPunctuator, pieces, cut, hp]
  | some p =>
    rw [hp] at hd
    have hclose : ¬ (p = .braceClose ∧ depth + p.nesting ≤ 0) := by
      rintro ⟨rfl, hn⟩
      simp [ofPunctuator, Punctuator.nesting] at hd hn
      omega
    have hmoves : (ofPunctuator (some p)).moves = p.nesting := by cases p <;> rfl
    simp [pieces, cut, hp, hclose, hmoves]

/-! ## Readers -/

section

variable {α β γ δ : Type} {m n : Manner} {e : α → γ} {r r' : Reader α}

/-- Off the front of `ls`, where `a` was read and `rest` was left, the reader reads the same off any
lexemes with the same faces. The values agree in the given view. -/
def ReadsOff (m : Manner) (e : α → γ) (r : Reader α) (ls : List Lexeme) (a : α)
    (rest : List Lexeme) : Prop :=
  ∃ taken, ls = taken ++ rest ∧ m.Taken taken ∧
    ∀ taken' rest', taken'.map Lexeme.face = taken.map Lexeme.face →
      (m.looks = true → rest'.head?.map Lexeme.face = rest.head?.map Lexeme.face) →
      ∃ a', r (taken' ++ rest') = .ok (a', rest') ∧ e a' = e a

/-- Whatever the first reader reads, the second one reads in the same way. -/
def Reads (m : Manner) (e : α → γ) (r r' : Reader α) : Prop :=
  ∀ ls a rest, r ls = .ok (a, rest) → ReadsOff m e r' ls a rest

theorem ReadsOff.weaken {ls rest : List Lexeme} {a : α} (h : ReadsOff m e r ls a rest)
    (hm : m.Fits n) : ReadsOff n e r ls a rest := by
  obtain ⟨taken, hls, ht, hread⟩ := h
  exact ⟨taken, hls, ht.weaken hm, fun taken' rest' hf hl => hread taken' rest' hf fun hlooks =>
    hl (hm.2.1 hlooks)⟩

theorem Reads.weaken (h : Reads m e r r') (hm : m.Fits n) : Reads n e r r' :=
  fun ls a rest hr => (h ls a rest hr).weaken hm

theorem readsOff_pure {a a' : α} (h : e a' = e a) (ls : List Lexeme) :
    ReadsOff .idle e (pure a') ls a ls := by
  refine ⟨[], rfl, .nil, fun taken' rest' hf _ => ⟨a', ?_, h⟩⟩
  obtain rfl : taken' = [] := by simpa using hf
  rfl

theorem pure_eq_ok {a b : α} {ls rest : List Lexeme}
    (h : (pure a : Reader α) ls = .ok (b, rest)) : a = b ∧ ls = rest :=
  Prod.mk.inj (Except.ok.inj h)

theorem Reads.pure {a a' : α} (h : e a' = e a) : Reads .idle e (pure a) (pure a') := by
  intro ls b rest hr
  obtain ⟨rfl, rfl⟩ := pure_eq_ok hr
  exact readsOff_pure h ls

theorem bind_eq_ok {f : α → Reader β} {ls rest : List Lexeme} {b : β}
    (h : (r >>= f) ls = .ok (b, rest)) :
    ∃ a between, r ls = .ok (a, between) ∧ f a between = .ok (b, rest) := by
  change (r ls >>= fun p => f p.1 p.2) = .ok (b, rest) at h
  cases hr : r ls with
  | error e => rw [hr] at h; cases h
  | ok p => exact ⟨p.1, p.2, rfl, by rw [hr] at h; exact h⟩

theorem bind_of_ok {f : α → Reader β} {ls between : List Lexeme} {a : α}
    (h : r ls = .ok (a, between)) : (r >>= f) ls = f a between := by
  change (r ls >>= fun p => f p.1 p.2) = f a between
  rw [h]
  rfl

/-- A reader in front looks at the lexemes of the next one, if there are any. -/
theorem map_face_head?_append {u u' rest rest' : List Lexeme}
    (h : u'.map Lexeme.face = u.map Lexeme.face)
    (hrest : u = [] → rest'.head?.map Lexeme.face = rest.head?.map Lexeme.face) :
    (u' ++ rest').head?.map Lexeme.face = (u ++ rest).head?.map Lexeme.face := by
  rcases u with _ | ⟨l, u⟩
  · obtain rfl : u' = [] := by simpa using h
    exact hrest rfl
  · rcases u' with _ | ⟨l', u'⟩
    · simp at h
    · simp only [List.map_cons, List.cons.injEq] at h
      simp [h.1]

theorem ReadsOff.bind {f : α → Reader β} {g : β → δ} {ls between rest : List Lexeme} {a : α} {b : β}
    (h : ReadsOff m e r ls a between)
    (hf : ∀ a', e a' = e a → ReadsOff n g (f a') between b rest) :
    ReadsOff (m.andThen n) g (r >>= f) ls b rest := by
  obtain ⟨t, hls, htaken, hread⟩ := h
  obtain ⟨u, hbetween, hutaken, -⟩ := hf a rfl
  refine ⟨t ++ u, by rw [hls, hbetween, List.append_assoc], htaken.append hutaken, ?_⟩
  intro taken' rest' hface hlook
  rw [List.map_append] at hface
  obtain ⟨t', u', rfl, ht', hu'⟩ := List.map_eq_append_iff.mp hface
  have hhead : m.looks = true →
      (u' ++ rest').head?.map Lexeme.face = between.head?.map Lexeme.face := by
    intro hm
    rw [hbetween]
    refine map_face_head?_append hu' ?_
    rintro rfl
    have hn : n.takes = false := by
      by_contra hn
      exact hutaken.ne_nil (by simpa using hn) rfl
    exact hlook (by simp [Manner.andThen, hm, hn])
  obtain ⟨a', ha', hea⟩ := hread t' (u' ++ rest') ht' hhead
  obtain ⟨v, hv, -, hreadv⟩ := hf a' hea
  obtain rfl : u = v := List.append_cancel_right (hbetween.symm.trans hv)
  obtain ⟨b', hb', heb⟩ := hreadv u' rest' hu' fun hn => hlook (by simp [Manner.andThen, hn])
  exact ⟨b', by rw [List.append_assoc, bind_of_ok ha', hb'], heb⟩

theorem Reads.bind {f f' : α → Reader β} {g : β → δ} (h : Reads m e r r')
    (hf : ∀ a a', e a' = e a → Reads n g (f a) (f' a')) :
    Reads (m.andThen n) g (r >>= f) (r' >>= f') := by
  intro ls b rest hr
  obtain ⟨a, between, ha, hb⟩ := bind_eq_ok hr
  exact (h ls a between ha).bind fun a' ha' => hf a a' ha' between b rest hb

theorem Reads.bind_pure {f f' : α → β} {g : β → δ} (h : Reads m e r r')
    (hf : ∀ a a', e a' = e a → g (f' a') = g (f a)) :
    Reads m g (r >>= fun a => Pure.pure (f a)) (r' >>= fun a => Pure.pure (f' a)) := by
  intro ls b rest hr
  obtain ⟨a, between, ha, hb⟩ := bind_eq_ok hr
  obtain ⟨rfl, rfl⟩ := pure_eq_ok hb
  obtain ⟨taken, hls, htaken, hread⟩ := h ls a between ha
  refine ⟨taken, hls, htaken, fun taken' rest' hface hlook => ?_⟩
  obtain ⟨a', ha', hea⟩ := hread taken' rest' hface hlook
  exact ⟨f' a', bind_of_ok ha', hf a a' hea⟩

theorem reads_of_refuses (h : ∀ ls a rest, r ls ≠ .ok (a, rest)) : Reads m e r r' :=
  fun ls a rest hr => absurd hr (h ls a rest)

/-! ### Single lexemes -/

/-- The question is about the face of a lexeme. -/
def Faced (p : Lexeme → Bool) : Prop := ∀ l l' : Lexeme, l'.face = l.face → p l' = p l

theorem faced_category (p : Category → Bool) : Faced fun l => p l.category :=
  fun _ _ h => congrArg p (congrArg Prod.fst h)

theorem isPunctuator_congr {l l' : Lexeme} (h : l'.face = l.face) (p : Punctuator) :
    l'.isPunctuator p = l.isPunctuator p :=
  congrArg (fun f : Face => f.1 == .punctuator p) h

theorem isWord_congr {l l' : Lexeme} (h : l'.face = l.face) (name : String) :
    l'.isWord name = l.isWord name :=
  congrArg (fun f : Face => f.1 == .name && f.2 == name.toList) h

theorem faced_isPunctuator (p : Punctuator) : Faced (·.isPunctuator p) :=
  fun _ _ h => isPunctuator_congr h p

theorem faced_isWord (name : String) : Faced (·.isWord name) := fun _ _ h => isWord_congr h name

theorem faced_not {p : Lexeme → Bool} (hp : Faced p) : Faced (!p ·) := fun l l' h =>
  congrArg (!·) (hp l l' h)

/-- A lexeme is taken, and what follows depends on its face. -/
theorem Reads.lexeme_bind {p : Lexeme → Bool} (hp : Faced p) {f f' : Lexeme → Reader β} {g : β → δ}
    (h : ∀ l l', p l = true → l'.face = l.face →
      ∃ n, Reads n g (f l) (f' l') ∧ ((Manner.ofPunctuator l.punctuator?).andThen n).Fits m) :
    Reads m g (Reader.lexeme p >>= f) (Reader.lexeme p >>= f') := by
  intro ls b rest hr
  obtain ⟨l, between, hl, hb⟩ := bind_eq_ok hr
  obtain ⟨hpl, rfl⟩ : p l = true ∧ ls = l :: between := by
    unfold Reader.lexeme at hl
    split at hl
    · cases hl
    · split at hl
      · cases hl; exact ⟨‹_›, rfl⟩
      · cases hl
  obtain ⟨n, hn, hfits⟩ := h l l hpl rfl
  obtain ⟨u, rfl, hu, -⟩ := hn between b rest hb
  refine ⟨l :: u, rfl, ((Manner.taken_singleton l).append hu).weaken hfits, ?_⟩
  intro taken' rest' hface hlook
  rcases taken' with _ | ⟨l', u'⟩
  · simp at hface
  · simp only [List.map_cons, List.cons.injEq] at hface
    obtain ⟨n', hn', hfits'⟩ := h l l' hpl hface.1
    obtain ⟨v, hv, -, hread⟩ := hn' (u ++ rest) b rest hb
    obtain rfl : u = v := List.append_cancel_right hv
    obtain ⟨b', hb', heb⟩ := hread u' rest' hface.2 fun hn =>
      hlook (hfits'.2.1 (by simp [Manner.andThen, hn]))
    have hl' : Reader.lexeme p (l' :: (u' ++ rest')) = .ok (l', u' ++ rest') := by
      simp [Reader.lexeme, hp l l' hface.1, hpl]
    exact ⟨b', (bind_of_ok hl').trans hb', heb⟩

/-- A lexeme is taken whose punctuator is known. -/
theorem reads_lexeme {p : Lexeme → Bool} (hp : Faced p) {o : Option Punctuator}
    (ho : ∀ l, p l = true → l.punctuator? = o) :
    Reads (.ofPunctuator o) Lexeme.face (Reader.lexeme p) (Reader.lexeme p) := by
  have h := @Reads.lexeme_bind _ _ (.ofPunctuator o) _ hp Pure.pure Pure.pure Lexeme.face
    fun l l' hl hface => ⟨.idle, .pure hface, ?_⟩
  · simpa using h
  · rw [ho l hl]
    cases o with
    | none => decide
    | some p => cases p <;> decide

theorem reads_punctuator (p : Punctuator) : Reads (.ofPunctuator (some p)) Lexeme.face
    (Reader.punctuator p) (Reader.punctuator p) :=
  reads_lexeme (faced_isPunctuator p) fun l hl => by
    have hc : l.category = .punctuator p := by simpa [Lexeme.isPunctuator] using hl
    simp [Lexeme.punctuator?, Category.punctuator?, hc]

theorem reads_name : Reads (.ofPunctuator none) Lexeme.face Reader.name Reader.name :=
  reads_lexeme (faced_category (· == .name)) fun l hl => by
    have hc : l.category = .name := by simpa using hl
    simp [Lexeme.punctuator?, Category.punctuator?, hc]

theorem reads_word (text : String) : Reads (.ofPunctuator none) Lexeme.face (Reader.word text)
    (Reader.word text) :=
  reads_lexeme (faced_isWord text) fun l hl => by
    have hc : l.category = .name ∧ l.text = text.toList := by simpa [Lexeme.isWord] using hl
    simp [Lexeme.punctuator?, Category.punctuator?, hc.1]

/-! ### Looking ahead -/

/-- The manner of a reader that takes nothing but looks at the next lexeme. -/
def Manner.watching : Manner := ⟨false, true, 0, 0⟩

theorem any_head?_eq {p : Lexeme → Bool} (hp : Faced p) {ls ls' : List Lexeme}
    (h : ls'.head?.map Lexeme.face = ls.head?.map Lexeme.face) :
    ls'.head?.any p = ls.head?.any p := by
  cases hl : ls.head? with
  | none => rw [hl] at h; simp [Option.map_eq_none_iff.mp h]
  | some l =>
    rw [hl] at h
    obtain ⟨l', hl', hface⟩ := Option.map_eq_some_iff.mp h
    simp [hl', hp l l' hface]

theorem reads_next {p : Lexeme → Bool} (hp : Faced p) :
    Reads .watching id (Reader.next p) (Reader.next p) := by
  intro ls b rest hr
  obtain ⟨rfl, rfl⟩ : ls.head?.any p = b ∧ ls = rest := by
    simpa [Reader.next] using hr
  refine ⟨[], rfl, ⟨by simp [Manner.watching], Manner.Taken.nil.passes⟩, ?_⟩
  intro taken' rest' hface hlook
  obtain rfl : taken' = [] := by simpa using hface
  exact ⟨_, rfl, any_head?_eq hp (hlook rfl)⟩

/-- A reader that goes one way or the other. -/
theorem Reads.ifNext (m : Manner) {m₁ m₂ : Manner} {p : Lexeme → Bool} (hp : Faced p)
    {r₁ r₁' r₂ r₂' : Reader α} (h₁ : Reads m₁ e r₁ r₁') (h₂ : Reads m₂ e r₂ r₂')
    (hm₁ : m₁.Fits m) (hm₂ : m₂.Fits m) :
    Reads (Manner.watching.andThen m) e (Reader.next p >>= fun b => if b then r₁ else r₂)
      (Reader.next p >>= fun b => if b then r₁' else r₂') := by
  refine (reads_next hp).bind fun b b' hb => ?_
  obtain rfl : b' = b := hb
  cases b' with
  | true => exact h₁.weaken hm₁
  | false => exact h₂.weaken hm₂

theorem Reads.optional {p : Lexeme → Bool} (hp : Faced p) (h : Reads m e r r')
    (hm : m.Fits ⟨false, true, m.ground, 0⟩) (h0 : 0 ≤ m.ground) :
    Reads ⟨false, true, m.ground, 0⟩ (Option.map e) (Reader.optional p r)
      (Reader.optional p r') := by
  have hsome : Reads m (Option.map e) (r >>= fun a => Pure.pure (some a))
      (r' >>= fun a => Pure.pure (some a)) := h.bind_pure fun a a' ha => congrArg some ha
  have hnone : Reads .idle (Option.map e) (Pure.pure none) (Pure.pure none) := .pure rfl
  have hidle : Manner.idle.Fits ⟨false, true, m.ground, 0⟩ :=
    ⟨by simp, by simp [Manner.idle], h0, rfl⟩
  refine (Reads.ifNext _ hp hsome hnone hm hidle).weaken ⟨by simp, by simp, ?_, rfl⟩
  simp only [Manner.andThen, Manner.watching]
  omega

/-- The place of the next lexeme. Nothing is said about it but that there is one. -/
theorem reads_here : Reads .watching (fun _ => ()) here here := by
  intro ls a rest hr
  cases ls with
  | nil => cases hr
  | cons l ls =>
    cases hr
    refine ⟨[], rfl, ⟨by simp [Manner.watching], Manner.Taken.nil.passes⟩, ?_⟩
    intro taken' rest' hface hlook
    obtain rfl : taken' = [] := by simpa using hface
    obtain ⟨l', hl', -⟩ := Option.map_eq_some_iff.mp (hlook rfl)
    obtain ⟨ls', rfl⟩ : ∃ ls', rest' = l' :: ls' := by
      rcases rest' with _ | ⟨k, ls'⟩ <;> simp_all
    exact ⟨_, rfl, rfl⟩

theorem reads_literal {l l' : Lexeme} (x : Except LiteralFault α) :
    Reads .idle id (Reader.literal l x) (Reader.literal l' x) := by
  cases x with
  | ok a => exact .pure rfl
  | error fault => exact reads_of_refuses fun ls a rest h => by cases h

/-! ### Repetition -/

/-- A reader that takes something makes the rest shorter. -/
theorem Reads.length_lt (h : Reads m e r r') (hm : m.takes = true) {ls rest : List Lexeme} {a : α}
    (hr : r ls = .ok (a, rest)) : rest.length < ls.length := by
  obtain ⟨taken, rfl, htaken, -⟩ := h ls a rest hr
  have := List.length_pos_iff.mpr (htaken.ne_nil hm)
  simp only [List.length_append]
  omega

theorem atMost_succ (p : Lexeme → Bool) (r : Reader α) (k : Nat) (ls : List Lexeme) :
    Reader.atMost p r (k + 1) ls = if ls.head?.any p
      then (r >>= fun a => Reader.atMost p r k >>= fun as => Pure.pure (a :: as)) ls
      else .ok ([], ls) := by
  change (if ls.head?.any p then _ else _ : Reader (List α)) ls = _
  split <;> rfl

theorem bind_congr_of_ok {f f' : α → Reader β} {ls : List Lexeme}
    (h : ∀ a rest, r ls = .ok (a, rest) → f a rest = f' a rest) : (r >>= f) ls = (r >>= f') ls := by
  change (r ls >>= fun p => f p.1 p.2) = (r ls >>= fun p => f' p.1 p.2)
  cases hr : r ls with
  | error refusal => rfl
  | ok p => exact h p.1 p.2 hr

/-- Any number of attempts that covers the lexemes does. -/
theorem atMost_congr {p : Lexeme → Bool}
    (h : ∀ ls a rest, r ls = .ok (a, rest) → rest.length < ls.length) {k k' : Nat}
    {ls : List Lexeme} (hk : ls.length ≤ k) (hk' : ls.length ≤ k') :
    Reader.atMost p r k ls = Reader.atMost p r k' ls := by
  induction k generalizing k' ls with
  | zero =>
    obtain rfl : ls = [] := by simpa using hk
    cases k' <;> rfl
  | succ k ih =>
    cases k' with
    | zero =>
      obtain rfl : ls = [] := by simpa using hk'
      rfl
    | succ k' =>
      rw [atMost_succ, atMost_succ]
      split
      · refine bind_congr_of_ok fun a rest hr => ?_
        have hlt := h ls a rest hr
        have hrest : Reader.atMost p r k rest = Reader.atMost p r k' rest :=
          ih (by omega) (by omega)
        change (Reader.atMost p r k rest >>= _) = (Reader.atMost p r k' rest >>= _)
        rw [hrest]
      · rfl

/-- Repetition without a bound. -/
theorem many_eq {p : Lexeme → Bool}
    (h : ∀ ls a rest, r ls = .ok (a, rest) → rest.length < ls.length) :
    Reader.many p r = Reader.next p >>= fun b => if b
      then r >>= fun a => Reader.many p r >>= fun as => Pure.pure (a :: as)
      else Pure.pure [] := by
  funext ls
  change _ = (if ls.head?.any p then _ else _ : Reader (List α)) ls
  cases ls with
  | nil => rfl
  | cons l ls =>
    refine (atMost_succ p r ls.length (l :: ls)).trans ?_
    split
    · refine bind_congr_of_ok fun a rest hr => ?_
      have hlt : rest.length < ls.length + 1 := h (l :: ls) a rest hr
      have hrest : Reader.atMost p r ls.length rest = Reader.many p r rest :=
        atMost_congr h (by omega) le_rfl
      change (Reader.atMost p r ls.length rest >>= _) = (Reader.many p r rest >>= _)
      rw [hrest]
    · rfl

/-- The manner of a reader that is repeated. -/
def Manner.repeated (m : Manner) : Manner := ⟨false, true, m.ground, 0⟩

theorem Reads.many {p : Lexeme → Bool} (hp : Faced p) (h : Reads m e r r') (h' : Reads m e r' r')
    (ht : m.takes = true) (hm : m.moves = 0) (h0 : 0 ≤ m.ground) :
    Reads m.repeated (List.map e) (Reader.many p r) (Reader.many p r') := by
  have idle : Manner.idle.Fits m.repeated :=
    ⟨by simp [Manner.repeated], by simp [Manner.idle], h0, rfl⟩
  have step : (m.andThen (m.repeated.andThen .idle)).Fits m.repeated := by
    refine ⟨by simp [Manner.repeated], by simp [Manner.repeated], ?_, ?_⟩ <;>
      simp only [Manner.andThen, Manner.repeated, Manner.idle] <;> omega
  have watch : (Manner.watching.andThen m.repeated).Fits m.repeated := by
    refine ⟨by simp [Manner.repeated], by simp [Manner.repeated], ?_, rfl⟩
    simp only [Manner.andThen, Manner.repeated, Manner.watching]
    omega
  intro ls
  induction hk : ls.length using Nat.strong_induction_on generalizing ls with
  | _ k ih =>
    subst hk
    intro as rest hr
    rw [many_eq fun _ _ _ => h.length_lt ht] at hr
    obtain ⟨b, ls', hb, hr⟩ := bind_eq_ok hr
    obtain ⟨hnext, rfl⟩ : ls.head?.any p = b ∧ ls = ls' := by simpa [Reader.next] using hb
    rw [many_eq fun _ _ _ => h'.length_lt ht]
    refine ((reads_next hp ls b ls hb).bind fun b' hb' => ?_).weaken watch
    obtain rfl : b' = b := hb'
    cases b' with
    | false =>
      obtain ⟨rfl, rfl⟩ := pure_eq_ok hr
      exact (readsOff_pure rfl ls).weaken idle
    | true =>
      obtain ⟨a, between, ha, hr⟩ := bind_eq_ok hr
      obtain ⟨bs, rest', hbs, hr⟩ := bind_eq_ok hr
      obtain ⟨rfl, rfl⟩ := pure_eq_ok hr
      have hlt := h.length_lt ht ha
      refine ((h ls a between ha).bind fun a' ha' => ?_).weaken step
      refine (ih between.length hlt between rfl bs rest' hbs).bind fun bs' hbs' => ?_
      exact readsOff_pure (by rw [List.map_cons, List.map_cons, ha', hbs']) rest'

/-- A list that is not empty, up to the given punctuator. -/
theorem Reads.someUpTo (close : Punctuator) (h : Reads m e r r') (h' : Reads m e r' r')
    (ht : m.takes = true) (hm : m.moves = 0) (h0 : 0 ≤ m.ground) :
    Reads { m.repeated with takes := true } (List.map e) (Reader.someUpTo close r)
      (Reader.someUpTo close r') := by
  have hmany := h.many (faced_not (faced_isPunctuator close)) h' ht hm h0
  refine (h.bind fun a a' ha => hmany.bind fun as as' has => .pure ?_).weaken ?_
  · rw [List.map_cons, List.map_cons, ha, has]
  · refine ⟨by simp [Manner.andThen, ht], by simp [Manner.repeated], ?_, ?_⟩ <;>
      simp only [Manner.andThen, Manner.repeated, Manner.idle] <;> omega

/-! ### Whole definitions -/

/-- Off the front of `ls`, where `a` was read and `rest` was left, the reader reads the same off any
lexemes with the same faces, and no lexeme behind them counts. In front of them the nesting is
`depth`, and the first cut falls right behind them. -/
def FinishesOff (depth : Int) (e : α → γ) (r : Reader α) (ls : List Lexeme) (a : α)
    (rest : List Lexeme) : Prop :=
  ∃ taken, ls = taken ++ rest ∧ (∀ more, pieces depth (taken ++ more) = taken :: pieces 0 more) ∧
    ∀ taken' rest', taken'.map Lexeme.face = taken.map Lexeme.face →
      ∃ a', r (taken' ++ rest') = .ok (a', rest') ∧ e a' = e a

/-- Whatever the first reader reads, the second one reads in the same way, up to the first cut. -/
def Finishes (depth : Int) (e : α → γ) (r r' : Reader α) : Prop :=
  ∀ ls a rest, r ls = .ok (a, rest) → FinishesOff depth e r' ls a rest

theorem Finishes.bind_pure {depth : Int} {f f' : α → β} {g : β → δ} (h : Finishes depth e r r')
    (hf : ∀ a a', e a' = e a → g (f' a') = g (f a)) :
    Finishes depth g (r >>= fun a => Pure.pure (f a)) (r' >>= fun a => Pure.pure (f' a)) := by
  intro ls b rest hr
  obtain ⟨a, between, ha, hb⟩ := bind_eq_ok hr
  obtain ⟨rfl, rfl⟩ := pure_eq_ok hb
  obtain ⟨taken, hls, hcut, hread⟩ := h ls a between ha
  refine ⟨taken, hls, hcut, fun taken' rest' hface => ?_⟩
  obtain ⟨a', ha', hea⟩ := hread taken' rest' hface
  exact ⟨f' a', bind_of_ok ha', hf a a' hea⟩

theorem Reads.finishes {depth : Int} {f f' : α → Reader β} {g : β → δ} (h : Reads m e r r')
    (hm : m.ground ≤ depth)
    (hf : ∀ a a', e a' = e a → Finishes (depth + m.moves) g (f a) (f' a')) :
    Finishes depth g (r >>= f) (r' >>= f') := by
  intro ls b rest hr
  obtain ⟨a, between, ha, hb⟩ := bind_eq_ok hr
  obtain ⟨t, hls, htaken, hread⟩ := h ls a between ha
  obtain ⟨u, hbetween, hcut, -⟩ := hf a a rfl between b rest hb
  refine ⟨t ++ u, by rw [hls, hbetween, List.append_assoc], fun more => ?_, ?_⟩
  · rw [List.append_assoc, htaken.passes depth hm, hcut, foldr_consFirst_cons]
  · intro taken' rest' hface
    rw [List.map_append] at hface
    obtain ⟨t', u', rfl, ht', hu'⟩ := List.map_eq_append_iff.mp hface
    have hne : u ≠ [] := by
      rintro rfl
      have hnil := hcut []
      simp [pieces, cut] at hnil
    have hhead : (u' ++ rest').head?.map Lexeme.face = between.head?.map Lexeme.face := by
      rw [hbetween]
      exact map_face_head?_append hu' fun hnil => absurd hnil hne
    obtain ⟨a', ha', hea⟩ := hread t' (u' ++ rest') ht' fun _ => hhead
    obtain ⟨v, hv, -, hreadv⟩ := hf a a' hea between b rest hb
    obtain rfl : u = v := List.append_cancel_right (hbetween.symm.trans hv)
    obtain ⟨b', hb', heb⟩ := hreadv u' rest' hu'
    exact ⟨b', by rw [List.append_assoc, bind_of_ok ha', hb'], heb⟩

/-- The brace that closes the outermost level ends a definition. -/
theorem finishes_braceClose : Finishes 1 Lexeme.face (Reader.punctuator .braceClose)
    (Reader.punctuator .braceClose) := by
  intro ls l rest hr
  obtain ⟨taken, hls, htaken, hread⟩ := reads_punctuator .braceClose ls l rest hr
  obtain ⟨hl, hls'⟩ : l.isPunctuator .braceClose = true ∧ ls = l :: rest := by
    unfold Reader.punctuator Reader.lexeme at hr
    split at hr
    · cases hr
    · split at hr
      · cases hr; exact ⟨‹_›, rfl⟩
      · cases hr
  obtain rfl : taken = [l] := List.append_cancel_right (hls.symm.trans hls')
  have hp : l.punctuator? = some .braceClose := by
    have hc : l.category = .punctuator .braceClose := by simpa [Lexeme.isPunctuator] using hl
    simp [Lexeme.punctuator?, Category.punctuator?, hc]
  refine ⟨[l], hls, fun more => ?_, fun taken' rest' hface =>
    hread taken' rest' hface fun hlooks => absurd hlooks (by decide)⟩
  simp [pieces, cut, hp, Punctuator.nesting]

end

end QueryDoc.Grammar
