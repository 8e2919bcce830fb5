import QueryDoc.Proofs.Document.Lift
import QueryDoc.Proofs.Lexis.Tally

/-!
# What is counted outside groups

A tally goes over the words that are taken off a text as if the text ended there, so it goes over a
frame part by part. What it notes for the words outside all groups follows the layout of the groups
(`Tally.outside_plain`, `Tally.outside_frame`), and so does what it notes for the text with blanks.
-/
namespace QueryDoc.Lexis

/-! ## Frames -/

theorem Takes.append {ws vs : List Word} {s t rest : List Char} (h : Takes ws s t)
    (h' : Takes vs t rest) : Takes (ws ++ vs) s rest := by
  induction h with
  | nil s => exact h'
  | cons hs _ ih => exact .cons hs (ih h')

/-- A tally goes over the words that are taken off a text as if the text ended there. -/
theorem Takes.run_append {σ : Type} (τ : Tally σ) {ws : List Word} {s rest : List Char}
    (h : Takes ws s rest) {u : List Char} (hu : s = u ++ rest) (k : σ) : τ.run k s =
      ((τ.run k u).1 ++ (τ.run (τ.run k u).2 rest).1, (τ.run (τ.run k u).2 rest).2) := by
  induction h generalizing u k with
  | nil s =>
    obtain rfl : u = [] := by simpa using hu
    rw [τ.run_nil]
    rfl
  | @cons s front v t rest kind c ws h hs ih =>
    obtain ⟨gap, rfl⟩ := hs.exists_append
    obtain rfl : u = front ++ c :: (v ++ gap) :=
      List.append_cancel_right (hu.symm.trans (h.text.trans (by simp)))
    have hleft := (hu ▸ h).left
    rw [τ.run_of_splits h, ih rfl, τ.run_of_splits hleft]
    rfl

namespace FrameText

variable {s pre mid post : List Char} {f : Frame Word} {c : Char}

/-- The group of a frame is taken off in front of any text. -/
theorem takes_group (h : FrameText s f pre mid c post) (x : List Char) :
    Takes f.group ('(' :: (mid ++ [c]) ++ x) x := by
  obtain ⟨p, hp, -, hclosing⟩ := h.closing
  obtain ⟨u, gap, -, hgap, hinner⟩ := h.exists_takes_mid (d := c) (by simp [hp]) x
  have hlast : Takes [f.closing] (gap ++ c :: x) x := by
    rw [hclosing]
    exact .cons (splits_punctuator hp hgap x) (.nil x)
  have hfirst : Takes [f.opening] ('(' :: (mid ++ c :: x)) (mid ++ c :: x) := by
    rw [h.opening]
    exact .cons (splits_punctuator (c := '(') rfl (fun y => rfl : Ignorable []) _) (.nil _)
  simpa [Frame.group] using hfirst.append (hinner.append hlast)

theorem exists_run_front (h : FrameText s f pre mid c post) {σ : Type} (τ : Tally σ) :
    ∃ u gap, pre = u ++ gap ∧ Ignorable gap ∧ ∀ k,
      τ.run k pre = ((τ.run k u).1, τ.skip (τ.run k u).2 gap) ∧
      ∀ other, Follows .name (gap ++ '(' :: (mid ++ c :: post)) other →
        (τ.run k (u ++ other)).1 = (τ.run k u).1 ++ (τ.run (τ.run k u).2 other).1 := by
  obtain ⟨u, gap, rfl, hgap, -, htakes⟩ := h.exists_takes
  refine ⟨u, gap, rfl, hgap, fun k => ⟨?_, fun other ho => ?_⟩⟩
  · rw [(htakes gap (follows_left _ _ _)).run_append τ rfl,
      τ.run_of_dropIgnored_nil (dropIgnored_of_ignorable hgap), List.append_nil]
  · rw [(htakes other ho).run_append τ rfl]

variable {σ : Type} (τ : Tally σ)

/-- A tally goes over a frame's first two words, its group and what follows. -/
theorem run_eq (h : FrameText s f pre mid c post) (k : σ) : (τ.run k s).1 =
    (τ.run k pre).1 ++ ((τ.run (τ.run k pre).2 ('(' :: (mid ++ [c]))).1 ++
      (τ.run (τ.run (τ.run k pre).2 ('(' :: (mid ++ [c]))).2 post).1) := by
  obtain ⟨u, gap, hpre, hgap, hrun⟩ := h.exists_run_front τ
  obtain ⟨hfront, hother⟩ := hrun k
  have hs : s = u ++ (gap ++ ('(' :: (mid ++ [c]) ++ post)) := by rw [h.split, hpre]; simp
  rw [hfront, hs, hother _ (.inr (by simpa using Looks.refl _)), τ.run_append_of_ignorable hgap,
    (h.takes_group post).run_append τ rfl]

/-- A tally goes over a frame's first two words, the blanks in place of its group and what follows.
-/
theorem run_blank (h : FrameText s f pre mid c post) (k : σ) {gaps : List Char}
    (hgaps : ∀ d ∈ gaps, isSkipped d = true) (hne : gaps ≠ []) (x : List Char) :
    (τ.run k (pre ++ (gaps ++ x))).1 =
      (τ.run k pre).1 ++ (τ.run (τ.skip (τ.run k pre).2 gaps) x).1 := by
  obtain ⟨u, gap, rfl, hgap, hrun⟩ := h.exists_run_front τ
  obtain ⟨hfront, hother⟩ := hrun k
  rw [hfront, List.append_assoc, hother _ (follows_blank hgaps hne gap _ x),
    τ.run_append_of_ignorable hgap, τ.run_append_of_ignorable (ignorable_of_all_isSkipped hgaps)]

theorem length_run_pre (h : FrameText s f pre mid c post) (k : σ) :
    (τ.run k pre).1.length = 2 := by
  have hgaps : ∀ d ∈ [' '], isSkipped d = true := by simp [isSkipped]
  have hrun := congrArg List.length (h.run_blank τ k hgaps (by simp) [])
  have hwords := h.words_blank hgaps (by simp) []
  rw [List.append_assoc] at hwords
  rw [List.length_append, τ.length_run, hwords, τ.run_nil] at hrun
  simpa [words_of_dropIgnored_nil (s := []) rfl] using hrun.symm

end FrameText

/-! ## Outside groups -/

/-- A frame at the front is kept without its group. -/
theorem kepts_of_frame? {α : Type} (b : α → Bare) {front group rest rest' : List α} {f : Frame α}
    (hf : frame? b (front ++ (group ++ rest)) = some (f, rest')) (hfront : front.length = 2)
    (hrest : rest'.length = rest.length) : kepts (items b 0 (front ++ (group ++ rest))) =
      front ++ kepts (items b 0 rest) := by
  obtain ⟨hsource, -⟩ := frame?_eq_some b hf
  have hsplit : front ++ group ++ rest = [f.word, f.name] ++ f.group ++ rest' := by
    simpa [Frame.source, Frame.group] using hsource
  obtain ⟨hgroup, rfl⟩ := List.append_inj' hsplit hrest.symm
  obtain ⟨rfl, -⟩ := List.append_inj hgroup hfront
  rw [items_of_frame? b hf]
  rfl

/-- The first word of the items is kept. -/
theorem head?_kepts {α : Type} (is : List (Item α)) : (kepts is).head? = (sources is).head? := by
  rcases is with _ | ⟨_ | f, is⟩ <;> rfl

namespace Tally

variable {σ : Type} (τ : Tally σ)

/-- The words outside all groups, each with the count in front of it. -/
def outside (depth : Int) (k : σ) (s : List Char) : List (Bare × σ) :=
  kepts (items Prod.fst depth (τ.run k s).1)

/-- A frame starts among the words with their counts where one starts among the words. -/
theorem map_frame?_run (k : σ) (s : List Char) :
    (frame? Prod.fst (τ.run k s).1).map (fun x => (x.1.map Prod.fst, x.2.map Prod.fst)) =
      (frame? Word.bare (words s)).map fun x => (x.1.map Word.bare, x.2.map Word.bare) := by
  have hrun := frame?_map id Prod.fst (τ.run k s).1
  rw [τ.map_fst_run] at hrun
  exact hrun.symm.trans (frame?_map id Word.bare (words s))

/-- The first word is outside all groups. -/
theorem head?_outside (depth : Int) (k : σ) (s : List Char) :
    (τ.outside depth k s).head? = (τ.run k s).1.head? := by
  rw [outside, head?_kepts, (itemized_items Prod.fst depth (τ.run k s).1).2]

theorem outside_of_dropIgnored_nil {s : List Char} (h : dropIgnored false s = []) (depth : Int)
    (k : σ) : τ.outside depth k s = [] := by
  rw [outside, τ.run_of_dropIgnored_nil h, items_nil]
  rfl

theorem outside_plain {s front u rest : List Char} {kind : Kind} {c : Char} {depth : Int}
    (hs : Splits s front kind c u rest) (hf : depth = 0 → frame? Word.bare (words s) = none)
    (k : σ) : τ.outside depth k s = ((kind, c :: u), τ.skip k front) ::
      τ.outside (behind Word.bare depth (.ofScan ⟨kind, c :: u, rest⟩))
        (τ.pass (τ.skip k front) (c :: u)) rest := by
  have hnone : depth = 0 → frame? Prod.fst (τ.run k s).1 = none := fun h0 => by
    have hrun := τ.map_frame?_run k s
    rw [hf h0] at hrun
    exact Option.map_eq_none_iff.mp hrun
  rw [τ.run_of_splits hs] at hnone
  rw [outside, τ.run_of_splits hs, items_cons Prod.fst hnone]
  rfl

theorem outside_frame {s pre mid post : List Char} {f : Frame Word} {c : Char}
    (ht : FrameText s f pre mid c post) (hf : frame? Word.bare (words s) = some (f, words post))
    (k : σ) : τ.outside 0 k s = (τ.run k pre).1 ++
      τ.outside 0 (τ.run (τ.run k pre).2 ('(' :: (mid ++ [c]))).2 post := by
  have hrun := τ.map_frame?_run k s
  rw [hf, Option.map_some] at hrun
  obtain ⟨⟨f', rest⟩, hsome, he⟩ := Option.map_eq_some_iff.mp hrun
  have hrest := congrArg (fun x => x.2.length) he
  simp only [List.length_map] at hrest
  rw [ht.run_eq τ] at hsome
  rw [outside, ht.run_eq τ, kepts_of_frame? Prod.fst hsome (ht.length_run_pre τ k)]
  · rfl
  · rw [hrest, τ.length_run]

end Tally

/-! ## Blanks in place of groups -/

/-- A text, which stands behind `v`, with blanks in place of its groups. -/
def blanked (v : List Char) (groups : List VariableGroup) (s : List Char) : List Char :=
  blankFrom (Cursor.start.past v).place.offset groups s

namespace Layout

variable {v s : List Char} {groups : List VariableGroup}

theorem splits_blanked {front u rest : List Char} {kind : Kind} {c : Char} {depth : Int} {n : Nat}
    (h : Layout (v ++ (front ++ c :: u)) depth n rest groups) (hs : Splits s front kind c u rest) :
    Splits (blanked v groups s) front kind c u (blanked (v ++ (front ++ c :: u)) groups rest) := by
  have hfound := h.found
  rw [Cursor.past_append] at hfound
  rw [blanked, blanked, Cursor.past_append]
  exact hfound.splits hs

theorem blanked_frame {pre mid post : List Char} {c : Char} {n : Nat} {f : Frame Word}
    {g : VariableGroup} (h : Layout (v ++ (pre ++ '(' :: (mid ++ [c]))) 0 n post groups)
    (ht : FrameText s f pre mid c post) (hg : GroupText (Cursor.start.past v) g n f pre mid c) :
    blanked v (g :: groups) s = pre ++ (('(' :: (mid ++ [c])).map blank ++
      blanked (v ++ (pre ++ '(' :: (mid ++ [c]))) groups post) := by
  have hfound := h.found
  rw [Cursor.past_append] at hfound
  rw [blanked, blanked, Cursor.past_append]
  exact hfound.blankFrom_frame ht hg

/-- The first word stays where it is. -/
theorem head?_blanked {depth : Int} {n : Nat} (h : Layout v depth n s groups) {σ : Type}
    (τ : Tally σ) (k : σ) :
    (τ.run k (blanked v groups s)).1.head? = (τ.run k s).1.head? := by
  cases h with
  | nil v depth n hd => rw [blanked, blankFrom_nil]
  | plain hs hf h => rw [τ.run_of_splits hs, τ.run_of_splits (h.splits_blanked hs)]; rfl
  | @frame v s pre mid post c n f g groups ht hf hg h =>
    have hne : (τ.run k pre).1 ≠ [] := List.ne_nil_of_length_eq_add_one (ht.length_run_pre τ k)
    rw [h.blanked_frame ht hg, ht.run_blank τ k isSkipped_of_mem_map_blank (by simp), ht.run_eq τ,
      List.head?_append_of_ne_nil _ hne, List.head?_append_of_ne_nil _ hne]

end Layout

end QueryDoc.Lexis
