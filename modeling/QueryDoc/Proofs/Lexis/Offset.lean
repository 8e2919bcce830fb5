import QueryDoc.Document.VariableGroup
import QueryDoc.Grammar.Literal

/-!
# Offsets

Offsets count bytes. A cursor has passed as many bytes as the text in front of it has, and the part
of a text between two offsets is what stands between them (`slice_append`).
-/
namespace QueryDoc.Lexis

open QueryDoc.Grammar (byteLength)

@[simp] theorem byteLength_append (s t : List Char) :
    byteLength (s ++ t) = byteLength s + byteLength t := by
  induction s with
  | nil => simp [byteLength]
  | cons c s ih => simp [byteLength, ih, Nat.add_assoc]

theorem byteLength_pos {s : List Char} (h : s ≠ []) : 0 < byteLength s := by
  cases s with
  | nil => exact absurd rfl h
  | cons c s =>
    have := c.utf8Size_pos
    rw [byteLength]
    omega

theorem Cursor.offset_advance (k : Cursor) (c : Char) :
    (k.advance c).place.offset = k.place.offset + c.utf8Size := by
  unfold advance
  repeat' split
  all_goals rfl

@[simp] theorem Cursor.offset_past (k : Cursor) (s : List Char) :
    (k.past s).place.offset = k.place.offset + byteLength s := by
  induction s generalizing k with
  | nil => simp [byteLength]
  | cons c s ih => rw [past_cons, ih, offset_advance, byteLength, Nat.add_assoc]

theorem withOffsets_append (offset : Nat) (s t : List Char) : withOffsets offset (s ++ t) =
    withOffsets offset s ++ withOffsets (offset + byteLength s) t := by
  induction s generalizing offset with
  | nil => rfl
  | cons c s ih => simp [withOffsets, byteLength, ih, Nat.add_assoc]

theorem map_snd_withOffsets (offset : Nat) (s : List Char) :
    (withOffsets offset s).map Prod.snd = s := by
  induction s generalizing offset with
  | nil => rfl
  | cons c s ih => simp [withOffsets, ih]

theorem bounds_of_mem_withOffsets {offset : Nat} {s : List Char} {x : Nat × Char}
    (h : x ∈ withOffsets offset s) : offset ≤ x.1 ∧ x.1 < offset + byteLength s := by
  induction s generalizing offset with
  | nil => cases h
  | cons c s ih =>
    have hpos := c.utf8Size_pos
    rw [byteLength]
    rcases List.mem_cons.mp h with rfl | h
    · exact ⟨Nat.le_refl _, by dsimp only; omega⟩
    · have := ih h
      omega

/-- The part between two offsets is what stands there. -/
theorem slice_append (pre mid post : List Char) :
    slice (byteLength pre) (byteLength (pre ++ mid)) (pre ++ (mid ++ post)) = mid := by
  have hpre : (withOffsets 0 pre).filter
      (fun x => byteLength pre ≤ x.1 && x.1 < byteLength (pre ++ mid)) = [] := by
    refine List.filter_eq_nil_iff.mpr fun x hx => ?_
    have := bounds_of_mem_withOffsets hx
    simp
    omega
  have hmid : (withOffsets (0 + byteLength pre) mid).filter
      (fun x => byteLength pre ≤ x.1 && x.1 < byteLength (pre ++ mid)) =
        withOffsets (0 + byteLength pre) mid := by
    refine List.filter_eq_self.mpr fun x hx => ?_
    have := bounds_of_mem_withOffsets hx
    simp
    omega
  have hpost : (withOffsets (0 + byteLength pre + byteLength mid) post).filter
      (fun x => byteLength pre ≤ x.1 && x.1 < byteLength (pre ++ mid)) = [] := by
    refine List.filter_eq_nil_iff.mpr fun x hx => ?_
    have := bounds_of_mem_withOffsets hx
    simp
    omega
  unfold slice
  rw [withOffsets_append, withOffsets_append, List.filter_append, List.filter_append, hpre, hmid,
    hpost, List.nil_append, List.append_nil, map_snd_withOffsets]

end QueryDoc.Lexis
