import Cookbook.Proofs.Position
import Mathlib.Data.List.Induction

/-!
The place of an offset is exact. Its line counts the newlines before the offset and its column what
stands between the offset and the start of that line, so the offset is found again from line and column,
and places are ordered as their offsets are.

* `Text.StartsLine` says where the line of an offset starts, `Position.Before` is the order of places;
* `LineIndex.Locates` says that a place is the one of an offset, `LineIndex.locates_position` that
  `position` gives it, and `LineIndex.Locates.before_iff` compares two of them;
* `position_exact` is the result.
-/

namespace Cookbook

/-- The offset itself within the text, and the nearer end of the text for an offset outside it. -/
def Text.clamp (t : Text) (offset : Int) : Nat := (max 0 (min offset t.length)).toNat

theorem Text.clamp_le (t : Text) (offset : Int) : t.clamp offset ≤ t.length := by
  unfold clamp
  omega

theorem Text.clamp_mono (t : Text) {start stop : Int} (h : start ≤ stop) : t.clamp start ≤ t.clamp stop := by
  unfold clamp
  omega

/-! ### The start of a line -/

/-- The line of offset `c` starts at `start`: a newline or nothing at all comes before it, and there is no
newline from there up to `c`. -/
structure Text.StartsLine (t : Text) (c start : Nat) : Prop where
  le : start ≤ c
  endsLine : Text.EndsLine (t.take start)
  noNewline : ('\n' : CodeUnit) ∉ t.slice start c

/-- A text is some whole lines and a last one without a newline. -/
theorem Text.exists_lastLine (t : Text) :
    ∃ before line : Text, t = before ++ line ∧ before.EndsLine ∧ ('\n' : CodeUnit) ∉ line := by
  induction t using List.reverseRecOn with
  | nil => exact ⟨[], [], rfl, .inl rfl, List.not_mem_nil⟩
  | append_singleton t c ih =>
    by_cases hc : c = ('\n' : CodeUnit)
    · refine ⟨t ++ [c], [], (List.append_nil _).symm, .inr ?_, List.not_mem_nil⟩
      rw [List.getLast?_concat, hc]
    · obtain ⟨before, line, rfl, hbefore, hline⟩ := ih
      refine ⟨before, line ++ [c], List.append_assoc .., hbefore, ?_⟩
      rw [List.mem_append, List.mem_singleton]
      rintro (h | h)
      · exact hline h
      · exact hc h.symm

namespace LineIndex

/-- The line of an offset starts where the text before the offset has its last line. -/
theorem exists_start (t : Text) {c : Nat} (hc : c ≤ t.length) :
    ∃ start, (ofText t).starts[Text.lineCount (t.take c)]? = some start ∧ t.StartsLine c start := by
  obtain ⟨before, line, htake, hbefore, hline⟩ := Text.exists_lastLine (t.take c)
  have ht : t = before ++ line ++ t.drop c := by rw [← htake, List.take_append_drop]
  have hlength : before.length + line.length = c := by
    rw [← List.length_append, ← htake, List.length_take_of_le hc]
  have hcount : Text.lineCount (t.take c) = before.lineCount := by
    rw [htake]
    unfold Text.lineCount
    rw [List.count_append, List.count_eq_zero_of_not_mem hline, Nat.add_zero]
  refine ⟨before.length, ?_, by omega, ?_, ?_⟩
  · obtain ⟨earlier, hstarts, hearlier⟩ := starts_append hbefore (line ++ t.drop c) []
    rw [List.append_nil, ← List.append_assoc, ← ht] at hstarts
    rw [hcount, hstarts, ← hearlier, List.append_assoc, List.getElem?_append_right (Nat.le_refl _), Nat.sub_self]
    simp [ofText]
  · rwa [ht, List.append_assoc, List.take_left]
  · rw [ht, Text.slice, List.append_assoc, List.drop_left, ← hlength, Nat.add_sub_cancel_left,
      List.take_left]
    exact hline

end LineIndex

/-! ### Places in order -/

/-- A place comes before another: on an earlier line, or further left on the same line. -/
def Position.Before (p q : Position) : Prop :=
  p.line < q.line ∨ (p.line = q.line ∧ p.column < q.column)

instance : DecidableRel Position.Before := fun p q =>
  inferInstanceAs (Decidable (p.line < q.line ∨ (p.line = q.line ∧ p.column < q.column)))

namespace LineIndex

/-- The place of offset `c`: the newlines before it give the line, and the start of that line the
column. -/
structure Locates (index : LineIndex) (c : Nat) (p : Position) : Prop where
  offset : p.offset = c
  line : p.line = 1 + Text.lineCount (index.text.take c)
  column : ∃ start, index.starts[p.line - 1]? = some start ∧ index.text.StartsLine c start ∧
    p.column = c - start + 1

theorem locates_position (t : Text) (offset : Int) :
    (ofText t).Locates (t.clamp offset) ((ofText t).position offset) := by
  have hclamp : (min offset ((ofText t).text.length : Int)).toNat = t.clamp offset := by
    show (min offset (t.length : Int)).toNat = _
    unfold Text.clamp
    omega
  obtain ⟨start, hstart, hline⟩ := exists_start t (t.clamp_le offset)
  have hposition : (ofText t).position offset =
      ⟨Text.lineCount (t.take (t.clamp offset)) + 1, t.clamp offset - start + 1, t.clamp offset⟩ := by
    unfold position
    simp only [hclamp, lineOf_eq_lineCount t (t.clamp offset), List.getD_eq_getElem?_getD, hstart,
      Option.getD_some]
  rw [hposition]
  exact ⟨rfl, Nat.add_comm _ _, start, hstart, hline, rfl⟩

namespace Locates

variable {index : LineIndex} {c c' : Nat} {p p' : Position}

/-- The offset is found again from the line and the column. -/
theorem start_add_column (h : index.Locates c p) :
    ∃ start, index.starts[p.line - 1]? = some start ∧ start + p.column - 1 = c := by
  obtain ⟨start, hstart, hline, hcolumn⟩ := h.column
  have := hline.le
  exact ⟨start, hstart, by omega⟩

theorem before (h : index.Locates c p) (h' : index.Locates c' p') (hlt : c < c') : p.Before p' := by
  have hcount : Text.lineCount (index.text.take c) ≤ Text.lineCount (index.text.take c') := by
    unfold Text.lineCount
    exact (List.take_sublist_take_left (Nat.le_of_lt hlt)).count_le _
  have hline := h.line
  have hline' := h'.line
  rcases Nat.lt_or_eq_of_le hcount with hless | hsame
  · left
    omega
  · -- on one line the start is the same, and the columns differ as the offsets do
    obtain ⟨start, hstart, hat⟩ := h.start_add_column
    obtain ⟨start', hstart', hat'⟩ := h'.start_add_column
    have hlines : p.line = p'.line := by omega
    rw [hlines, hstart', Option.some.injEq] at hstart
    right
    exact ⟨hlines, by omega⟩

theorem eq (h : index.Locates c p) (h' : index.Locates c p') : p = p' := by
  obtain ⟨line, column, offset⟩ := p
  obtain ⟨line', column', offset'⟩ := p'
  obtain ⟨start, hstart, hline, hcolumn⟩ := h.column
  obtain ⟨start', hstart', hline', hcolumn'⟩ := h'.column
  obtain rfl : line = line' := h.line.trans h'.line.symm
  obtain rfl : offset = offset' := h.offset.trans h'.offset.symm
  obtain rfl : start = start' := Option.some.inj (hstart.symm.trans hstart')
  obtain rfl : column = column' := hcolumn.trans hcolumn'.symm
  rfl

theorem before_iff (h : index.Locates c p) (h' : index.Locates c' p') : p.Before p' ↔ c < c' := by
  refine ⟨fun hbefore => ?_, h.before h'⟩
  by_contra hle
  rcases Nat.lt_or_eq_of_le (Nat.le_of_not_lt hle) with hlt | rfl
  · have hback := h'.before h hlt
    unfold Position.Before at hback hbefore
    omega
  · obtain rfl := h.eq h'
    unfold Position.Before at hbefore
    omega

end Locates

end LineIndex

/-- The place of an offset, which counts as the nearer end of the text when it lies outside, is exact: its
line is one more than the newlines before, its column counts from the start of that line, and the two
give the offset back. Places come one before the other just when their offsets do, and a stretch whose
offsets are in order starts where it stops or before. -/
theorem position_exact (text : Text) :
    let index := LineIndex.ofText text
    (∀ offset : Int,
      let c := text.clamp offset
      let p := index.position offset
      p.offset = c ∧ p.line = 1 + (text.take c).count ('\n' : CodeUnit) ∧
        ∃ start, index.starts[p.line - 1]? = some start ∧ text.StartsLine c start ∧
          p.column = c - start + 1 ∧ start + p.column - 1 = c) ∧
    (∀ offset offset' : Int,
      (index.position offset).Before (index.position offset') ↔ text.clamp offset < text.clamp offset') ∧
    ∀ start stop : Int, start ≤ stop →
      (index.span start stop).start = (index.span start stop).stop ∨
        (index.span start stop).start.Before (index.span start stop).stop := by
  intro index
  have hplace : ∀ offset : Int, index.Locates (text.clamp offset) (index.position offset) :=
    LineIndex.locates_position text
  refine ⟨fun offset => ?_, fun offset offset' => (hplace offset).before_iff (hplace offset'), ?_⟩
  · obtain ⟨start, hstart, hline, hcolumn⟩ := (hplace offset).column
    have := hline.le
    exact ⟨(hplace offset).offset, (hplace offset).line, start, hstart, hline, hcolumn, by omega⟩
  · intro start stop hle
    rcases Nat.lt_or_eq_of_le (text.clamp_mono hle) with hlt | hsame
    · exact .inr ((hplace start).before (hplace stop) hlt)
    · exact .inl ((hplace start).eq (hsame ▸ hplace stop))

/-- In a text of three lines the stretch from before its start to past its end goes from the first place
of the first line to the end of the last one. -/
theorem position_exact_past_both_ends :
    let index := LineIndex.ofText "a\n\nbc"
    (-3 : Int) ≤ 9 ∧ index.span (-3) 9 = ⟨⟨1, 1, 0⟩, ⟨3, 3, 5⟩⟩ ∧
      (index.span (-3) 9).start.Before (index.span (-3) 9).stop := by
  intro index
  refine ⟨by decide, by decide, ?_⟩
  exact ((position_exact "a\n\nbc").2.2 (-3) 9 (by decide)).resolve_left (by decide)

end Cookbook
