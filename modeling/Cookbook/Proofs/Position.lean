import Cookbook.Position
import Mathlib.Tactic.Common

/-!
Places in a text that is part of a longer one. Where the part starts a line of the longer text, each
of its places is found there too, as many units and lines further on as come before it; its column
and the indentation of its line are the same.

* `starts_append` says what lines the longer text has, `LineIndex.lineOf_eq_lineCount` on which line an
  offset stands;
* `position_append`, `span_append`, `indent_append` and `slice_append` move a place, a stretch, an
  indentation and a piece of the part into the longer text;
* `LineIndex.Embeds` says this of two line indexes.

The stretch between two offsets covers what lies between them, also where they go past the end of the
text: `LineIndex.sliceSpan_span`.
-/

namespace Cookbook

/-- The place `k` units and `l` lines further on. -/
def Position.shift (k l : Nat) (p : Position) : Position := ⟨p.line + l, p.column, p.offset + k⟩

def Span.shift (k l : Nat) (s : Span) : Span := ⟨s.start.shift k l, s.stop.shift k l⟩

def Text.lineCount (t : Text) : Nat := t.count ('\n' : CodeUnit)

/-- What comes after a text starts a line. -/
def Text.EndsLine (t : Text) : Prop := t = [] ∨ t.getLast? = some ('\n' : CodeUnit)

theorem Text.lineCount_append (s t : Text) : (s ++ t).lineCount = s.lineCount + t.lineCount :=
  List.count_append

theorem Text.drop_append_length (before t : Text) (i : Nat) :
    (before ++ t).drop (i + before.length) = t.drop i := by
  rw [List.drop_append]
  simp

/-! ### Line starts -/

theorem lineStartsFrom_append (offset : Nat) (s t : Text) :
    lineStartsFrom offset (s ++ t) = lineStartsFrom offset s ++ lineStartsFrom (offset + s.length) t := by
  induction s generalizing offset with
  | nil => rfl
  | cons c rest ih =>
    have hlen : offset + (c :: rest).length = offset + 1 + rest.length := by
      rw [List.length_cons]
      omega
    rw [List.cons_append, lineStartsFrom, lineStartsFrom, ih, hlen]
    split <;> rfl

theorem lineStartsFrom_add (offset k : Nat) (t : Text) :
    lineStartsFrom (offset + k) t = (lineStartsFrom offset t).map (· + k) := by
  induction t generalizing offset with
  | nil => rfl
  | cons c rest ih =>
    rw [lineStartsFrom, lineStartsFrom, Nat.add_right_comm, ih]
    split <;> rfl

theorem lineStartsFrom_between {offset : Nat} {t : Text} :
    ∀ s ∈ lineStartsFrom offset t, offset < s ∧ s ≤ offset + t.length := by
  induction t generalizing offset with
  | nil => exact fun s hs => absurd hs List.not_mem_nil
  | cons c rest ih =>
    intro s hs
    have hrest : s ∈ lineStartsFrom (offset + 1) rest → offset < s ∧ s ≤ offset + (c :: rest).length := by
      intro hs
      have := ih s hs
      rw [List.length_cons]
      omega
    rw [lineStartsFrom] at hs
    split at hs
    · rcases List.mem_cons.1 hs with rfl | hs
      · rw [List.length_cons]
        omega
      · exact hrest hs
    · exact hrest hs

theorem length_lineStartsFrom (offset : Nat) (t : Text) :
    (lineStartsFrom offset t).length = t.lineCount := by
  induction t generalizing offset with
  | nil => rfl
  | cons c rest ih =>
    unfold Text.lineCount at ih ⊢
    rw [lineStartsFrom, List.count_cons]
    split
    · rename_i h
      simp [ih, h]
    · rename_i h
      simp [ih, h]

namespace LineIndex

/-- The lines of a longer text: those before the part, those of the part, and those after it. -/
theorem starts_append {before : Text} (hbefore : before.EndsLine) (t after : Text) :
    ∃ earlier : List Nat,
      (ofText (before ++ t ++ after)).starts =
        earlier ++ (ofText t).starts.map (· + before.length) ++
          lineStartsFrom (before.length + t.length) after ∧
      earlier.length = before.lineCount := by
  have hpart : lineStartsFrom before.length t = (lineStartsFrom 0 t).map (· + before.length) := by
    rw [← lineStartsFrom_add, Nat.zero_add]
  rcases hbefore with rfl | hlast
  · refine ⟨[], ?_, rfl⟩
    simp [ofText, lineStartsFrom_append]
  · obtain ⟨lead, rfl⟩ := List.getLast?_eq_some_iff.1 hlast
    refine ⟨0 :: lineStartsFrom 0 lead, ?_, ?_⟩
    · simp only [ofText, lineStartsFrom_append, Nat.zero_add, hpart, List.map_cons]
      simp [lineStartsFrom, Nat.add_comm, Nat.add_left_comm]
    · rw [List.length_cons, length_lineStartsFrom]
      simp [Text.lineCount]

/-! ### The line of an offset -/

/-- Halving finds line `n` where the lines after the first that start at or before the offset are the ones
up to `n`. -/
theorem bisect_eq {starts : List Nat} {offset : Int} {n : Nat}
    (hstarts : ∀ i, 0 < i → i < starts.length → ((starts.getD i 0 : Int) ≤ offset ↔ i ≤ n))
    (rounds : Nat) {lo hi : Nat} (hlo : lo ≤ n) (hhi : n ≤ hi) (hlast : hi < starts.length)
    (hrounds : hi ≤ lo + rounds) : bisect starts offset rounds lo hi = n := by
  induction rounds generalizing lo hi with
  | zero =>
    unfold bisect
    omega
  | succ rounds ih =>
    unfold bisect
    split
    · rename_i hlt
      -- the middle line is not the first, and the answer stays between the bounds on either side
      have hmiddle := hstarts ((lo + hi + 1) / 2) (by omega) (by omega)
      dsimp only
      split
      · rename_i hle
        exact ih (hmiddle.1 hle) hhi hlast (by omega)
      · rename_i hgt
        have hn : n < (lo + hi + 1) / 2 := Nat.lt_of_not_le fun h => hgt (hmiddle.2 h)
        exact ih hlo (by omega) (by omega) (by omega)
    · omega

/-- The lines of a text are those up to an offset and those after it. -/
theorem starts_cut (t : Text) (c : Nat) :
    (ofText t).starts = (0 :: lineStartsFrom 0 (t.take c)) ++ lineStartsFrom (t.take c).length (t.drop c) := by
  show 0 :: lineStartsFrom 0 t = _
  conv_lhs => rw [← List.take_append_drop c t, lineStartsFrom_append, Nat.zero_add]
  rfl

/-- An offset stands on the line after as many as end before it. -/
theorem lineOf_eq_lineCount (t : Text) (c : Nat) : (ofText t).lineOf c = Text.lineCount (t.take c) := by
  have hcut := starts_cut t c
  have hupTo : (0 :: lineStartsFrom 0 (t.take c)).length = Text.lineCount (t.take c) + 1 := by
    rw [List.length_cons, length_lineStartsFrom]
  have hall : (ofText t).starts.length = Text.lineCount (t.take c) + 1 + Text.lineCount (t.drop c) := by
    rw [hcut, List.length_append, hupTo, length_lineStartsFrom]
  have htake : (t.take c).length = min c t.length := List.length_take
  have hdrop : (t.drop c).length = t.length - c := List.length_drop
  refine bisect_eq (fun i _ hi => ?_) _ (Nat.zero_le _) (by omega) (by omega) (by omega)
  rw [hcut, List.getD_eq_getElem?_getD]
  by_cases h : i < (0 :: lineStartsFrom 0 (t.take c)).length
  · rw [List.getElem?_append_left h, List.getElem?_eq_getElem h, Option.getD_some]
    have hle : (0 :: lineStartsFrom 0 (t.take c))[i] ≤ c := by
      rcases List.mem_cons.1 (List.getElem_mem h) with hfirst | hmem
      · omega
      · have := (lineStartsFrom_between _ hmem).2
        omega
    omega
  · have hrest : i - (0 :: lineStartsFrom 0 (t.take c)).length <
        (lineStartsFrom (t.take c).length (t.drop c)).length := by
      rw [length_lineStartsFrom]
      omega
    rw [List.getElem?_append_right (by omega), List.getElem?_eq_getElem hrest, Option.getD_some]
    have := lineStartsFrom_between _ (List.getElem_mem hrest)
    omega

theorem lineOf_lt (t : Text) (c : Nat) : (ofText t).lineOf c < (ofText t).starts.length := by
  rw [lineOf_eq_lineCount, starts_cut t c, List.length_append, List.length_cons, length_lineStartsFrom]
  omega

/-! ### Places -/

section Places

variable {before : Text} (hbefore : before.EndsLine) (t after : Text)

include hbefore

/-- The line of an offset of the part is as many lines further on as end before it. -/
theorem lineOf_append (offset : Nat) (h : offset ≤ t.length ∨ after = []) :
    (ofText (before ++ t ++ after)).lineOf ((offset + before.length : Nat) : Int) =
        (ofText t).lineOf offset + before.lineCount ∧
      (ofText (before ++ t ++ after)).starts.getD
          ((ofText (before ++ t ++ after)).lineOf ((offset + before.length : Nat) : Int)) 0 =
        (ofText t).starts.getD ((ofText t).lineOf offset) 0 + before.length := by
  obtain ⟨earlier, hstarts, hlen⟩ := starts_append hbefore t after
  have htake : (before ++ t ++ after).take (offset + before.length) = before ++ t.take offset := by
    rw [List.append_assoc, Nat.add_comm, List.take_length_add_append]
    rcases h with h | rfl
    · rw [List.take_append_of_le_length h]
    · rw [List.append_nil]
  have hline : (ofText (before ++ t ++ after)).lineOf ((offset + before.length : Nat) : Int) =
      (ofText t).lineOf offset + before.lineCount := by
    rw [lineOf_eq_lineCount, lineOf_eq_lineCount, htake, Text.lineCount_append, Nat.add_comm]
  refine ⟨hline, ?_⟩
  have hlt := lineOf_lt t offset
  rw [hline, hstarts, List.append_assoc, List.getD_eq_getElem?_getD, List.getD_eq_getElem?_getD,
    List.getElem?_append_right (by omega), hlen, Nat.add_sub_cancel,
    List.getElem?_append_left (by simpa using hlt), List.getElem?_map, List.getElem?_eq_getElem hlt]
  rfl

theorem position_append {offset : Nat} (h : offset ≤ t.length ∨ after = []) :
    (ofText (before ++ t ++ after)).position ((offset + before.length : Nat) : Int) =
      ((ofText t).position offset).shift before.length before.lineCount := by
  have hclamped : (min ((offset + before.length : Nat) : Int)
      ((before ++ t ++ after).length : Int)).toNat = min offset t.length + before.length := by
    rcases h with h | rfl
    · simp only [List.length_append]
      omega
    · simp only [List.append_nil, List.length_append]
      omega
  have hclamped' : (min (offset : Int) (t.length : Int)).toNat = min offset t.length := by omega
  obtain ⟨hline, hstart⟩ := lineOf_append hbefore t after (min offset t.length)
    (.inl (Nat.min_le_right _ _))
  unfold position
  show (⟨_, _, _⟩ : Position) = ⟨_, _, _⟩
  rw [show (ofText (before ++ t ++ after)).text = before ++ t ++ after from rfl,
    show (ofText t).text = t from rfl, hclamped, hclamped', hstart, hline, Nat.add_sub_add_right,
    Nat.add_right_comm]

theorem span_append {start stop : Nat} (h : (start ≤ t.length ∧ stop ≤ t.length) ∨ after = []) :
    (ofText (before ++ t ++ after)).span ((start + before.length : Nat) : Int)
        ((stop + before.length : Nat) : Int) =
      ((ofText t).span start stop).shift before.length before.lineCount := by
  unfold span
  rw [position_append hbefore t after (h.imp And.left id),
    position_append hbefore t after (h.imp And.right id)]
  rfl

theorem indent_append (offset : Nat) :
    (ofText (before ++ t)).indent ((offset + before.length : Nat) : Int) =
      (ofText t).indent offset := by
  obtain ⟨-, hstart⟩ := lineOf_append hbefore t [] offset (.inr rfl)
  rw [List.append_nil] at hstart
  unfold indent
  dsimp only
  rw [hstart, show (ofText (before ++ t)).text = before ++ t from rfl,
    show (ofText t).text = t from rfl, Text.drop_append_length]

end Places

end LineIndex

theorem Text.slice_append (before t after : Text) {i j : Nat} (h : j ≤ t.length ∨ after = []) :
    (before ++ t ++ after).slice (i + before.length) (j + before.length) = t.slice i j := by
  have hdrop : (before ++ t ++ after).drop (i + before.length) = (t ++ after).drop i := by
    rw [List.append_assoc, Text.drop_append_length]
  unfold Text.slice
  rw [hdrop, Nat.add_sub_add_right]
  rcases h with h | rfl
  · rw [List.drop_append, List.take_append]
    have hrest : j - i - (t.drop i).length = 0 := by
      rw [List.length_drop]
      omega
    rw [hrest, List.take_zero, List.append_nil]
  · rw [List.append_nil]

/-! ### What a stretch covers -/

def Text.sliceSpan (t : Text) (s : Span) : Text := t.slice s.start.offset s.stop.offset

/-- The offsets of a place are those of the text, cut at its end. -/
theorem LineIndex.offset_position (index : LineIndex) (offset : Nat) :
    (index.position offset).offset = min offset index.text.length := by
  show (min (offset : Int) index.text.length).toNat = _
  omega

theorem Text.slice_min (t : Text) (i j : Nat) :
    t.slice (min i t.length) (min j t.length) = t.slice i j := by
  unfold Text.slice
  rcases Nat.le_total i t.length with hi | hi
  · rw [Nat.min_eq_left hi]
    rcases Nat.le_total j t.length with hj | hj
    · rw [Nat.min_eq_left hj]
    · rw [Nat.min_eq_right hj, List.take_of_length_le (Nat.le_of_eq List.length_drop),
        List.take_of_length_le (by rw [List.length_drop]; omega)]
  · rw [Nat.min_eq_right hi, List.drop_eq_nil_of_le hi, List.drop_length, List.take_nil,
      List.take_nil]

theorem LineIndex.sliceSpan_span (index : LineIndex) (start stop : Nat) :
    index.text.sliceSpan (index.span start stop) = index.text.slice start stop := by
  unfold Text.sliceSpan LineIndex.span
  rw [offset_position, offset_position, Text.slice_min]

/-! ### One text in another -/

/-- The text of `part` stands in that of `whole`, after `before`, which ends a line, and before
`after`. -/
structure LineIndex.Embeds (whole part : LineIndex) (before after : Text) : Prop where
  endsLine : before.EndsLine
  part_eq : part = .ofText part.text
  whole_eq : whole = .ofText (before ++ part.text ++ after)

namespace LineIndex.Embeds

variable {whole part : LineIndex} {before after : Text} (h : whole.Embeds part before after)

include h

theorem span {start stop : Nat} (hstart : start ≤ part.text.length) (hstop : stop ≤ part.text.length) :
    whole.span ((start + before.length : Nat) : Int) ((stop + before.length : Nat) : Int) =
      (part.span start stop).shift before.length before.lineCount := by
  have hspan := span_append h.endsLine part.text after (.inl ⟨hstart, hstop⟩)
  rwa [← h.whole_eq, ← h.part_eq] at hspan

theorem slice (i : Nat) {j : Nat} (hj : j ≤ part.text.length) :
    whole.text.slice (i + before.length) (j + before.length) = part.text.slice i j := by
  have htext : whole.text = before ++ part.text ++ after := by
    rw [h.whole_eq]
    rfl
  rw [htext, Text.slice_append before part.text after (.inl hj)]

end LineIndex.Embeds

end Cookbook
