import Cookbook.Proofs.Value.Template

/-!
Interpolations have a normal form: one text, or segments that stay apart from each other and of which one
at least is no literal. What parts are put together to is in it, and nothing in it changes when it is put
together again.

* `Value.IsInterpolated` is the normal form, `Value.isInterpolated_interpolate` says that putting parts
  together reaches it, and `Value.interpolate_eq_self_iff` that it is what stays as it is;
* `Value.interpolate_eq_text_iff` says when one text is left;
* `interpolate_normal_form` is the result.
-/

namespace Cookbook

namespace Value

/-- What parts are put together to: one text, or segments none of which is nil, an empty text or a symbol,
no two literals among them next to each other, and one at least no literal. -/
inductive IsInterpolated : Value → Prop
  | text (t : Text) : IsInterpolated (ofText t)
  | segments {segments : List Value} (hapart : Apart segments)
      (hdynamic : ∃ v ∈ segments, v.scalar? = none) : IsInterpolated (.interpolation segments)

/-! ### Segments that are no literals -/

theorem mem_addSegment_of_mem {done : List Value} {w : Value} (hw : w ∈ done) (hdynamic : w.scalar? = none)
    (v : Value) : w ∈ addSegment done v := by
  have hliteral : ∀ s, w ∈ addLiteral done s := by
    intro s
    unfold addLiteral
    split
    · exact hw
    · exact List.mem_cons_of_mem _ hw
  unfold addSegment
  split
  · exact List.mem_cons_of_mem _ hw
  · exact hw
  · split
    · exact hliteral _
    · split
      · -- only a literal is taken in by the one that follows
        rename_i hlast
        rcases List.mem_cons.1 hw with rfl | hw
        · exact absurd (hdynamic.symm.trans hlast) (by simp)
        · exact List.mem_cons_of_mem _ hw
      · exact hliteral _

theorem mem_joinSegments_of_dynamic {parts : List Value} {v : Value} (hv : v ∈ parts.flatMap segments)
    (hdynamic : v.scalar? = none) : v ∈ joinSegments parts := by
  have hfold : ∀ (vs done : List Value), v ∈ done ∨ v ∈ vs → v ∈ vs.foldl addSegment done := by
    intro vs
    induction vs with
    | nil => exact fun done h => h.resolve_right List.not_mem_nil
    | cons w vs ih =>
      intro done h
      apply ih
      rcases h with h | h
      · exact .inl (mem_addSegment_of_mem h hdynamic w)
      · rcases List.mem_cons.1 h with rfl | h
        · left
          unfold addSegment
          rw [hdynamic]
          exact List.mem_cons_self
        · exact .inr h
  exact List.mem_reverse.2 (hfold _ [] (.inr hv))

/-- Joined segments without one that is no literal are none at all, or a single literal. -/
theorem Apart.eq_nil_or_literal {segments : List Value} (h : Apart segments)
    (hscalar : ∀ v ∈ segments, v.scalar? ≠ none) : segments = [] ∨ ∃ s, segments = [.literal s] := by
  rcases segments with - | ⟨v, - | ⟨w, rest⟩⟩
  · exact .inl rfl
  · rcases h.1 v List.mem_cons_self with hnone | ⟨s, rfl, -, -⟩
    · exact absurd hnone (hscalar v List.mem_cons_self)
    · exact .inr ⟨s, rfl⟩
  · rcases (List.isChain_cons_cons.1 h.2).1 with hnone | hnone
    · exact absurd hnone (hscalar v List.mem_cons_self)
    · exact absurd hnone (hscalar w (List.mem_cons_of_mem _ List.mem_cons_self))

/-! ### The normal form -/

/-- Joined segments with one that is no literal are the segments of the interpolation. -/
theorem ofJoined_of_dynamic {segments : List Value} (hdynamic : ∃ v ∈ segments, v.scalar? = none) :
    ofJoined segments = .interpolation segments := by
  obtain ⟨v, hv, hnone⟩ := hdynamic
  refine ofJoined_eq_iff.2 ⟨rfl, List.ne_nil_of_mem hv, fun w hw => ?_⟩
  rw [hw, List.mem_singleton] at hv
  rwa [← hv]

theorem ofJoined_of_scalars {segments : List Value} (hapart : Apart segments)
    (hscalar : ∀ v ∈ segments, v.scalar? ≠ none) : ∃ t, ofJoined segments = ofText t := by
  rcases hapart.eq_nil_or_literal hscalar with rfl | ⟨s, rfl⟩
  · exact ⟨[], rfl⟩
  · exact ⟨s.plain, rfl⟩

/-- Parts are put together to one text when they have nothing but literals and symbols, and to their
joined segments otherwise. -/
theorem interpolate_eq_text_iff (parts : List Value) :
    (∃ t, interpolate parts = ofText t) ↔ ∀ v ∈ parts.flatMap segments, v.scalar? ≠ none := by
  rw [interpolate_eq]
  constructor
  · rintro ⟨t, htext⟩ v hv hdynamic
    rw [ofJoined_of_dynamic ⟨v, mem_joinSegments_of_dynamic hv hdynamic, hdynamic⟩] at htext
    exact absurd htext (by simp [ofText])
  · intro hscalar
    refine ofJoined_of_scalars (apart_joinSegments parts) fun v hv => ?_
    rcases mem_joinSegments hv with hv | ⟨s, rfl⟩
    · exact hscalar v hv
    · simp [scalar?]

theorem isInterpolated_interpolate (parts : List Value) : (interpolate parts).IsInterpolated := by
  have hapart := apart_joinSegments parts
  rw [interpolate_eq]
  by_cases hdynamic : ∃ v ∈ joinSegments parts, v.scalar? = none
  · rw [ofJoined_of_dynamic hdynamic]
    exact .segments hapart hdynamic
  · push Not at hdynamic
    obtain ⟨t, htext⟩ := ofJoined_of_scalars hapart hdynamic
    rw [htext]
    exact .text t

theorem joinSegments_text (t : Text) : joinSegments [ofText t] = if t = [] then [] else [ofText t] := by
  show (addLiteral [] (.text t)).reverse = _
  unfold addLiteral
  simp only [Scalar.text.injEq]
  split <;> rfl

/-- Segments of an interpolation that stay apart are joined as they are, whatever is nested in them: only
the interpolation itself is opened. -/
theorem joinSegments_interpolation {segments : List Value} (hapart : Apart segments) :
    joinSegments [.interpolation segments] = segments := by
  have hfold := foldl_of_apart (apart_reverse.2 hapart)
  rw [List.reverse_reverse] at hfold
  show ((segments ++ []).foldl addSegment []).reverse = segments
  rw [List.append_nil, hfold, List.reverse_reverse]

/-- The normal form is what stays as it is when it is put together again. -/
theorem interpolate_eq_self_iff (v : Value) : interpolate [v] = v ↔ v.IsInterpolated := by
  constructor
  · intro hself
    rw [← hself]
    exact isInterpolated_interpolate [v]
  · rintro (t | ⟨hapart, hdynamic⟩)
    · rw [interpolate_eq, joinSegments_text]
      split
      · rename_i ht
        rw [ht]
        rfl
      · rfl
    · rw [interpolate_eq, joinSegments_interpolation hapart, ofJoined_of_dynamic hdynamic]

end Value

open Value in
/-- Putting parts together keeps what they say: the template is that of the parts one after another, and
the code kept as written and the attribute paths are theirs, in order. The result is one text, just when
the parts hold nothing but literals and symbols, or segments in normal form, and putting it together again
changes nothing. -/
theorem interpolate_normal_form (parts : List Value) :
    (interpolate parts).render = parts.flatMap render ∧
    (interpolate parts).verbatims = parts.flatMap verbatims ∧
    (interpolate parts).mentions = parts.flatMap mentions ∧
    (((∃ t, interpolate parts = ofText t) ∧ ∀ v ∈ parts.flatMap segments, v.scalar? ≠ none) ∨
      ∃ merged, interpolate parts = .interpolation merged ∧
        (∃ v ∈ merged, v.scalar? = none) ∧
        (merged.IsChain fun v w => v.scalar? = none ∨ w.scalar? = none) ∧
        ∀ v ∈ merged, v ≠ .literal .nil ∧ v ≠ ofText [] ∧ ∀ name, v ≠ .symbol name) ∧
    interpolate [interpolate parts] = interpolate parts := by
  have hnormal := isInterpolated_interpolate parts
  refine ⟨render_interpolate parts, verbatims_interpolate parts, mentions_interpolate parts, ?_,
    (interpolate_eq_self_iff _).2 hnormal⟩
  generalize hmade : interpolate parts = made at hnormal
  cases hnormal with
  | text t => exact .inl ⟨⟨t, rfl⟩, (interpolate_eq_text_iff parts).1 ⟨t, hmade⟩⟩
  | segments hapart hdynamic =>
    refine .inr ⟨_, rfl, hdynamic, hapart.2, fun v hv => ?_⟩
    rcases hapart.1 v hv with hnone | ⟨s, rfl, hnil, hempty⟩
    · refine ⟨?_, ?_, fun name => ?_⟩ <;>
      · rintro rfl
        exact absurd hnone (by simp [scalar?, ofText])
    · refine ⟨fun h => hnil (literal.inj h), fun h => hempty (literal.inj h), fun name h => ?_⟩
      exact absurd h (by simp)

/-- A text, a symbol, nil and a nested interpolation become one text before a path; the code after it
stays. -/
example : Value.interpolate [.ofText "a", .symbol "b", .nil,
      .interpolation [.literal (.bool true), .path .node ["port"], .ofText []], .verbatim "f()"] =
    .interpolation [.ofText "abtrue", .path .node ["port"], .verbatim "f()"] := by
  rfl

end Cookbook
