import Cookbook.Proofs.Number.Integers
import Cookbook.Value.Basic
import Mathlib.Data.List.Basic

/-!
Interpolations. Joining opens nested interpolations, passes over nil and empty texts, and makes one
text of neighbouring literals; it neither drops nor moves anything else, and what it makes is joined
already.

* `Value.parts_ind` is the induction on the parts of a value;
* `Value.collect_interpolate_of_plain` says that whatever is collected from the parts is found in the
  interpolation, in order, and `Value.collect_interpolate` is the case where literals have none of it;
* `Value.Apart` is what joined segments are, `Value.joinSegments_eq_self_iff` says that these are the
  ones that joining leaves as they are;
* `Value.Joined` says that all interpolations in a value are joined, `Value.joined_interpolate` that
  joining keeps this.
-/

namespace Cookbook

namespace Value

theorem parts_ind {motive : Value → Prop} (literal : ∀ s, motive (.literal s))
    (symbol : ∀ name, motive (.symbol name)) (path : ∀ scope keys, motive (.path scope keys))
    (interpolation : ∀ segments, (∀ v ∈ segments, motive v) → motive (.interpolation segments))
    (list : ∀ items, (∀ v ∈ items, motive v) → motive (.list items))
    (map : ∀ entries, (∀ e ∈ entries, motive e.value) → motive (.map entries))
    (verbatim : ∀ raw, motive (.verbatim raw)) (v : Value) : motive v :=
  @Value.rec motive (fun e => motive e.value) (fun items => ∀ v ∈ items, motive v)
    (fun entries => ∀ e ∈ entries, motive e.value) literal symbol path interpolation list map verbatim
    (fun _ _ h => h) (fun _ h => absurd h List.not_mem_nil)
    (fun _ _ h hs => List.forall_mem_cons.2 ⟨h, hs⟩) (fun _ h => absurd h List.not_mem_nil)
    (fun _ _ h hs => List.forall_mem_cons.2 ⟨h, hs⟩) v

/-! ### Joining -/

def joinSegments (parts : List Value) : List Value :=
  ((parts.flatMap segments).foldl addSegment []).reverse

def ofJoined : List Value → Value
  | [] => ofText []
  | [v] => match v.scalar? with
    | some s => ofText s.plain
    | none => .interpolation [v]
  | merged => .interpolation merged

theorem interpolate_eq (parts : List Value) : interpolate parts = ofJoined (joinSegments parts) := rfl

/-- An interpolation of parts is one text, or has the joined segments. -/
theorem interpolate_cases (parts : List Value) :
    (∃ t, interpolate parts = ofText t) ∨ interpolate parts = .interpolation (joinSegments parts) := by
  rw [interpolate_eq]
  rcases joinSegments parts with - | ⟨v, - | ⟨w, rest⟩⟩
  · exact .inl ⟨[], rfl⟩
  · cases hscalar : v.scalar? with
    | some s => exact .inl ⟨s.plain, by simp [ofJoined, hscalar]⟩
    | none => exact .inr (by simp [ofJoined, hscalar])
  · exact .inr rfl

/-- A segment that is added stands there as it is, is passed over, or becomes part of a literal. -/
theorem mem_addSegment {done : List Value} {v w : Value} (h : w ∈ addSegment done v) :
    w ∈ done ∨ w = v ∨ ∃ s, w = .literal s := by
  have hliteral : ∀ s, w ∈ addLiteral done s → w ∈ done ∨ ∃ s, w = .literal s := by
    intro s hw
    unfold addLiteral at hw
    split at hw
    · exact .inl hw
    · rcases List.mem_cons.1 hw with rfl | hw
      · exact .inr ⟨s, rfl⟩
      · exact .inl hw
  unfold addSegment at h
  split at h
  · rcases List.mem_cons.1 h with rfl | h
    · exact .inr (.inl rfl)
    · exact .inl h
  · exact .inl h
  · split at h
    · exact (hliteral _ h).imp_right .inr
    · split at h
      · rcases List.mem_cons.1 h with rfl | h
        · exact .inr (.inr ⟨_, rfl⟩)
        · exact .inl (List.mem_cons_of_mem _ h)
      · exact (hliteral _ h).imp_right .inr

theorem mem_joinSegments {parts : List Value} {w : Value} (h : w ∈ joinSegments parts) :
    w ∈ parts.flatMap segments ∨ ∃ s, w = .literal s := by
  have hfold : ∀ (vs done : List Value), w ∈ vs.foldl addSegment done →
      w ∈ done ∨ w ∈ vs ∨ ∃ s, w = .literal s := by
    intro vs
    induction vs with
    | nil => exact fun done hw => .inl hw
    | cons v vs ih =>
      intro done hw
      rcases ih _ hw with hw | hw | hw
      · rcases mem_addSegment hw with hw | rfl | hw
        · exact .inl hw
        · exact .inr (.inl List.mem_cons_self)
        · exact .inr (.inr hw)
      · exact .inr (.inl (List.mem_cons_of_mem _ hw))
      · exact .inr (.inr hw)
  exact (hfold _ [] (List.mem_reverse.1 h)).resolve_left List.not_mem_nil

/-! ### What is collected from parts -/

section Collect

variable {α : Type} {collect : Value → List α} {ofPlain : Text → List α}

theorem collect_addSegment (hscalar : ∀ v s, v.scalar? = some s → collect v = ofPlain s.plain)
    (hempty : ofPlain [] = []) (happend : ∀ t t', ofPlain (t ++ t') = ofPlain t ++ ofPlain t')
    (done : List Value) (v : Value) :
    (addSegment done v).reverse.flatMap collect = done.reverse.flatMap collect ++ collect v := by
  have hliteral : ∀ s, (addLiteral done s).reverse.flatMap collect =
      done.reverse.flatMap collect ++ ofPlain s.plain := by
    intro s
    unfold addLiteral
    split
    · rename_i hs
      rw [hs, show (Scalar.text []).plain = [] from rfl, hempty, List.append_nil]
    · simp [hscalar (.literal s) s rfl]
  unfold addSegment
  cases hv : v.scalar? with
  | none => simp
  | some s =>
    rw [hscalar v s hv]
    cases s with
    | nil => rw [show Scalar.nil.plain = [] from rfl, hempty, List.append_nil]
    | text _ | number _ | bool _ =>
      dsimp only
      split
      · exact hliteral _
      · split
        · rename_i l hlast
          simp only [List.reverse_cons, List.flatMap_append, List.flatMap_singleton, hscalar _ _ hlast,
            hscalar (ofText _) _ rfl, List.append_assoc]
          rw [← happend]
          rfl
        · exact hliteral _

theorem collect_joinSegments (hscalar : ∀ v s, v.scalar? = some s → collect v = ofPlain s.plain)
    (hempty : ofPlain [] = []) (happend : ∀ t t', ofPlain (t ++ t') = ofPlain t ++ ofPlain t')
    (hsegments : ∀ segments, collect (.interpolation segments) = segments.flatMap collect)
    (parts : List Value) : (joinSegments parts).flatMap collect = parts.flatMap collect := by
  have hfold : ∀ (vs done : List Value), (vs.foldl addSegment done).reverse.flatMap collect =
      done.reverse.flatMap collect ++ vs.flatMap collect := by
    intro vs
    induction vs with
    | nil => simp
    | cons v vs ih =>
      intro done
      rw [List.foldl_cons, ih, collect_addSegment hscalar hempty happend, List.flatMap_cons,
        List.append_assoc]
  have hopen : ∀ v : Value, v.segments.flatMap collect = collect v := by
    intro v
    cases v with
    | interpolation segments => exact (hsegments segments).symm
    | literal _ | symbol _ | path _ _ | list _ | map _ | verbatim _ => exact List.flatMap_singleton ..
  unfold joinSegments
  rw [hfold, List.flatMap_assoc]
  simp only [hopen]
  rfl

/-- Whatever is collected from values, from literals by their text and from an interpolation segment by
segment, is collected from the interpolation of some parts just as from the parts. -/
theorem collect_interpolate_of_plain
    (hscalar : ∀ v s, v.scalar? = some s → collect v = ofPlain s.plain)
    (hempty : ofPlain [] = []) (happend : ∀ t t', ofPlain (t ++ t') = ofPlain t ++ ofPlain t')
    (hsegments : ∀ segments, collect (.interpolation segments) = segments.flatMap collect)
    (parts : List Value) : collect (interpolate parts) = parts.flatMap collect := by
  rw [← collect_joinSegments hscalar hempty happend hsegments, interpolate_eq]
  rcases joinSegments parts with - | ⟨v, - | ⟨w, rest⟩⟩
  · rw [ofJoined, hscalar (ofText []) _ rfl]
    exact hempty
  · cases hv : v.scalar? with
    | some s =>
      simp only [ofJoined, hv, List.flatMap_singleton, hscalar v s hv, hscalar (ofText _) _ rfl]
      rfl
    | none => simp [ofJoined, hv, hsegments]
  · exact hsegments _

/-- What literals have nothing of is collected from the interpolation of some parts just as from the
parts. -/
theorem collect_interpolate (hscalar : ∀ v s, v.scalar? = some s → collect v = [])
    (hsegments : ∀ segments, collect (.interpolation segments) = segments.flatMap collect)
    (parts : List Value) : collect (interpolate parts) = parts.flatMap collect :=
  @collect_interpolate_of_plain α collect (fun _ => []) hscalar rfl (fun _ _ => rfl) hsegments parts

end Collect

/-! ### Joined segments -/

/-- A segment that joining keeps: no nil, no empty text and no symbol. -/
def Stays (v : Value) : Prop := v.scalar? = none ∨ ∃ s, v = .literal s ∧ s ≠ .nil ∧ s ≠ .text []

/-- Segments that joining leaves as they are: each stays, and no two literals are neighbours. -/
def Apart (segments : List Value) : Prop :=
  (∀ v ∈ segments, v.Stays) ∧ segments.IsChain fun v w => v.scalar? = none ∨ w.scalar? = none

end Value

theorem Number.text_ne_nil (n : Number) : n.text ≠ [] := by
  have hdecimal : ∀ d : Number.Decimal, d.text ≠ [] := by
    intro d
    unfold Number.Decimal.text
    dsimp only
    split
    · exact List.append_ne_nil_of_left_ne_nil (Text.ofNat_ne_nil _) _
    · split
      · exact List.append_ne_nil_of_left_ne_nil (List.append_ne_nil_of_right_ne_nil _ (by decide)) _
      · split
        · exact List.append_ne_nil_of_left_ne_nil (List.append_ne_nil_of_left_ne_nil (by decide) _) _
        · exact List.append_ne_nil_of_right_ne_nil _ (Text.ofNat_ne_nil _)
  unfold Number.text
  split
  · decide
  · split
    · exact List.append_ne_nil_of_left_ne_nil (by decide) _
    · exact hdecimal _

theorem Scalar.plain_ne_nil {s : Scalar} (hnil : s ≠ .nil) (hempty : s ≠ .text []) : s.plain ≠ [] := by
  cases s with
  | text t =>
    intro h
    exact hempty (congrArg Scalar.text h)
  | number n => exact n.text_ne_nil
  | bool b => cases b <;> decide
  | nil => exact absurd rfl hnil

namespace Value

/-- A segment after joined ones leaves them joined. -/
theorem Apart.addSegment {done : List Value} (h : Apart done) (v : Value) :
    Apart (Value.addSegment done v) := by
  have hliteral : ∀ s : Scalar, s ≠ .nil → (∀ last ∈ done.head?, last.scalar? = none) →
      Apart (addLiteral done s) := by
    intro s hnil hlast
    unfold addLiteral
    split
    · exact h
    · rename_i hempty
      refine ⟨List.forall_mem_cons.2 ⟨.inr ⟨s, rfl, hnil, hempty⟩, h.1⟩, ?_⟩
      exact List.isChain_cons.2 ⟨fun last hmem => .inr (hlast last hmem), h.2⟩
  unfold Value.addSegment
  split
  · rename_i hscalar
    exact ⟨List.forall_mem_cons.2 ⟨.inl hscalar, h.1⟩, List.isChain_cons.2 ⟨fun _ _ => .inl hscalar, h.2⟩⟩
  · exact h
  · rename_i s hne _
    split
    · exact hliteral s hne (by simp)
    · rename_i last before
      split
      · -- the literal joins the one before it, which is not empty
        rename_i l hlast
        obtain ⟨hstays, hbefore⟩ := List.forall_mem_cons.1 h.1
        obtain ⟨hneighbour, hchain⟩ := List.isChain_cons.1 h.2
        have hplain : l.plain ≠ [] := by
          rcases hstays with hnone | ⟨s', rfl, hnil', hempty'⟩
          · exact absurd (hnone.symm.trans hlast) (by simp)
          · obtain rfl : s' = l := Option.some.inj hlast
            exact Scalar.plain_ne_nil hnil' hempty'
        have htext : Stays (ofText (l.plain ++ s.plain)) := by
          refine .inr ⟨_, rfl, by simp, ?_⟩
          intro heq
          exact List.append_ne_nil_of_left_ne_nil hplain _ (Scalar.text.inj heq)
        refine ⟨List.forall_mem_cons.2 ⟨htext, hbefore⟩, List.isChain_cons.2 ⟨?_, hchain⟩⟩
        intro w hw
        rcases hneighbour w hw with hnone | hnone
        · exact absurd (hnone.symm.trans hlast) (by simp)
        · exact .inr hnone
      · rename_i hlast
        exact hliteral s hne (by simpa using hlast)

theorem apart_foldl (vs : List Value) {done : List Value} (h : Apart done) :
    Apart (vs.foldl Value.addSegment done) := by
  induction vs generalizing done with
  | nil => exact h
  | cons v vs ih => exact ih (h.addSegment v)

/-- A segment that stays apart from those before it is added as it is. -/
theorem addSegment_of_apart {done : List Value} {v : Value} (h : Apart (v :: done)) :
    Value.addSegment done v = v :: done := by
  obtain ⟨hstays, -⟩ := List.forall_mem_cons.1 h.1
  obtain ⟨hneighbour, -⟩ := List.isChain_cons.1 h.2
  rcases hstays with hnone | ⟨s, rfl, hnil, hempty⟩
  · unfold Value.addSegment
    rw [hnone]
  · have hliteral : addLiteral done s = .literal s :: done := if_neg hempty
    unfold Value.addSegment
    rw [show (Value.literal s).scalar? = some s from rfl]
    cases s with
    | nil => exact absurd rfl hnil
    | text _ | number _ | bool _ =>
      cases done with
      | nil => exact hliteral
      | cons last before =>
        have hlast : last.scalar? = none := (hneighbour last rfl).resolve_left (by simp [scalar?])
        simp only [hlast, hliteral]

theorem foldl_of_apart {done : List Value} (h : Apart done) :
    done.reverse.foldl Value.addSegment [] = done := by
  induction done with
  | nil => rfl
  | cons v done ih =>
    have hdone : Apart done := ⟨(List.forall_mem_cons.1 h.1).2, (List.isChain_cons.1 h.2).2⟩
    rw [List.reverse_cons, List.foldl_append, ih hdone]
    exact addSegment_of_apart h

theorem apart_reverse {segments : List Value} : Apart segments.reverse ↔ Apart segments := by
  unfold Apart
  rw [List.isChain_reverse]
  simp only [List.mem_reverse, or_comm]

/-- Segments without an interpolation among them are joined exactly when joining changes nothing. -/
theorem joinSegments_eq_self_iff {segments : List Value} (hflat : ∀ v ∈ segments, v.segments = [v]) :
    joinSegments segments = segments ↔ Apart segments := by
  have hopen : segments.flatMap Value.segments = segments := by
    rw [List.flatMap_congr hflat]
    exact List.flatMap_singleton' _
  unfold joinSegments
  rw [hopen]
  constructor
  · intro hsame
    rw [← hsame, apart_reverse]
    exact apart_foldl _ ⟨by simp, List.isChain_nil⟩
  · intro hapart
    have hfold := foldl_of_apart (apart_reverse.2 hapart)
    rw [List.reverse_reverse] at hfold
    rw [hfold, List.reverse_reverse]

theorem apart_joinSegments (parts : List Value) : Apart (joinSegments parts) :=
  apart_reverse.2 (apart_foldl _ ⟨by simp, List.isChain_nil⟩)

/-- Joined segments make an interpolation, unless there are none or there is one literal only. -/
theorem ofJoined_eq_iff {merged segments : List Value} :
    ofJoined merged = .interpolation segments ↔
      merged = segments ∧ segments ≠ [] ∧ ∀ v, segments = [v] → v.scalar? = none := by
  constructor
  · intro heq
    rcases merged with - | ⟨v, - | ⟨w, rest⟩⟩
    · exact absurd heq (by simp [ofJoined, ofText])
    · cases hscalar : v.scalar? with
      | some s => exact absurd heq (by simp [ofJoined, hscalar, ofText])
      | none =>
        obtain rfl : [v] = segments := by simpa [ofJoined, hscalar] using heq
        refine ⟨rfl, List.cons_ne_nil _ _, ?_⟩
        rintro v' hv'
        rw [← List.singleton_inj.1 hv']
        exact hscalar
    · obtain rfl : v :: w :: rest = segments := interpolation.inj heq
      exact ⟨rfl, List.cons_ne_nil _ _, fun v' hv' => absurd hv' (by simp)⟩
  · rintro ⟨rfl, hne, hone⟩
    rcases merged with - | ⟨v, - | ⟨w, rest⟩⟩
    · exact absurd rfl hne
    · simp [ofJoined, hone v rfl]
    · rfl

/-! ### Joined values -/

mutual

/-- All interpolations in the value are joined, and none stands in another. -/
def Joined : Value → Prop
  | .interpolation segments =>
    interpolate segments = .interpolation segments ∧ (∀ v ∈ segments, v.segments = [v]) ∧
      allJoined segments
  | .list items => allJoined items
  | .map entries => entriesJoined entries
  | _ => True

def allJoined : List Value → Prop
  | [] => True
  | v :: rest => v.Joined ∧ allJoined rest

def entriesJoined : List Entry → Prop
  | [] => True
  | ⟨_, v⟩ :: rest => v.Joined ∧ entriesJoined rest

end

theorem allJoined_iff (values : List Value) : allJoined values ↔ ∀ v ∈ values, v.Joined := by
  induction values with
  | nil => simp [allJoined]
  | cons v rest ih => simp [allJoined, ih]

theorem entriesJoined_iff (entries : List Entry) :
    entriesJoined entries ↔ ∀ e ∈ entries, e.value.Joined := by
  induction entries with
  | nil => simp [entriesJoined]
  | cons e rest ih =>
    obtain ⟨key, v⟩ := e
    simp [entriesJoined, ih]

/-- What opens a joined part is joined and has nothing to open. -/
theorem Joined.of_mem_segments {v w : Value} (h : v.Joined) (hw : w ∈ v.segments) :
    w.Joined ∧ w.segments = [w] := by
  cases v with
  | interpolation segments =>
    obtain ⟨-, hflat, hsegments⟩ := h
    exact ⟨(allJoined_iff _).1 hsegments w hw, hflat w hw⟩
  | literal _ | symbol _ | path _ _ | list _ | map _ | verbatim _ =>
    obtain rfl := List.mem_singleton.1 hw
    exact ⟨h, rfl⟩

theorem joined_interpolate {parts : List Value} (h : ∀ v ∈ parts, v.Joined) :
    (interpolate parts).Joined := by
  have hsegments : ∀ w ∈ joinSegments parts, w.Joined ∧ w.segments = [w] := by
    intro w hw
    rcases mem_joinSegments hw with hw | ⟨s, rfl⟩
    · obtain ⟨v, hv, hw⟩ := List.mem_flatMap.1 hw
      exact (h v hv).of_mem_segments hw
    · exact ⟨trivial, rfl⟩
  have hagain : interpolate (joinSegments parts) = interpolate parts := by
    have hsame := (joinSegments_eq_self_iff fun w hw => (hsegments w hw).2).2 (apart_joinSegments parts)
    rw [interpolate_eq, interpolate_eq, hsame]
  rcases interpolate_cases parts with ⟨t, ht⟩ | hjoined
  · rw [ht]
    trivial
  · rw [hjoined]
    exact ⟨hagain.trans hjoined, fun w hw => (hsegments w hw).2,
      (allJoined_iff _).2 fun w hw => (hsegments w hw).1⟩

end Value

end Cookbook
