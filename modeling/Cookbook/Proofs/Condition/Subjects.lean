import Cookbook.Proofs.Condition.Recognition
import Cookbook.Proofs.Value.Template

/-!
The subject of a recognized command. The dynamic parts of a command stand in its text as marks; what
is cut off around the subject has no mark, so the subject has all dynamic parts of the command, and
its template is a stretch of the command's.

* `Value.dynamicParts` are the dynamic parts of a value; joining keeps them
  (`Value.dynamicParts_interpolate`);
* `MarkedCommand.spread` is the text of some segments with marks, `MarkedCommand.cut_before` and
  `MarkedCommand.cut_after` cut it at both ends, and `MarkedCommand.reads_spread` reads it back;
* `matchCommand?_keeps_dynamicParts` is the result.
-/

namespace Cookbook

namespace Value

/-! ### Dynamic parts -/

def isDynamic (v : Value) : Bool := v.scalar?.isNone

/-- The segments of a value that are no literals, in order. -/
def dynamicParts (v : Value) : List Value := v.segments.filter isDynamic

theorem flatMap_filter (values : List Value) :
    (values.flatMap fun v => [v].filter isDynamic) = values.filter isDynamic := by
  induction values with
  | nil => rfl
  | cons v rest ih =>
    rw [List.flatMap_cons, ih, ← List.filter_append]
    rfl

theorem filter_of_scalar? {v : Value} {s : Scalar} (h : v.scalar? = some s) : [v].filter isDynamic = [] := by
  simp [isDynamic, h]

theorem filter_joinSegments {parts : List Value} (hflat : ∀ v ∈ parts, v.segments = [v]) :
    (joinSegments parts).filter isDynamic = parts.filter isDynamic := by
  have hfold : ∀ (vs done : List Value), (vs.foldl addSegment done).reverse.filter isDynamic =
      done.reverse.filter isDynamic ++ vs.filter isDynamic := by
    intro vs
    induction vs with
    | nil => simp
    | cons v vs ih =>
      intro done
      have hadd := @collect_addSegment Value (fun v => [v].filter isDynamic) (fun _ => [])
        (fun _ _ => filter_of_scalar?) rfl (fun _ _ => rfl) done v
      rw [flatMap_filter, flatMap_filter] at hadd
      rw [List.foldl_cons, ih, hadd, List.append_assoc, ← List.filter_append]
      rfl
  have hopen : parts.flatMap segments = parts := by
    rw [List.flatMap_congr hflat]
    exact List.flatMap_singleton' _
  unfold joinSegments
  rw [hfold, hopen]
  rfl

/-- The interpolation of parts that need no opening has their dynamic parts, in order. -/
theorem dynamicParts_interpolate {parts : List Value} (hflat : ∀ v ∈ parts, v.segments = [v]) :
    (interpolate parts).dynamicParts = parts.filter isDynamic := by
  rw [← filter_joinSegments hflat, interpolate_eq]
  rcases joinSegments parts with - | ⟨v, - | ⟨w, rest⟩⟩
  · rfl
  · cases hv : v.scalar? with
    | some s =>
      have hjoined : ofJoined [v] = ofText s.plain := by simp [ofJoined, hv]
      rw [hjoined, filter_of_scalar? hv]
      rfl
    | none => simp [ofJoined, hv, dynamicParts, segments]
  · rfl

theorem flat_of_normal {segments : List Value} (h : interpolate segments = .interpolation segments) :
    ∀ v ∈ segments, v.segments = [v] := by
  have hjoined : joinSegments segments = segments := (ofJoined_eq_iff.1 h).1
  -- a segment that is one is a segment of a greater one, and so on without end
  have hgreater : ∀ inner, .interpolation inner ∈ segments →
      ∃ outer, .interpolation outer ∈ segments ∧ sizeOf inner < sizeOf outer := by
    intro inner hmem
    rw [← hjoined] at hmem
    rcases mem_joinSegments hmem with hmem | ⟨s, hs⟩
    · obtain ⟨v, hv, hmem⟩ := List.mem_flatMap.1 hmem
      cases v with
      | interpolation outer =>
        refine ⟨outer, hv, ?_⟩
        have hsize := List.sizeOf_lt_of_mem (show Value.interpolation inner ∈ outer from hmem)
        simp only [interpolation.sizeOf_spec] at hsize
        omega
      | literal _ | symbol _ | path _ _ | list _ | map _ | verbatim _ =>
        exact absurd (List.mem_singleton.1 hmem) (by simp)
    · exact absurd hs (by simp)
  intro v hv
  cases v with
  | interpolation inner =>
    have hendless : ∀ n, ∃ outer, .interpolation outer ∈ segments ∧ n ≤ sizeOf outer := by
      intro n
      induction n with
      | zero => exact ⟨inner, hv, Nat.zero_le _⟩
      | succ n ih =>
        obtain ⟨middle, hmiddle, hn⟩ := ih
        obtain ⟨outer, houter, hlt⟩ := hgreater middle hmiddle
        exact ⟨outer, houter, by omega⟩
    obtain ⟨outer, houter, hle⟩ := hendless (sizeOf segments)
    have hsize := List.sizeOf_lt_of_mem houter
    simp only [interpolation.sizeOf_spec] at hsize
    omega
  | literal _ | symbol _ | path _ _ | list _ | map _ | verbatim _ => rfl

end Value

/-! ### Marked segments -/

namespace MarkedCommand

open Value (isDynamic)

/-- The text of some segments, with marks from a number on. -/
def spread : (number : Nat) → List Value → Text
  | _, [] => []
  | number, v :: rest =>
    match v.scalar? with
    | some s => s.plain ++ spread number rest
    | none => markOf number ++ spread (number + 1) rest

/-- Segments whose text can be told from their marks: none is an interpolation, and no literal text has
the unit around marks. -/
structure Markable (segments : List Value) : Prop where
  flat : ∀ v ∈ segments, v.segments = [v]
  plain : ∀ v ∈ segments, ∀ s, v.scalar? = some s → markUnit ∉ s.plain

theorem spread_scalar {v : Value} {s : Scalar} (h : v.scalar? = some s) (number : Nat) (rest : List Value) :
    spread number (v :: rest) = s.plain ++ spread number rest := by
  rw [spread, h]

theorem spread_dynamic {v : Value} (h : v.scalar? = none) (number : Nat) (rest : List Value) :
    spread number (v :: rest) = markOf number ++ spread (number + 1) rest := by
  rw [spread, h]

theorem filter_cons_scalar {v : Value} {s : Scalar} (h : v.scalar? = some s) (rest : List Value) :
    (v :: rest).filter isDynamic = rest.filter isDynamic := by
  simp [isDynamic, h]

theorem filter_cons_dynamic {v : Value} (h : v.scalar? = none) (rest : List Value) :
    (v :: rest).filter isDynamic = v :: rest.filter isDynamic := by
  simp [isDynamic, h]

theorem spread_append (number : Nat) (segments more : List Value) :
    spread number (segments ++ more) =
      spread number segments ++ spread (number + (segments.filter isDynamic).length) more := by
  induction segments generalizing number with
  | nil => rfl
  | cons v rest ih =>
    rw [List.cons_append]
    cases hv : v.scalar? with
    | some s => rw [spread_scalar hv, spread_scalar hv, ih, filter_cons_scalar hv, List.append_assoc]
    | none =>
      rw [spread_dynamic hv, spread_dynamic hv, ih, filter_cons_dynamic hv, List.append_assoc,
        List.length_cons, Nat.add_assoc, Nat.add_comm 1]

/-- Adding segments adds their text with marks, and their dynamic parts. -/
theorem foldl_add (segments : List Value) (m : MarkedCommand) :
    segments.foldl add m =
      ⟨m.text ++ spread m.dynamic.length segments, m.dynamic ++ segments.filter isDynamic⟩ := by
  induction segments generalizing m with
  | nil => simp [spread]
  | cons v rest ih =>
    rw [List.foldl_cons, ih]
    cases hv : v.scalar? with
    | some s => simp [add, hv, spread_scalar hv, isDynamic]
    | none => simp [add, hv, spread_dynamic hv, isDynamic]

theorem Markable.cons {v : Value} {rest : List Value} (h : Markable (v :: rest)) : Markable rest :=
  ⟨(List.forall_mem_cons.1 h.flat).2, (List.forall_mem_cons.1 h.plain).2⟩

theorem markable_ofText {t : Text} (h : markUnit ∉ t) : Markable [Value.ofText t] := by
  refine ⟨List.forall_mem_singleton.2 rfl, List.forall_mem_singleton.2 fun s hs => ?_⟩
  obtain rfl := Option.some.inj hs
  exact h

theorem Markable.append {segments more : List Value} (h : Markable segments) (hmore : Markable more) :
    Markable (segments ++ more) :=
  ⟨List.forall_mem_append.2 ⟨h.flat, hmore.flat⟩, List.forall_mem_append.2 ⟨h.plain, hmore.plain⟩⟩

theorem Markable.of_append {segments more : List Value} (h : Markable (segments ++ more)) :
    Markable segments ∧ Markable more :=
  ⟨⟨(List.forall_mem_append.1 h.flat).1, (List.forall_mem_append.1 h.plain).1⟩,
    ⟨(List.forall_mem_append.1 h.flat).2, (List.forall_mem_append.1 h.plain).2⟩⟩

/-! ### Cutting -/

/-- A text without marks can be cut off before the marked text of some segments: what is left is that of
segments with the same dynamic parts. -/
theorem cut_before {segments : List Value} {number : Nat} {before rest : Text} (hbefore : markUnit ∉ before)
    (h : before ++ rest = spread number segments) (hsegments : Markable segments) :
    ∃ more, rest = spread number more ∧ more.filter isDynamic = segments.filter isDynamic ∧
      segments.flatMap Value.render = before ++ more.flatMap Value.render ∧ Markable more := by
  induction segments generalizing before rest with
  | nil =>
    obtain ⟨rfl, rfl⟩ := List.append_eq_nil_iff.1 h
    exact ⟨[], rfl, rfl, rfl, hsegments⟩
  | cons v segments ih =>
    cases hv : v.scalar? with
    | some s =>
      have hplain := hsegments.plain v List.mem_cons_self s hv
      rw [spread_scalar hv] at h
      rw [filter_cons_scalar hv, List.flatMap_cons, Value.render_of_scalar? hv]
      rcases List.append_eq_append_iff.1 h with ⟨x, hx, rfl⟩ | ⟨x, rfl, hx⟩
      · -- the cut is in the text of the first segment
        rw [hx, List.mem_append, not_or] at hplain
        refine ⟨Value.ofText x :: segments, ?_, ?_, ?_, (markable_ofText hplain.2).append hsegments.cons⟩
        · rw [spread_scalar rfl]
          rfl
        · rw [filter_cons_scalar rfl]
        · rw [hx, List.append_assoc]
          rfl
      · rw [List.mem_append, not_or] at hbefore
        obtain ⟨more, hrest, hdynamic, hrender, hmore⟩ := ih hbefore.2 hx.symm hsegments.cons
        exact ⟨more, hrest, hdynamic, by rw [hrender, List.append_assoc], hmore⟩
    | none =>
      cases before with
      | nil => exact ⟨v :: segments, h, rfl, rfl, hsegments⟩
      | cons c before =>
        rw [spread_dynamic hv] at h
        obtain rfl := (List.cons.inj h).1
        exact absurd List.mem_cons_self hbefore

/-- A text without marks can be cut off after the marked text of some segments. -/
theorem cut_after {segments : List Value} {number : Nat} {rest after : Text} (hafter : markUnit ∉ after)
    (h : rest ++ after = spread number segments) (hsegments : Markable segments) :
    ∃ more, rest = spread number more ∧ more.filter isDynamic = segments.filter isDynamic ∧
      segments.flatMap Value.render = more.flatMap Value.render ++ after ∧ Markable more := by
  induction segments using List.reverseRecOn generalizing rest after with
  | nil =>
    obtain ⟨rfl, rfl⟩ := List.append_eq_nil_iff.1 h
    exact ⟨[], rfl, rfl, rfl, hsegments⟩
  | append_singleton segments v ih =>
    obtain ⟨hinit, hlast⟩ := hsegments.of_append
    cases hv : v.scalar? with
    | some s =>
      have hplain := hlast.plain v List.mem_cons_self s hv
      rw [spread_append, spread_scalar hv] at h
      rw [List.filter_append, Value.filter_of_scalar? hv, List.append_nil, List.flatMap_append,
        List.flatMap_singleton, Value.render_of_scalar? hv]
      rw [show spread _ [] = [] from rfl, List.append_nil] at h
      rcases List.append_eq_append_iff.1 h with ⟨x, hx, rfl⟩ | ⟨x, rfl, hx⟩
      · rw [List.mem_append, not_or] at hafter
        obtain ⟨more, hrest, hdynamic, hrender, hmore⟩ := ih hafter.1 hx.symm hinit
        exact ⟨more, hrest, hdynamic, by rw [hrender, List.append_assoc], hmore⟩
      · -- the cut is in the text of the last segment
        rw [hx, List.mem_append, not_or] at hplain
        refine ⟨segments ++ [Value.ofText x], ?_, ?_, ?_, hinit.append (markable_ofText hplain.1)⟩
        · rw [spread_append, spread_scalar rfl]
          exact congrArg (spread number segments ++ ·) (List.append_nil x).symm
        · rw [List.filter_append, Value.filter_of_scalar? rfl, List.append_nil]
        · rw [hx, List.flatMap_append, List.flatMap_singleton, List.append_assoc]
          rfl
    | none =>
      by_cases hnil : after = []
      · subst hnil
        rw [List.append_nil] at h
        exact ⟨segments ++ [v], h, rfl, (List.append_nil _).symm, hsegments⟩
      · -- the text ends with the unit around a mark
        have hend : (rest ++ after).getLast? = some markUnit := by
          rw [h, spread_append, spread_dynamic hv, show spread _ [] = [] from rfl, List.append_nil]
          unfold markOf
          rw [← List.append_assoc, List.getLast?_concat]
        rw [List.getLast?_append_of_ne_nil _ hnil] at hend
        exact absurd (List.mem_of_getLast? hend) hafter

/-! ### Reading marks -/

theorem splitOn_append {t : Text} (ht : markUnit ∉ t) {u first : Text} {more : List Text}
    (hu : u.splitOn markUnit = first :: more) : (t ++ u).splitOn markUnit = (t ++ first) :: more := by
  induction t with
  | nil => exact hu
  | cons c t ih =>
    obtain ⟨hc, ht⟩ := not_or.1 (List.mem_cons.not.1 ht)
    have hrest := ih ht
    unfold Text.splitOn at hrest ⊢
    rw [List.cons_append, Text.split, if_neg (by simpa using Ne.symm hc), hrest]
    rfl

theorem splitOn_mark (u : Text) : Text.splitOn (markUnit :: u) markUnit = [] :: u.splitOn markUnit := by
  unfold Text.splitOn
  rw [Text.split.eq_def]
  rfl

theorem splitOn_markOf (number : Nat) (u : Text) :
    Text.splitOn (markOf number ++ u) markUnit = [] :: Text.ofNat number :: u.splitOn markUnit := by
  have hdigits : markUnit ∉ Text.ofNat number := fun hmem =>
    absurd (Text.isDigit_of_mem_ofNat hmem) (by decide)
  have hnumber := splitOn_append hdigits (splitOn_mark u)
  have htext : markOf number ++ u = markUnit :: (Text.ofNat number ++ markUnit :: u) :=
    congrArg (markUnit :: ·) (List.append_assoc _ _ _)
  rw [htext, splitOn_mark, hnumber, List.append_nil]

/-- The number between two marks stands for the dynamic part with that number. -/
theorem markValue_ofNat {m : MarkedCommand} {number : Nat} {v : Value} (h : m.dynamic[number]? = some v)
    (hsafe : number ≤ Number.maxSafe) : m.markValue (Text.ofNat number) = v := by
  have hindex : (some (number : Number)).filter (fun n : Number => n.isInteger && 0 ≤ n.num) =
      some (number : Number) := by
    simp [Number.isInteger]
  unfold markValue
  rw [Number.ofText?_ofNat hsafe, hindex]
  simp [h]

/-- The marked text of some segments is read back: as values with the same dynamic parts and the same
template. -/
theorem reads_spread {m : MarkedCommand} {segments : List Value} {earlier : List Value}
    (hsegments : Markable segments) (hdynamic : m.dynamic = earlier ++ segments.filter isDynamic)
    (hsafe : m.dynamic.length ≤ Number.maxSafe) :
    let values := m.segmentsOf false ((spread earlier.length segments).splitOn markUnit)
    values.filter isDynamic = segments.filter isDynamic ∧
      values.flatMap Value.render = segments.flatMap Value.render ∧ ∀ v ∈ values, v.segments = [v] := by
  induction segments generalizing earlier with
  | nil => exact ⟨rfl, rfl, List.forall_mem_singleton.2 rfl⟩
  | cons v rest ih =>
    cases hv : v.scalar? with
    | some s =>
      rw [filter_cons_scalar hv] at hdynamic ⊢
      obtain ⟨hparts, hrender, hflat⟩ := ih hsegments.cons hdynamic
      obtain ⟨first, more, hsplit⟩ : ∃ first more,
          Text.splitOn (spread earlier.length rest) markUnit = first :: more :=
        List.exists_cons_of_ne_nil (Text.split_ne_nil _ _)
      have hplain := splitOn_append (hsegments.plain v List.mem_cons_self s hv) hsplit
      rw [hsplit] at hparts hrender hflat
      -- a text goes in front of the first stretch between marks
      rw [spread_scalar hv, hplain, List.flatMap_cons, Value.render_of_scalar? hv, ← hrender]
      exact ⟨hparts, List.append_assoc _ _ _, List.forall_mem_cons.2 ⟨rfl, (List.forall_mem_cons.1 hflat).2⟩⟩
    | none =>
      rw [filter_cons_dynamic hv] at hdynamic ⊢
      have hnext : m.dynamic = (earlier ++ [v]) ++ rest.filter isDynamic := by
        rw [hdynamic, List.append_assoc]
        rfl
      obtain ⟨hparts, hrender, hflat⟩ := ih hsegments.cons hnext
      rw [List.length_append, List.length_singleton] at hparts hrender hflat
      -- the number in the mark is that of the segment among all dynamic parts
      have hindex : m.dynamic[earlier.length]? = some v := by
        rw [hdynamic]
        simp
      have hlength : earlier.length ≤ Number.maxSafe := by
        rw [hdynamic, List.length_append] at hsafe
        omega
      rw [spread_dynamic hv, splitOn_markOf, segmentsOf, segmentsOf, markValue_ofNat hindex hlength]
      refine ⟨?_, ?_, ?_⟩
      · rw [filter_cons_scalar rfl, filter_cons_dynamic hv, hparts]
      · rw [List.flatMap_cons, List.flatMap_cons, List.flatMap_cons, hrender]
        rfl
      · exact List.forall_mem_cons.2 ⟨rfl, List.forall_mem_cons.2
          ⟨hsegments.flat v List.mem_cons_self, hflat⟩⟩

/-- The text between quotes, or all of it: what is taken off has no mark. -/
theorem unquote_around (raw : Text) :
    ∃ before after, raw = before ++ unquote raw ++ after ∧ markUnit ∉ before ∧ markUnit ∉ after := by
  cases raw with
  | nil => exact ⟨[], [], rfl, List.not_mem_nil, List.not_mem_nil⟩
  | cons q rest =>
    rw [unquote]
    split
    · rename_i hquotes
      obtain ⟨hq, hlast⟩ := hquotes
      have hplain : markUnit ∉ [q] := by
        rcases hq with rfl | rfl <;> decide
      refine ⟨[q], [q], ?_, hplain, hplain⟩
      rw [List.append_assoc, List.dropLast_append_getLast? q hlast]
      rfl
    · exact ⟨[], [], (List.append_nil _).symm, List.not_mem_nil, List.not_mem_nil⟩

/-- A stretch of the marked text of a command, with no mark around it, has all dynamic parts of the
command as a subject, and its template is a stretch of the command's. -/
theorem subjectValue_spec {m : MarkedCommand} {segments : List Value} {before raw after : Text}
    (hsegments : Markable segments) (htext : m.text = spread 0 segments)
    (hdynamic : m.dynamic = segments.filter isDynamic) (hsafe : m.dynamic.length ≤ Number.maxSafe)
    (haround : m.text = before ++ raw ++ after) (hbefore : markUnit ∉ before) (hafter : markUnit ∉ after) :
    (m.subjectValue raw).dynamicParts = segments.filter isDynamic ∧
      (m.subjectValue raw).render <:+: segments.flatMap Value.render := by
  obtain ⟨opening, closing, hraw, hopening, hclosing⟩ := unquote_around raw
  have hwhole : (before ++ opening) ++ (unquote raw ++ (closing ++ after)) = spread 0 segments := by
    rw [← htext, haround]
    conv_rhs => rw [hraw]
    simp only [List.append_assoc]
  obtain ⟨left, hleft, hpartsLeft, hrenderLeft, hmarkable⟩ :=
    cut_before (by simp [hbefore, hopening]) hwhole hsegments
  obtain ⟨inner, hinner, hpartsInner, hrenderInner, hmarkable⟩ :=
    cut_after (by simp [hclosing, hafter]) hleft hmarkable
  have hparts : inner.filter isDynamic = segments.filter isDynamic := hpartsInner.trans hpartsLeft
  obtain ⟨hread, hrender, hflat⟩ := @reads_spread m inner [] hmarkable
    (by rw [hdynamic, hparts]; rfl) hsafe
  rw [List.length_nil, ← hinner] at hread hrender hflat
  unfold subjectValue
  rw [Value.dynamicParts_interpolate hflat, Value.render_interpolate, hread, hrender, hparts, hrenderLeft,
    hrenderInner]
  exact ⟨rfl, before ++ opening, closing ++ after, by simp only [List.append_assoc]⟩

end MarkedCommand

/-! ### Recognized commands -/

/-- A command as text: a literal text, or an interpolation in normal form; no literal text has the unit
around marks, and the segments can be numbered. -/
inductive CommandText : Value → Prop
  | text {v : Value} {t : Text} (hscalar : v.scalar? = some (.text t)) (hplain : markUnit ∉ t) :
      CommandText v
  | interpolation {segments : List Value} (hnormal : Value.interpolate segments = .interpolation segments)
      (hplain : ∀ v ∈ segments, ∀ s, v.scalar? = some s → markUnit ∉ s.plain)
      (hcount : segments.length ≤ Number.maxSafe) : CommandText (.interpolation segments)

theorem CommandText.exists_segments {command : Value} (h : CommandText command) {m : MarkedCommand}
    (hm : MarkedCommand.ofValue? command = some m) :
    ∃ segments, MarkedCommand.Markable segments ∧ m.text = MarkedCommand.spread 0 segments ∧
      m.dynamic = segments.filter Value.isDynamic ∧ m.dynamic.length ≤ Number.maxSafe ∧
      command.dynamicParts = segments.filter Value.isDynamic ∧
      command.render = segments.flatMap Value.render := by
  cases h with
  | @text _ t hscalar hplain =>
    have hone : m = ⟨t, []⟩ ∧ command.segments = [command] := by
      cases command with
      | literal s =>
        obtain rfl : s = .text t := Option.some.inj hscalar
        exact ⟨(Option.some.inj hm).symm, rfl⟩
      | symbol name =>
        obtain rfl : name = t := Scalar.text.inj (Option.some.inj hscalar)
        exact ⟨(Option.some.inj hm).symm, rfl⟩
      | path _ _ | interpolation _ | list _ | map _ | verbatim _ =>
        exact absurd hscalar (by simp [Value.scalar?])
    obtain ⟨rfl, hflat⟩ := hone
    refine ⟨[command], ⟨List.forall_mem_singleton.2 hflat, List.forall_mem_singleton.2 ?_⟩, ?_, ?_,
      Nat.zero_le _, ?_, ?_⟩
    · rintro s hs
      obtain rfl := Option.some.inj (hs.symm.trans hscalar)
      exact hplain
    · rw [MarkedCommand.spread_scalar hscalar]
      exact (List.append_nil t).symm
    · rw [Value.filter_of_scalar? hscalar]
    · unfold Value.dynamicParts
      rw [hflat]
    · rw [List.flatMap_singleton]
  | @interpolation segments hnormal hplain hcount =>
    have hm : some (segments.foldl MarkedCommand.add ⟨[], []⟩) = some m := hm
    obtain rfl := Option.some.inj hm
    rw [MarkedCommand.foldl_add]
    refine ⟨segments, ⟨Value.flat_of_normal hnormal, hplain⟩, rfl, rfl, ?_, rfl, ?_⟩
    · exact (List.length_filter_le _ _).trans hcount
    · rw [Value.render, renderAll_eq]

/-- A recognized command is a test of its subject, or the denial of one, and the subject keeps all
dynamic parts of the command, in order, as a stretch of the command's template. -/
theorem matchCommand?_keeps_dynamicParts {command : Value} {c : Condition} (hcommand : CommandText command)
    (h : matchCommand? command = some c) :
    ∃ kind subject, (c = .test kind subject ∨ c = .not (.test kind subject)) ∧
      subject.dynamicParts = command.dynamicParts ∧ subject.render <:+: command.render := by
  obtain ⟨m, hm, pattern, hmem, found, hspelling, rfl⟩ := exists_spelling h
  obtain ⟨segments, hmarkable, htext, hdynamic, hsafe, hparts, hrender⟩ := hcommand.exists_segments hm
  obtain ⟨before, after, hcore, -, hbefore, hafter⟩ :=
    hspelling.around (CommandPattern.one_subject pattern hmem)
  obtain ⟨lead, trail, haround, hlead, htrail⟩ := m.core_around
  have hplain : ∀ {t : Text}, (∀ c ∈ t, OwnUnit pattern.parts c) → markUnit ∉ t := fun ht hmark =>
    CommandPattern.not_special hmem (ht _ hmark) List.mem_cons_self
  have hwhole : m.text = (lead ++ before) ++ found.subject ++ (after ++ trail) := by
    rw [haround, hcore]
    simp only [List.append_assoc]
  have hspec := MarkedCommand.subjectValue_spec hmarkable htext hdynamic hsafe hwhole
    (by simp [hlead, hplain hbefore]) (by simp [htrail, hplain hafter])
  refine ⟨pattern.test found.letter, m.subjectValue found.subject, ?_, ?_, ?_⟩
  · unfold CommandPattern.condition
    cases found.negated with
    | true => exact .inr rfl
    | false => exact .inl rfl
  · rw [hspec.1, hparts]
  · rw [hrender]
    exact hspec.2

/-- A path within a directory that the node tells is tested with the directory in it, and without the
quotes and the redirection. -/
theorem matchCommand?_keeps_directory :
    let directory : Value := .path .node ["a"]
    let command : Value := .interpolation [.ofText "test ! -f '/b/", directory, .ofText "/c' >/dev/null"]
    ∃ c kind subject, matchCommand? command = some c ∧ (c = .test kind subject ∨ c = .not (.test kind subject)) ∧
      subject.dynamicParts = [directory] ∧ subject.render <:+: command.render := by
  intro directory command
  have htext : ∀ t : Text, markUnit ∉ t → ∀ s, (Value.ofText t).scalar? = some s → markUnit ∉ s.plain := by
    rintro t ht s hs
    obtain rfl := Option.some.inj hs
    exact ht
  have hcommand : CommandText command := by
    refine .interpolation rfl ?_ (by decide)
    refine List.forall_mem_cons.2 ⟨htext _ (by decide), List.forall_mem_cons.2 ⟨?_, ?_⟩⟩
    · intro s hs
      exact absurd hs (by simp [directory, Value.scalar?])
    · exact List.forall_mem_singleton.2 (htext _ (by decide))
  obtain ⟨c, hc⟩ := Option.isSome_iff_exists.1 (show (matchCommand? command).isSome = true by decide +kernel)
  obtain ⟨kind, subject, hform, hparts, hrender⟩ := matchCommand?_keeps_dynamicParts hcommand hc
  exact ⟨c, kind, subject, hc, hform, hparts, hrender⟩

end Cookbook
