import Cookbook.Proofs.Call
import Cookbook.Proofs.Statement.Nesting
import Mathlib.Order.Bounds.Basic

/-!
Matching brackets in balanced runs. The search for a closer counts openers and closers and does not look
at their kinds; in a balanced run it finds the bracket that ends the shortest balanced run from the opener
on.

* `Paired fits` is the grammar of balanced runs, where `fits` says which closers an opener may have: any
  one, which gives `Balanced` (`balanced_iff_paired`), or the one of its kind, which gives `WellNested`
  (`wellNested_iff_paired`);
* `Paired.exists_closer` finds the closer of an opener in the grammar, `Paired.closing?_append` and
  `Paired.closing?_eq` follow the search through it;
* `Paired.isLeast_closingIndex?` puts the two together.
-/

namespace Cookbook

/-! ### Balanced runs -/

/-- The brackets of a run are in pairs: the run is made of tokens that are no brackets and of runs in
brackets, an opener before each and a closer that fits it behind. -/
inductive Paired (fits : Token → Token → Prop) : List Token → Prop
  | nil : Paired fits []
  | plain (t : Token) (rest : List Token) (hopener : t.isOpener = false) (hcloser : t.isCloser = false)
      (hrest : Paired fits rest) : Paired fits (t :: rest)
  | bracketed (o : Token) (inner : List Token) (c : Token) (rest : List Token) (ho : o.isOpener = true)
      (hc : c.isCloser = true) (hfits : fits o c) (hinner : Paired fits inner) (hrest : Paired fits rest) :
      Paired fits (o :: (inner ++ c :: rest))

theorem Token.not_isCloser_of_isOpener {t : Token} (h : t.isOpener = true) : t.isCloser = false := by
  by_contra hcloser
  rw [Token.not_isOpener_of_isCloser (by simpa using hcloser)] at h
  exact absurd h (by decide)

theorem Token.ne_of_isOpener_of_isCloser {o c : Token} (ho : o.isOpener = true) (hc : c.isCloser = true) :
    o ≠ c := by
  rintro rfl
  rw [Token.not_isCloser_of_isOpener ho] at hc
  exact absurd hc (by decide)

theorem depthAfter_of_isCloser {t : Token} (h : t.isCloser = true) (depth : Int) :
    depthAfter depth t = depth - 1 :=
  depthAfter_closer (Token.not_isOpener_of_isCloser h) h depth

theorem depthAfter_succ_of_isCloser {t : Token} (h : t.isCloser = true) (depth : Int) :
    depthAfter (depth + 1) t = depth := by
  rw [depthAfter_of_isCloser h, Int.add_sub_cancel]

/-- The tokens close what is open, the innermost bracket first: before each closer that does so, and after the
last one, stands a balanced run. -/
def Unwinds (fits : Token → Token → Prop) : (opened tokens : List Token) → Prop
  | [], tokens => Paired fits tokens
  | o :: outer, tokens => ∃ inner c rest, tokens = inner ++ c :: rest ∧ c.isCloser = true ∧ fits o c ∧
      Paired fits inner ∧ Unwinds fits outer rest

namespace Unwinds

variable {fits : Token → Token → Prop} {opened tokens : List Token}

theorem plain {t : Token} (ho : t.isOpener = false) (hc : t.isCloser = false)
    (h : Unwinds fits opened tokens) : Unwinds fits opened (t :: tokens) := by
  cases opened with
  | nil => exact .plain t tokens ho hc h
  | cons o outer =>
    obtain ⟨inner, c, rest, rfl, hcloser, hfits, hinner, hrest⟩ := h
    exact ⟨t :: inner, c, rest, rfl, hcloser, hfits, .plain t inner ho hc hinner, hrest⟩

theorem opener {t : Token} (ho : t.isOpener = true) (h : Unwinds fits (t :: opened) tokens) :
    Unwinds fits opened (t :: tokens) := by
  obtain ⟨inner, c, rest, rfl, hcloser, hfits, hinner, hrest⟩ := h
  cases opened with
  | nil => exact .bracketed t inner c rest ho hcloser hfits hinner hrest
  | cons o outer =>
    -- the pair stands before what the next bracket further out closes after
    obtain ⟨inner', c', rest', rfl, hcloser', hfits', hinner', hrest'⟩ := hrest
    exact ⟨t :: (inner ++ c :: inner'), c', rest', by simp, hcloser', hfits',
      .bracketed t inner c inner' ho hcloser hfits hinner hinner', hrest'⟩

theorem closer {o t : Token} (hc : t.isCloser = true) (hfits : fits o t) (h : Unwinds fits opened tokens) :
    Unwinds fits (o :: opened) (t :: tokens) :=
  ⟨[], t, tokens, rfl, hc, hfits, .nil, h⟩

end Unwinds

/-- What nests to nothing closes what is open, each bracket with the closer of its kind. -/
theorem Unwinds.of_nest {opened run : List Token} (h : nest opened run = some []) :
    Unwinds (fun o c => o.closedBy c = true) opened run := by
  induction run generalizing opened with
  | nil =>
    obtain rfl := Option.some.inj h
    exact .nil
  | cons t rest ih =>
    rw [nest_cons] at h
    cases ho : t.isOpener with
    | true =>
      rw [nestStep_opener ho] at h
      exact (ih h).opener ho
    | false =>
      cases hc : t.isCloser with
      | false =>
        rw [nestStep_plain ho hc] at h
        exact (ih h).plain ho hc
      | true =>
        cases opened with
        | nil => exact absurd h (by simp [nestStep, ho, hc])
        | cons o outer =>
          rw [nestStep_closer ho hc] at h
          obtain ⟨next, hnext, hrest⟩ := Option.bind_eq_some_iff.1 h
          obtain ⟨hfits, hsome⟩ := Option.ite_none_right_eq_some.1 hnext
          obtain rfl := Option.some.inj hsome
          exact (ih hrest).closer hc hfits

theorem Paired.nest_nil {run : List Token} (h : Paired (fun o c => o.closedBy c = true) run) :
    nest [] run = some [] := by
  induction h with
  | nil => rfl
  | plain t rest hopener hcloser _ ih =>
    rw [nest_cons, nestStep_plain hopener hcloser]
    exact ih
  | bracketed o inner c rest ho hc hfits _ _ ihinner ihrest =>
    have hin : nest [o] inner = some [o] := nest_outer ihinner [o]
    rw [nest_cons, nestStep_opener ho, Option.bind_some, nest_append, hin, Option.bind_some, nest_cons,
      nestStep_closer (Token.not_isOpener_of_isCloser hc) hc, if_pos hfits]
    exact ihrest

/-- Nested brackets are pairs of an opener and the closer of its kind. -/
theorem wellNested_iff_paired {run : List Token} :
    WellNested run ↔ Paired (fun o c => o.closedBy c = true) run :=
  ⟨fun h => show Unwinds _ [] run from Unwinds.of_nest h, Paired.nest_nil⟩

/-- A run that goes down to depth zero, and never below, from the number of open brackets, closes them. -/
theorem Unwinds.of_depth {opened run : List Token}
    (hpos : ∀ n, 0 ≤ (run.take n).foldl depthAfter opened.length)
    (hzero : run.foldl depthAfter opened.length = 0) : Unwinds (fun _ _ => True) opened run := by
  induction run generalizing opened with
  | nil =>
    obtain rfl : opened = [] := List.eq_nil_of_length_eq_zero (by simpa using hzero)
    exact .nil
  | cons t rest ih =>
    have hnext : ∀ n, 0 ≤ (rest.take n).foldl depthAfter (depthAfter opened.length t) :=
      fun n => hpos (n + 1)
    cases ho : t.isOpener with
    | true =>
      have hdepth : depthAfter opened.length t = ((t :: opened).length : Int) := by
        rw [depthAfter_opener ho, List.length_cons]
        rfl
      rw [hdepth] at hnext
      exact (ih hnext (by rw [← hdepth]; exact hzero)).opener ho
    | false =>
      cases hc : t.isCloser with
      | false =>
        have hdepth := depthAfter_other ho hc (opened.length : Int)
        rw [hdepth] at hnext
        exact (ih hnext (by rw [← hdepth]; exact hzero)).plain ho hc
      | true =>
        have hdepth := depthAfter_of_isCloser hc (opened.length : Int)
        cases opened with
        | nil =>
          have hneg := hnext 0
          rw [hdepth] at hneg
          exact absurd hneg (by simp)
        | cons o outer =>
          have houter : depthAfter ((o :: outer).length : Int) t = (outer.length : Int) := by
            rw [hdepth, List.length_cons]
            omega
          rw [houter] at hnext
          exact (ih hnext (by rw [← houter]; exact hzero)).closer hc trivial

namespace Paired

variable {fits : Token → Token → Prop} {run : List Token}

theorem foldl_depthAfter (h : Paired fits run) (depth : Int) : run.foldl depthAfter depth = depth := by
  induction h generalizing depth with
  | nil => rfl
  | plain t rest hopener hcloser _ ih => rw [List.foldl_cons, depthAfter_other hopener hcloser, ih]
  | bracketed o inner c rest ho hc _ _ _ ihinner ihrest =>
    rw [List.foldl_cons, depthAfter_opener ho, List.foldl_append, ihinner, List.foldl_cons,
      depthAfter_succ_of_isCloser hc, ihrest]

/-- A balanced run never goes below the depth it starts at. -/
theorem le_foldl_depthAfter_take (h : Paired fits run) (depth : Int) (n : Nat) :
    depth ≤ (run.take n).foldl depthAfter depth := by
  induction h generalizing depth n with
  | nil => simp
  | plain t rest hopener hcloser _ ih =>
    cases n with
    | zero => exact le_rfl
    | succ n =>
      rw [List.take_succ_cons, List.foldl_cons, depthAfter_other hopener hcloser]
      exact ih depth n
  | bracketed o inner c rest ho hc _ hinner _ ihinner ihrest =>
    cases n with
    | zero => exact le_rfl
    | succ n =>
      rw [List.take_succ_cons, List.foldl_cons, depthAfter_opener ho, List.take_append, List.foldl_append]
      -- up to the closer the depth is that of the inner run, behind it that of the rest
      cases hn : n - inner.length with
      | zero => exact (Int.le_add_one le_rfl).trans (ihinner (depth + 1) n)
      | succ m =>
        rw [List.take_of_length_le (by omega), hinner.foldl_depthAfter, List.take_succ_cons,
          List.foldl_cons, depthAfter_succ_of_isCloser hc]
        exact ihrest depth m

end Paired

/-- Balanced brackets are pairs of an opener and any closer. -/
theorem balanced_iff_paired {run : List Token} : Balanced run ↔ Paired (fun _ _ => True) run :=
  ⟨fun h => show Unwinds _ [] run from Unwinds.of_depth h.1 h.2,
    fun h => ⟨h.le_foldl_depthAfter_take 0, h.foldl_depthAfter 0⟩⟩

/-! ### The search for a closer -/

theorem closing?_append_of_some {depth : Int} {run : List Token} {n : Nat} (h : closing? depth run = some n)
    (more : List Token) : closing? depth (run ++ more) = some n := by
  induction run generalizing depth n with
  | nil => exact absurd h (by simp [closing?])
  | cons t rest ih =>
    rw [List.cons_append]
    rw [closing?] at h ⊢
    split at h
    · rw [if_pos ‹_›]
      exact h
    · rw [if_neg ‹_›]
      obtain ⟨m, hm, rfl⟩ := Option.map_eq_some_iff.1 h
      rw [ih hm]
      rfl

namespace Paired

variable {fits : Token → Token → Prop} {run inner : List Token}

theorem closing?_append (h : Paired fits run) {depth : Int} (hdepth : 0 < depth) (more : List Token) :
    closing? depth (run ++ more) = (closing? depth more).map (· + run.length) := by
  induction h generalizing depth more with
  | nil => simp
  | plain t rest hopener hcloser _ ih =>
    have hno : ¬(t.isCloser = true ∧ depth = 0) := by simp [hcloser]
    rw [List.cons_append, closing?, depthAfter_other hopener hcloser, if_neg hno, ih hdepth,
      Option.map_map]
    rfl
  | bracketed o inner c rest ho hc _ _ _ ihinner ihrest =>
    have hopen : ¬(o.isCloser = true ∧ depth + 1 = 0) := by omega
    have hclose : ¬(c.isCloser = true ∧ depth = 0) := by omega
    have hlength : (fun n => n + rest.length + 1 + inner.length + 1) =
        fun n => n + (o :: (inner ++ c :: rest)).length := by
      funext n
      simp only [List.length_cons, List.length_append]
      omega
    rw [List.cons_append, closing?, depthAfter_opener ho, if_neg hopen, List.append_assoc,
      ihinner (by omega), List.cons_append, closing?, depthAfter_succ_of_isCloser hc, if_neg hclose,
      ihrest hdepth, Option.map_map, Option.map_map, Option.map_map]
    exact congrArg (fun f => (closing? depth more).map f) hlength

theorem pieces_append (h : Paired fits run) {separator : Text} {depth : Int} (hdepth : 0 < depth)
    (more : List Token) :
    pieces separator depth (run ++ more) = (pieces separator depth more).modifyHead (run ++ ·) := by
  induction h generalizing depth more with
  | nil => exact (congrFun List.modifyHead_id _).symm
  | plain t rest hopener hcloser _ ih =>
    have hno : ¬(depthAfter depth t = 0 ∧ t.isPunct [separator] = true) := by
      rw [depthAfter_other hopener hcloser]
      omega
    rw [List.cons_append, pieces_cons hno, depthAfter_other hopener hcloser, ih hdepth,
      List.modifyHead_modifyHead]
    rfl
  | bracketed o inner c rest ho hc _ _ _ ihinner ihrest =>
    have hopen : ¬(depthAfter depth o = 0 ∧ o.isPunct [separator] = true) := by
      rw [depthAfter_opener ho]
      omega
    have hclose : ¬(depthAfter (depth + 1) c = 0 ∧ c.isPunct [separator] = true) := by
      rw [depthAfter_succ_of_isCloser hc]
      omega
    rw [List.cons_append, pieces_cons hopen, depthAfter_opener ho, List.append_assoc, ihinner (by omega),
      List.cons_append, pieces_cons hclose, depthAfter_succ_of_isCloser hc, ihrest hdepth,
      List.modifyHead_modifyHead, List.modifyHead_modifyHead, List.modifyHead_modifyHead]
    simp [Function.comp_def]

/-- From its opener on, a balanced run in brackets ends where the search does. -/
theorem closing?_eq (h : Paired fits inner) {o c : Token} (ho : o.isOpener = true) (hc : c.isCloser = true)
    (rest : List Token) : closing? 0 (o :: (inner ++ c :: rest)) = some (inner.length + 1) := by
  rw [closing?, depthAfter_opener ho, if_neg (by omega), h.closing?_append (by omega), closing?,
    depthAfter_succ_of_isCloser hc, if_pos ⟨hc, rfl⟩, Option.map_some, Option.map_some, Nat.zero_add]

/-- An opener of a balanced run has its closer, with a balanced run between. -/
theorem exists_closer (h : Paired fits run) {before after : List Token} {o : Token}
    (hrun : run = before ++ o :: after) (ho : o.isOpener = true) :
    ∃ inner c rest, after = inner ++ c :: rest ∧ c.isCloser = true ∧ fits o c ∧ Paired fits inner := by
  induction h generalizing before after with
  | nil => exact absurd hrun (by simp)
  | plain t rest hopener _ _ ih =>
    cases before with
    | nil =>
      obtain ⟨rfl, -⟩ := List.cons.inj hrun
      rw [ho] at hopener
      exact absurd hopener (by decide)
    | cons b before => exact ih (List.cons.inj hrun).2
  | bracketed o' inner c rest _ hc hfits hinner _ ihinner ihrest =>
    cases before with
    | nil =>
      obtain ⟨rfl, rfl⟩ := List.cons.inj hrun
      exact ⟨inner, c, rest, rfl, hc, hfits, hinner⟩
    | cons b before =>
      have hsplit := List.append_eq_append_iff.1 (List.cons.inj hrun).2
      rcases hsplit with ⟨as, rfl, htail⟩ | ⟨bs, rfl, htail⟩
      · -- the opener stands behind the inner run: it is not the closer, so it is in the rest
        cases as with
        | nil =>
          exact absurd (List.cons.inj htail).1.symm (Token.ne_of_isOpener_of_isCloser ho hc)
        | cons a as => exact ihrest (List.cons.inj htail).2
      · -- it stands in the inner run, and so does its closer
        cases bs with
        | nil =>
          exact absurd (List.cons.inj htail).1 (Token.ne_of_isOpener_of_isCloser ho hc)
        | cons a bs =>
          obtain ⟨rfl, rfl⟩ := List.cons.inj htail
          obtain ⟨inner', c', rest', rfl, hc', hfits', hinner'⟩ := ihinner rfl
          exact ⟨inner', c', rest' ++ c :: rest, by simp, hc', hfits', hinner'⟩

/-- The bracket that the search finds for an opener of a balanced run ends the shortest balanced run that
starts with the opener. -/
theorem isLeast_closingIndex? (h : Paired fits run) {start : Nat} {o : Token} (hstart : run[start]? = some o)
    (ho : o.isOpener = true) :
    ∃ k, closingIndex? run start = some k ∧
      IsLeast {k | start ≤ k ∧ Paired fits ((run.take (k + 1)).drop start)} k := by
  obtain ⟨hlt, hget⟩ := List.getElem?_eq_some_iff.1 hstart
  have hdrop : run.drop start = o :: run.drop (start + 1) := by rw [List.drop_eq_getElem_cons hlt, hget]
  have hrun : run = run.take start ++ o :: run.drop (start + 1) := by
    rw [← hdrop, List.take_append_drop]
  obtain ⟨inner, c, rest, hafter, hc, hfits, hinner⟩ := h.exists_closer hrun ho
  rw [hafter] at hdrop
  have hclosing : closing? 0 (run.drop start) = some (inner.length + 1) := by
    rw [hdrop, hinner.closing?_eq ho hc rest]
  refine ⟨inner.length + 1 + start, ?_, ⟨by omega, ?_⟩, ?_⟩
  · rw [closingIndex?, hclosing, Option.map_some]
  · have hcount : inner.length + 1 + start + 1 - start = inner.length + 1 + 1 := by omega
    rw [List.drop_take, hdrop, hcount, List.take_succ_cons, List.take_length_add_append]
    exact .bracketed o inner c [] ho hc hfits hinner .nil
  · rintro j ⟨hj, hpaired⟩
    -- a shorter balanced run would end the search where it ends itself
    by_contra hshort
    obtain ⟨m, hm⟩ : ∃ m, j + 1 - start = m + 1 := ⟨j - start, by omega⟩
    rw [List.drop_take, hdrop, hm, List.take_succ_cons] at hpaired
    obtain ⟨inner', c', rest', hshorter, hc', -, hinner'⟩ :=
      hpaired.exists_closer (List.nil_append _).symm ho
    have hfound := closing?_append_of_some (hinner'.closing?_eq ho hc' rest')
      ((inner ++ c :: rest).drop m)
    rw [← hshorter, List.cons_append, List.take_append_drop, ← hdrop, hclosing] at hfound
    have hlength := congrArg List.length hshorter
    simp only [List.length_take, List.length_append, List.length_cons] at hlength
    have hsame := Option.some.inj hfound
    omega

end Paired

end Cookbook
