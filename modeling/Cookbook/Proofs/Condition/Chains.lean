import Cookbook.Condition.Parser
import Cookbook.Proofs.Statement.Nesting
import Cookbook.Proofs.Value.Brackets

/-!
Conditions as chains. Outside parentheses the parser sees a condition as parts with joins between
them: it cuts the chain at the joins of a disjunction, and each of the pieces at those of a
conjunction.

* `isWhole` says which runs the scan of an operand takes as a whole;
* `Part.Reads` is a run that is read as one part wherever it stands, `Part.Reads.comparison`, `negated`
  and `grouped` are the three forms of it;
* `disjunction?_chain` is the reading of a chain, `condition?_chain` that of a whole run.
-/

namespace Cookbook

open NormalizeContext (opensGroup conjunct? moreConjuncts? disjunct? moreDisjuncts? disjunction?)

/-! ### Tokens that end a part -/

namespace Token

variable {t : Token}

/-- A token that ends a group is of one kind and compares nothing. -/
theorem endsGroup_cases (h : t.endsGroup = true) :
    t.compareOp? = none ∧ ((t.isAnd = true ∧ t.isOr = false ∧ t.isCloser = false) ∨
      (t.isAnd = false ∧ t.isOr = true ∧ t.isCloser = false) ∨
      t.isAnd = false ∧ t.isOr = false ∧ t.isCloser = true) := by
  obtain ⟨content, start, stop, text, spaceBefore⟩ := t
  have hcontent : content = .name .punct "&&" ∨ content = .name .keyword "and" ∨
      content = .name .punct "||" ∨ content = .name .keyword "or" ∨ content = .name .punct ")" := by
    simpa [endsGroup, isAnd, isOr, isPunct, isKeyword, isOneOf_iff, or_assoc] using h
  rcases hcontent with rfl | rfl | rfl | rfl | rfl
  · exact ⟨rfl, .inl ⟨rfl, rfl, rfl⟩⟩
  · exact ⟨rfl, .inl ⟨rfl, rfl, rfl⟩⟩
  · exact ⟨rfl, .inr (.inl ⟨rfl, rfl, rfl⟩)⟩
  · exact ⟨rfl, .inr (.inl ⟨rfl, rfl, rfl⟩)⟩
  · exact ⟨rfl, .inr (.inr ⟨rfl, rfl, rfl⟩)⟩

theorem endsGroup_of_isAnd (h : t.isAnd = true) : t.endsGroup = true := by
  simp [endsGroup, h]

theorem endsGroup_of_isOr (h : t.isOr = true) : t.endsGroup = true := by
  simp [endsGroup, h]

theorem not_isAnd_of_isOr (h : t.isOr = true) : t.isAnd = false := by
  rcases (endsGroup_cases (endsGroup_of_isOr h)).2 with ⟨-, hor, -⟩ | ⟨hand, -⟩ | ⟨hand, -⟩
  · rw [h] at hor
    exact absurd hor (by decide)
  · exact hand
  · exact hand

theorem endsGroup_of_close (h : t.isPunct [")"] = true) : t.endsGroup = true := by
  simp [endsGroup, h]

theorem content_of_compareOp? {op : CompareOp} (h : t.compareOp? = some op) :
    t.content = .name .punct op.sign := by
  obtain ⟨value, hvalue, hop⟩ := Option.bind_eq_some_iff.1 h
  have hsign : op.sign = value := by simpa using List.find?_some hop
  unfold valueOf? at hvalue
  split at hvalue
  · rename_i kind v hcontent
    rw [hcontent]
    split at hvalue
    · obtain rfl := Option.some.inj hvalue
      simp_all
    · exact absurd hvalue (by simp)
  · exact absurd hvalue (by simp)

theorem not_bracket_of_compareOp? {op : CompareOp} (h : t.compareOp? = some op) :
    t.isOpener = false ∧ t.isCloser = false := by
  have hpunct : t.isPunct [op.sign] = true :=
    isOneOf_iff.2 ⟨op.sign, List.mem_singleton_self _, content_of_compareOp? h⟩
  refine not_bracket_of_isPunct hpunct ?_
  cases op <;> decide

def endsOperand (t : Token) : Bool := t.endsGroup || t.compareOp?.isSome

theorem endsOperand_of_isOpener (h : t.isOpener = true) : t.endsOperand = false := by
  obtain ⟨content, start, stop, text, spaceBefore⟩ := t
  have hcontent : content = .name .punct "(" ∨ content = .name .punct "[" ∨
      content = .name .punct "\x7b" := by
    simpa [isOpener, isPunct, isOneOf_iff] using h
  rcases hcontent with rfl | rfl | rfl <;> rfl

end Token

/-! ### Operands -/

/-- Whether the brackets of a run are in pairs, from the given number of open ones on, and no token
that ends an operand stands outside them. -/
def isWhole : (depth : Nat) → List Token → Bool
  | depth, [] => depth == 0
  | depth, t :: rest =>
    if t.isOpener then isWhole (depth + 1) rest
    else if t.isCloser then 0 < depth && isWhole (depth - 1) rest
    else (0 < depth || !t.endsOperand) && isWhole depth rest

section Whole

variable {depth : Nat} {t : Token} {run rest : List Token}

theorem isWhole_cons (h : isWhole depth (t :: rest) = true) :
    (t.isOpener = true ∧ t.isCloser = false ∧ isWhole (depth + 1) rest = true) ∨
      (∃ d, depth = d + 1 ∧ t.isOpener = false ∧ t.isCloser = true ∧ isWhole d rest = true) ∨
      t.isOpener = false ∧ t.isCloser = false ∧ (depth = 0 → t.endsOperand = false) ∧
        isWhole depth rest = true := by
  rw [isWhole] at h
  by_cases hopener : t.isOpener = true
  · rw [if_pos hopener] at h
    refine .inl ⟨hopener, ?_, h⟩
    by_contra hcloser
    rw [Token.not_isOpener_of_isCloser (by simpa using hcloser)] at hopener
    exact absurd hopener (by decide)
  rw [if_neg hopener] at h
  by_cases hcloser : t.isCloser = true
  · rw [if_pos hcloser, Bool.and_eq_true, decide_eq_true_iff] at h
    exact .inr (.inl ⟨depth - 1, by omega, by simpa using hopener, hcloser, h.2⟩)
  · rw [if_neg hcloser, Bool.and_eq_true, Bool.or_eq_true, decide_eq_true_iff] at h
    refine .inr (.inr ⟨by simpa using hopener, by simpa using hcloser, fun hdepth => ?_, h.2⟩)
    rcases h.1 with hpos | hends
    · omega
    · simpa using hends

/-- A whole run may stand anywhere in another one. -/
theorem isWhole_append (h : isWhole depth run = true) (d : Nat) (more : List Token) :
    isWhole (d + depth) (run ++ more) = isWhole d more := by
  induction run generalizing depth with
  | nil =>
    obtain rfl : depth = 0 := by simpa [isWhole] using h
    rfl
  | cons t run ih =>
    rw [List.cons_append, isWhole]
    rcases isWhole_cons h with ⟨hopener, -, hrest⟩ | ⟨e, rfl, hopener, hcloser, hrest⟩ |
      ⟨hopener, hcloser, hends, hrest⟩
    · rw [if_pos hopener, Nat.add_assoc, ih hrest]
    · rw [hopener, hcloser, ← Nat.add_assoc, Nat.add_sub_cancel, ih hrest]
      simp
    · rw [hopener, hcloser, ih hrest]
      by_cases hdepth : depth = 0
      · simp [hends hdepth]
      · have hpos : 0 < d + depth := by omega
        simp [hpos]

/-- From within brackets a run goes on to the closer that ends them, and is whole from there on. -/
theorem exists_closer (h : isWhole (depth + 1) run = true) :
    ∃ inner closer more, run = inner ++ closer :: more ∧ isWhole 0 more = true ∧
      ∀ rest, closing? (depth + 1) (inner ++ closer :: rest) = some inner.length := by
  induction run generalizing depth with
  | nil => exact absurd h (by simp [isWhole])
  | cons t run ih =>
    -- a token before the closer changes the depth and is passed over
    have hpass : ∀ d : Nat, (t.isCloser = true → d ≠ 0) → depthAfter (depth + 1) t = d →
        (∃ inner closer more, run = inner ++ closer :: more ∧ isWhole 0 more = true ∧
          ∀ rest, closing? d (inner ++ closer :: rest) = some inner.length) →
        ∃ inner closer more, t :: run = inner ++ closer :: more ∧ isWhole 0 more = true ∧
          ∀ rest, closing? (depth + 1) (inner ++ closer :: rest) = some inner.length := by
      rintro d hd hdepth ⟨inner, closer, more, rfl, hmore, hclosing⟩
      refine ⟨t :: inner, closer, more, rfl, hmore, fun rest => ?_⟩
      have hne : ¬(t.isCloser = true ∧ (d : Int) = 0) := by
        rintro ⟨hcloser, hzero⟩
        exact hd hcloser (by omega)
      rw [List.cons_append, closing?, hdepth, if_neg hne, hclosing]
      rfl
    rcases isWhole_cons h with ⟨hopener, hcloser, hrest⟩ | ⟨d, hd, hopener, hcloser, hrest⟩ |
      ⟨hopener, hcloser, -, hrest⟩
    · refine hpass (depth + 2) (fun hc => absurd hc (by simp [hcloser])) ?_ (ih hrest)
      rw [depthAfter_opener hopener]
      omega
    · obtain rfl : depth = d := by omega
      cases depth with
      | zero =>
        refine ⟨[], t, run, rfl, hrest, fun rest => ?_⟩
        simp [closing?, depthAfter_closer hopener hcloser, hcloser]
      | succ depth =>
        refine hpass (depth + 1) (fun _ => by omega) ?_ (ih hrest)
        rw [depthAfter_closer hopener hcloser]
        omega
    · refine hpass (depth + 1) (fun hc => absurd hc (by simp [hcloser])) ?_ (ih hrest)
      rw [depthAfter_other hopener hcloser]
      omega

/-- Within brackets, such a run closes none but its own and has no comma of a list around it. -/
theorem scan_isWhole (h : isWhole depth run = true) {base : Int} (hbase : 0 < base) (more : List Token) :
    closing? (base + depth) (run ++ more) = (closing? base more).map (· + run.length) ∧
      pieces "," (base + depth) (run ++ more) = (pieces "," base more).modifyHead (run ++ ·) := by
  induction run generalizing depth with
  | nil =>
    obtain rfl : depth = 0 := by simpa [isWhole] using h
    have hnil : Passes 1 [] := .nil
    exact ⟨by simp, by simpa using hnil.pieces base hbase more⟩
  | cons t run ih =>
    have hpass : ∀ d : Nat, depthAfter (base + depth) t = base + d → isWhole d run = true →
        closing? (base + depth) (t :: run ++ more) =
            (closing? base more).map (· + (t :: run).length) ∧
          pieces "," (base + depth) (t :: run ++ more) =
            (pieces "," base more).modifyHead (t :: run ++ ·) := by
      intro d hd hrest
      obtain ⟨hclosing, hpieces⟩ := ih hrest
      have hpos : depthAfter (base + depth) t ≠ 0 := by omega
      constructor
      · rw [List.cons_append, closing?, if_neg fun hzero => hpos hzero.2, hd, hclosing, Option.map_map]
        rfl
      · rw [List.cons_append, pieces_cons fun hzero => hpos hzero.1, hd, hpieces,
          List.modifyHead_modifyHead]
        rfl
    rcases isWhole_cons h with ⟨hopener, -, hrest⟩ | ⟨d, rfl, hopener, hcloser, hrest⟩ |
      ⟨hopener, hcloser, -, hrest⟩
    · refine hpass (depth + 1) ?_ hrest
      rw [depthAfter_opener hopener]
      omega
    · refine hpass d ?_ hrest
      rw [depthAfter_closer hopener hcloser]
      omega
    · exact hpass depth (depthAfter_other hopener hcloser _) hrest

theorem passes_of_isWhole (h : isWhole 0 run = true) : Passes 1 run := by
  constructor
  · intro base hbase more
    simpa using (scan_isWhole h hbase more).1
  · intro base hbase more
    have hpos : 0 < base := by omega
    simpa using (scan_isWhole h hpos more).2

theorem operandLength?_skip (taken rest : List Token) :
    operandLength? taken.length (taken ++ rest) =
      (operandLength? 0 rest).map (· + taken.length) := by
  induction taken with
  | nil => simp
  | cons t taken ih =>
    rw [List.length_cons, List.cons_append, operandLength?, ih, Option.map_map]
    rfl

/-- A whole run that a bracket opens goes on to the closer of that bracket. -/
theorem exists_group (hopener : t.isOpener = true) (h : isWhole 0 (t :: run) = true) :
    ∃ inner closer more, run = inner ++ closer :: more ∧ isWhole 0 more = true ∧
      ∀ rest, closing? 0 (t :: (inner ++ closer :: rest)) = some (inner.length + 1) := by
  rcases isWhole_cons h with ⟨-, hcloser, hrest⟩ | ⟨d, hd, -⟩ | ⟨hopener', -⟩
  · obtain ⟨inner, closer, more, hrun, hmore, hclosing⟩ := exists_closer hrest
    refine ⟨inner, closer, more, hrun, hmore, fun rest => ?_⟩
    rw [closing?, depthAfter_opener hopener, hcloser]
    simpa using hclosing rest
  · omega
  · rw [hopener] at hopener'
    exact absurd hopener' (by decide)

/-- The scan of an operand takes a whole run and goes on after it. -/
theorem operandLength?_append (h : isWhole 0 run = true) (rest : List Token) :
    operandLength? 0 (run ++ rest) = (operandLength? 0 rest).map (· + run.length) := by
  -- the scan jumps over brackets, so the induction is on the length of the run
  induction hn : run.length using Nat.strong_induction_on generalizing run with
  | _ n ih =>
    subst hn
    cases run with
    | nil => simp
    | cons t run =>
      have hstep : t.endsOperand = false → operandLength? 0 (t :: (run ++ rest)) =
          if t.isOpener then do
            let n ← closing? 0 (t :: (run ++ rest))
            return (← operandLength? n (run ++ rest)) + 1
          else (operandLength? 0 (run ++ rest)).map (· + 1) := by
        intro hends
        have hends : (t.endsGroup || t.compareOp?.isSome) = false := hends
        rw [operandLength?, hends]
        rfl
      rw [List.cons_append]
      by_cases hopener : t.isOpener = true
      · obtain ⟨inner, closer, more, rfl, hmore, hclosing⟩ := exists_group hopener h
        have hskip : operandLength? (inner.length + 1) (inner ++ closer :: (more ++ rest)) =
            (operandLength? 0 (more ++ rest)).map (· + (inner.length + 1)) := by
          simpa using operandLength?_skip (inner ++ [closer]) (more ++ rest)
        have hlength : (t :: (inner ++ closer :: more)).length = more.length + (inner.length + 1) + 1 := by
          simp only [List.length_cons, List.length_append]
          omega
        rw [hstep (Token.endsOperand_of_isOpener hopener), if_pos hopener, List.append_assoc,
          List.cons_append, hclosing, hlength]
        simp only [Option.bind_eq_bind, Option.bind_some, hskip, ih more.length (by omega) hmore rfl]
        cases operandLength? 0 rest with
        | none => rfl
        | some n => simp [Nat.add_assoc]
      · rcases isWhole_cons h with ⟨hopener', -⟩ | ⟨d, hd, -⟩ | ⟨-, -, hends, hrest⟩
        · exact absurd hopener' hopener
        · omega
        · rw [hstep (hends rfl), if_neg hopener, ih run.length (by simp) hrest rfl, Option.map_map]
          rfl

/-- An operand ends where a part does, and where a comparison stands. -/
theorem operand?_append (h : isWhole 0 run = true)
    (hrest : rest.head?.all Token.endsOperand = true) : operand? (run ++ rest) = some (run, rest) := by
  have hstop : operandLength? 0 rest = some 0 := by
    cases rest with
    | nil => rfl
    | cons t rest =>
      rw [operandLength?]
      exact if_pos hrest
  unfold operand?
  rw [operandLength?_append h, hstop]
  simp

theorem operand?_self (h : isWhole 0 run = true) : operand? run = some (run, []) := by
  have hnil : ([] : List Token).head?.all Token.endsOperand = true := rfl
  simpa using operand?_append h hnil

end Whole

/-! ### Groups -/

def EndsPart (rest : List Token) : Prop := rest.head?.all Token.endsGroup = true

theorem EndsPart.endsOperand {rest : List Token} (h : EndsPart rest) :
    rest.head?.all Token.endsOperand = true ∧ rest.head?.bind Token.compareOp? = none := by
  cases rest with
  | nil => exact ⟨rfl, rfl⟩
  | cons t rest =>
    have ht : t.endsGroup = true := h
    refine ⟨?_, (Token.endsGroup_cases ht).1⟩
    simp [Token.endsOperand, ht]

theorem EndsPart.isAnd {t : Token} (h : t.isAnd = true) (rest : List Token) : EndsPart (t :: rest) :=
  Token.endsGroup_of_isAnd h

theorem EndsPart.isOr {t : Token} (h : t.isOr = true) (rest : List Token) : EndsPart (t :: rest) :=
  Token.endsGroup_of_isOr h

/-- What is left of a whole run after its first parenthesis decides whether that one holds a group. -/
theorem exists_opensGroup {t : Token} {run : List Token} (ht : t.isPunct ["("] = true)
    (h : isWhole 0 (t :: run) = true) :
    ∃ more, isWhole 0 more = true ∧
      ∀ rest, opensGroup (t :: run ++ rest) = (more ++ rest).head?.all Token.endsGroup := by
  have hopener : t.isOpener = true := Token.isOneOf_of_subset ht (by simp)
  obtain ⟨inner, closer, more, rfl, hmore, hclosing⟩ := exists_group hopener h
  refine ⟨more, hmore, fun rest => ?_⟩
  have hindex : (t :: (inner ++ closer :: (more ++ rest)))[inner.length + 1 + 1]? = (more ++ rest).head? := by
    rw [List.getElem?_cons_succ, List.getElem?_append_right (by omega)]
    cases more ++ rest <;> simp
  rw [List.cons_append, List.append_assoc, List.cons_append]
  simp only [opensGroup, ht, hclosing, hindex, Bool.true_and]

/-- A whole run that is no group is none before the end of a part either. -/
theorem opensGroup_append {run : List Token} (hne : run ≠ []) (h : isWhole 0 run = true)
    (hgroup : opensGroup run = false) (rest : List Token) : opensGroup (run ++ rest) = false := by
  obtain ⟨t, run, rfl⟩ := List.exists_cons_of_ne_nil hne
  by_cases ht : t.isPunct ["("] = true
  · obtain ⟨more, -, hnext⟩ := exists_opensGroup ht h
    have hself := hnext []
    rw [List.append_nil, hgroup, List.append_nil] at hself
    rw [hnext]
    cases more with
    | nil => exact absurd hself (by decide)
    | cons next more => exact hself.symm
  · simp [opensGroup, ht]

/-- A whole run before a token that goes on with the part is no group. -/
theorem opensGroup_compare {run : List Token} (hne : run ≠ []) (h : isWhole 0 run = true) {next : Token}
    (hnext : next.endsGroup = false) (rest : List Token) : opensGroup (run ++ next :: rest) = false := by
  obtain ⟨t, run, rfl⟩ := List.exists_cons_of_ne_nil hne
  by_cases ht : t.isPunct ["("] = true
  · obtain ⟨more, hmore, hgroup⟩ := exists_opensGroup ht h
    rw [hgroup]
    cases more with
    | nil => exact hnext
    | cons u more =>
      have hends : u.endsOperand = false := by
        rcases isWhole_cons hmore with ⟨hopener, -⟩ | ⟨d, hd, -⟩ | ⟨-, -, hends, -⟩
        · exact Token.endsOperand_of_isOpener hopener
        · omega
        · exact hends rfl
      exact (Bool.or_eq_false_iff.1 hends).1
  · simp [opensGroup, ht]

/-- A token in parentheses counts as one that opens or closes brackets. -/
theorem Passes.parentheses {opener closer : Token} {run : List Token}
    (hopener : opener.isPunct ["("] = true) (hcloser : closer.isPunct [")"] = true)
    (hrun : Passes 1 run) :
    Passes 0 (opener :: (run ++ [closer])) ∧
      ∀ rest, closing? 0 (opener :: (run ++ closer :: rest)) = some (run.length + 1) := by
  obtain ⟨content, start, stop, text, spaceBefore⟩ := opener
  obtain ⟨content', start', stop', text', spaceBefore'⟩ := closer
  obtain rfl : content = .name .punct "(" := by simpa [Token.isPunct, Token.isOneOf_iff] using hopener
  obtain rfl : content' = .name .punct ")" := by simpa [Token.isPunct, Token.isOneOf_iff] using hcloser
  refine ⟨.bracketed rfl rfl rfl rfl hrun rfl rfl, fun rest => ?_⟩
  exact Passes.closing?_bracketed rfl rfl rfl rfl hrun le_rfl rest

/-- A parenthesis that is closed before the end of a part opens a group. -/
theorem opensGroup_group {opener closer : Token} {run rest : List Token}
    (hopener : opener.isPunct ["("] = true) (hcloser : closer.isPunct [")"] = true)
    (hrun : Passes 1 run) (hrest : EndsPart rest) :
    opensGroup (opener :: (run ++ closer :: rest)) = true := by
  have hindex : (opener :: (run ++ closer :: rest))[run.length + 1 + 1]? = rest.head? := by
    rw [List.getElem?_cons_succ, List.getElem?_append_right (by omega)]
    cases rest <;> simp
  simp only [opensGroup, hopener, (Passes.parentheses hopener hcloser hrun).2, hindex, Bool.true_and]
  exact hrest

/-! ### Parts -/

/-- A part of a condition: its tokens, and the condition that they spell. -/
structure Part where
  run : List Token
  condition? : Option Condition

def Token.negates (t : Token) : Bool := t.isPunct ["!"] || t.isKeyword ["not"]

theorem Token.not_bracket_of_negates {t : Token} (h : t.negates = true) :
    t.isOpener = false ∧ t.isCloser = false := by
  rcases Bool.or_eq_true_iff.1 h with h | h
  · exact Token.not_bracket_of_isPunct h (by decide)
  · exact Token.not_bracket_of_isKeyword h

/-- The part is read as what it spells wherever a part may end after it. -/
structure Part.Reads (ctx : NormalizeContext) (p : Part) : Prop where
  nonempty : p.run ≠ []
  passes : Passes 1 p.run
  reads : ∀ {fuel : Nat}, 4 * p.run.length ≤ fuel → ∀ {rest : List Token}, EndsPart rest →
    conjunct? ctx fuel (p.run ++ rest) = p.condition?.map (·, rest)

section Parts

variable {ctx : NormalizeContext} {run : List Token} {t : Token}

/-- An operand alone is read up to the end of the part. -/
theorem comparison?_operand (h : isWhole 0 run = true) {rest : List Token} (hrest : EndsPart rest) :
    ctx.comparison? (run ++ rest) = (ctx.comparison? run).map fun (c, _) => (c, rest) := by
  obtain ⟨hends, hnone⟩ := hrest.endsOperand
  unfold NormalizeContext.comparison?
  simp only [operand?_append h hends, operand?_self h, Option.bind_eq_bind, Option.bind_some, hnone,
    List.head?_nil, Option.bind_none]
  split
  · rfl
  · split
    · rfl
    · cases ctx.clearValue? run <;> rfl

theorem comparison?_compare {left right : List Token} (hleft : isWhole 0 left = true)
    (hright : isWhole 0 right = true) {op : CompareOp} (ht : t.compareOp? = some op)
    {rest : List Token} (hrest : EndsPart rest) :
    ctx.comparison? (left ++ t :: right ++ rest) =
      (ctx.comparison? (left ++ t :: right)).map fun (c, _) => (c, rest) := by
  obtain ⟨hends, -⟩ := hrest.endsOperand
  have hop : ∀ more, operand? (left ++ t :: more) = some (left, t :: more) := by
    intro more
    refine operand?_append hleft ?_
    simp [Token.endsOperand, ht]
  unfold NormalizeContext.comparison?
  rw [List.append_assoc, List.cons_append]
  simp only [hop, operand?_append hright hends, operand?_self hright, Option.bind_eq_bind, Option.bind_some,
    List.head?_cons, List.tail_cons, ht]
  split
  · rfl
  · cases ctx.clearValue? left <;> cases ctx.clearValue? right <;> rfl

theorem Part.Reads.comparison (hne : run ≠ []) (hpasses : Passes 1 run)
    (hhead : run.head?.any Token.negates = false)
    (hgroup : ∀ rest, EndsPart rest → opensGroup (run ++ rest) = false)
    (hread : ∀ rest, EndsPart rest →
      ctx.comparison? (run ++ rest) = (ctx.comparison? run).map fun (c, _) => (c, rest)) :
    Part.Reads ctx ⟨run, (ctx.comparison? run).map Prod.fst⟩ := by
  refine ⟨hne, hpasses, fun {fuel} hfuel rest hrest => ?_⟩
  have hlength : 0 < run.length := List.length_pos_of_ne_nil hne
  obtain ⟨fuel, rfl⟩ : ∃ n, fuel = n + 1 := ⟨fuel - 1, by dsimp only at hfuel; omega⟩
  have hhead' : ((run ++ rest).head?.any fun t => t.isPunct ["!"] || t.isKeyword ["not"]) = false := by
    rw [List.head?_append_of_ne_nil _ hne]
    exact hhead
  dsimp only
  rw [conjunct?, hhead', if_neg Bool.false_ne_true, hgroup rest hrest, if_neg Bool.false_ne_true,
    hread rest hrest, Option.map_map]
  rfl

theorem Part.Reads.operand (hne : run ≠ []) (h : isWhole 0 run = true)
    (hhead : run.head?.any Token.negates = false) (hgroup : opensGroup run = false) :
    Part.Reads ctx ⟨run, (ctx.comparison? run).map Prod.fst⟩ :=
  .comparison hne (passes_of_isWhole h) hhead (fun rest _ => opensGroup_append hne h hgroup rest)
    fun _ hrest => comparison?_operand h hrest

theorem Part.Reads.compare {left right : List Token} {op : CompareOp} (ht : t.compareOp? = some op)
    (hne : left ≠ []) (hleft : isWhole 0 left = true) (hright : isWhole 0 right = true)
    (hhead : left.head?.any Token.negates = false)
    (hgroup : ∀ more, opensGroup (left ++ t :: more) = false) :
    Part.Reads ctx ⟨left ++ t :: right, (ctx.comparison? (left ++ t :: right)).map Prod.fst⟩ := by
  obtain ⟨hopener, hcloser⟩ := Token.not_bracket_of_compareOp? ht
  have hsign : Passes 1 [t] := .token hopener hcloser (.inr (by decide))
  refine .comparison (by simp) ?_ ?_ (fun rest _ => ?_) fun rest hrest => ?_
  · exact (passes_of_isWhole hleft).append (hsign.append (passes_of_isWhole hright))
  · rw [List.head?_append_of_ne_nil _ hne]
    exact hhead
  · rw [List.append_assoc]
    exact hgroup _
  · exact comparison?_compare hleft hright ht hrest

theorem Part.Reads.negated {p : Part} (hp : p.Reads ctx) (ht : t.negates = true) :
    Part.Reads ctx ⟨t :: p.run, p.condition?.map .not⟩ := by
  obtain ⟨hopener, hcloser⟩ := Token.not_bracket_of_negates ht
  refine ⟨List.cons_ne_nil _ _, Passes.append (.token hopener hcloser (.inr (by decide))) hp.passes,
    fun {fuel} hfuel rest hrest => ?_⟩
  dsimp only [List.length_cons] at hfuel
  obtain ⟨fuel, rfl⟩ : ∃ n, fuel = n + 1 := ⟨fuel - 1, by omega⟩
  have hhead : ((t :: p.run ++ rest).head?.any fun t => t.isPunct ["!"] || t.isKeyword ["not"]) = true := ht
  dsimp only
  rw [conjunct?, hhead, if_pos rfl, List.cons_append, List.tail_cons,
    hp.reads (by omega) hrest]
  cases p.condition? <;> rfl

end Parts

/-! ### Chains -/

/-- Parts with joins between them. -/
inductive Chain (α : Type) where
  | last (p : α)
  /-- A part and what it is joined with in a conjunction. -/
  | both (p : α) (join : Token) (rest : Chain α)
  /-- A part and what it is joined with in a disjunction. -/
  | either (p : α) (join : Token) (rest : Chain α)

/-- The conjunction of the members, a single one itself. -/
def conjoin : List Condition → Condition
  | [c] => c
  | cs => .all cs

def disjoin : List Condition → Condition
  | [c] => c
  | cs => .any cs

/-- How two chains are joined, and by which token. -/
inductive Link where
  | both (join : Token)
  | either (join : Token)

def Link.join : Link → Token
  | both join => join
  | either join => join

def Link.isJoin : Link → Bool
  | both join => join.isAnd
  | either join => join.isOr

namespace Chain

def tokens : Chain Part → List Token
  | last p => p.run
  | both p join rest => p.run ++ join :: rest.tokens
  | either p join rest => p.run ++ join :: rest.tokens

def laterTokens : Chain Part → List Token
  | last _ => []
  | both _ _ rest => rest.laterTokens
  | either _ join rest => join :: rest.tokens

/-- The members of the first conjunction. -/
def row? : Chain Part → Option (List Condition)
  | last p => p.condition?.map ([·])
  | both p _ rest => do return (← p.condition?) :: (← rest.row?)
  | either p _ _ => p.condition?.map ([·])

/-- The members of the disjunction after the first conjunction. -/
def later? : Chain Part → Option (List Condition)
  | last _ => some []
  | both _ _ rest => rest.later?
  | either _ _ rest => do return conjoin (← rest.row?) :: (← rest.later?)

/-- The condition that a chain spells. -/
def condition? (c : Chain Part) : Option Condition := do
  return disjoin (conjoin (← c.row?) :: (← c.later?))

/-- Each part of the chain is read, and each join is one. -/
def Reads (ctx : NormalizeContext) : Chain Part → Prop
  | last p => p.Reads ctx
  | both p join rest => p.Reads ctx ∧ join.isAnd = true ∧ rest.Reads ctx
  | either p join rest => p.Reads ctx ∧ join.isOr = true ∧ rest.Reads ctx

end Chain

section Reading

variable {ctx : NormalizeContext} {c : Chain Part} {fuel : Nat} {rest : List Token}

theorem passes_join {t : Token} (h : t.isAnd = true ∨ t.isOr = true) : Passes 1 [t] := by
  have hends : t.endsGroup = true := by
    simp only [Token.endsGroup, Bool.or_eq_true]
    exact .inl h
  have hcloser : t.isCloser = false := by
    rcases (Token.endsGroup_cases hends).2 with ⟨-, -, ht⟩ | ⟨-, -, ht⟩ | ⟨hand, hor, -⟩
    · exact ht
    · exact ht
    · simp [hand, hor] at h
  have hopener : t.isOpener = false := by
    by_contra hopener
    have := Token.endsOperand_of_isOpener (by simpa using hopener)
    simp [Token.endsOperand, hends] at this
  exact .token hopener hcloser (.inr (by decide))

theorem Chain.Reads.passes (h : c.Reads ctx) : Passes 1 c.tokens := by
  induction c with
  | last p =>
    have hp : p.Reads ctx := h
    exact hp.passes
  | both p join rest ih =>
    obtain ⟨hp, hjoin, hrest⟩ := h
    exact hp.passes.append (Passes.append (passes_join (.inl hjoin)) (ih hrest))
  | either p join rest ih =>
    obtain ⟨hp, hjoin, hrest⟩ := h
    exact hp.passes.append (Passes.append (passes_join (.inr hjoin)) (ih hrest))

theorem Chain.Reads.tokens_ne_nil (h : c.Reads ctx) : c.tokens ≠ [] := by
  cases c with
  | last p =>
    have hp : p.Reads ctx := h
    exact hp.nonempty
  | both p join rest => simp [tokens]
  | either p join rest => simp [tokens]

def EndsChain (rest : List Token) : Prop := rest.head?.all (·.isPunct [")"]) = true

theorem EndsChain.cases (h : EndsChain rest) :
    EndsPart rest ∧ rest.head?.any Token.isAnd = false ∧ rest.head?.any Token.isOr = false := by
  cases rest with
  | nil => exact ⟨rfl, rfl, rfl⟩
  | cons t rest =>
    have ht : t.isPunct [")"] = true := h
    have hcloser : t.isCloser = true := Token.isOneOf_of_subset ht (by simp)
    refine ⟨Token.endsGroup_of_close ht, ?_⟩
    rcases (Token.endsGroup_cases (Token.endsGroup_of_close ht)).2 with ⟨-, -, hnot⟩ | ⟨-, -, hnot⟩ |
      ⟨hand, hor, -⟩
    · rw [hcloser] at hnot
      exact absurd hnot (by decide)
    · rw [hcloser] at hnot
      exact absurd hnot (by decide)
    · exact ⟨hand, hor⟩

/-- The members of a conjunction at the start of a run, and the rest. -/
def conjuncts? (ctx : NormalizeContext) (fuel : Nat) (run : List Token) :
    Option (List Condition × List Token) := do
  let (first, rest) ← conjunct? ctx fuel run
  let (more, rest) ← moreConjuncts? ctx fuel rest
  return (first :: more, rest)

/-- The members of a disjunction at the start of a run, and the rest. -/
def disjuncts? (ctx : NormalizeContext) (fuel : Nat) (run : List Token) :
    Option (List Condition × List Token) := do
  let (first, rest) ← disjunct? ctx fuel run
  let (more, rest) ← moreDisjuncts? ctx fuel rest
  return (first :: more, rest)

theorem disjunct?_succ (run : List Token) :
    disjunct? ctx (fuel + 1) run = (conjuncts? ctx fuel run).map fun (cs, rest) => (conjoin cs, rest) := by
  rw [disjunct?, conjuncts?]
  cases conjunct? ctx fuel run with
  | none => rfl
  | some read =>
    simp only [Option.bind_eq_bind, Option.bind_some]
    cases moreConjuncts? ctx fuel read.2 with
    | none => rfl
    | some more =>
      obtain ⟨cs, rest⟩ := more
      cases cs <;> rfl

theorem disjunction?_succ (run : List Token) :
    disjunction? ctx (fuel + 1) run =
      (disjuncts? ctx fuel run).map fun (cs, rest) => (disjoin cs, rest) := by
  rw [disjunction?, disjuncts?]
  cases disjunct? ctx fuel run with
  | none => rfl
  | some read =>
    simp only [Option.bind_eq_bind, Option.bind_some]
    cases moreDisjuncts? ctx fuel read.2 with
    | none => rfl
    | some more =>
      obtain ⟨cs, rest⟩ := more
      cases cs <;> rfl

theorem moreConjuncts?_join {t : Token} (ht : t.isAnd = true) (run : List Token) :
    moreConjuncts? ctx (fuel + 1) (t :: run) = conjuncts? ctx fuel run := by
  rw [moreConjuncts?, if_pos (by simpa using ht)]
  rfl

theorem moreConjuncts?_end {run : List Token} (h : run.head?.any Token.isAnd = false) :
    moreConjuncts? ctx (fuel + 1) run = some ([], run) := by
  rw [moreConjuncts?, if_neg (by simp [h])]

theorem moreDisjuncts?_join {t : Token} (ht : t.isOr = true) (run : List Token) :
    moreDisjuncts? ctx (fuel + 1) (t :: run) = disjuncts? ctx fuel run := by
  rw [moreDisjuncts?, if_pos (by simpa using ht)]
  rfl

theorem moreDisjuncts?_end {run : List Token} (h : run.head?.any Token.isOr = false) :
    moreDisjuncts? ctx (fuel + 1) run = some ([], run) := by
  rw [moreDisjuncts?, if_neg (by simp [h])]

/-- The first conjunction of a chain ends before the first join of a disjunction. -/
theorem conjuncts?_chain (hc : c.Reads ctx) (hfuel : 4 * c.tokens.length ≤ fuel)
    (hrest : EndsChain rest) :
    conjuncts? ctx fuel (c.tokens ++ rest) = c.row?.map (·, c.laterTokens ++ rest) := by
  obtain ⟨hends, hand, -⟩ := hrest.cases
  induction c generalizing fuel with
  | last p =>
    have hp : p.Reads ctx := hc
    have hlength := List.length_pos_of_ne_nil hp.nonempty
    dsimp only [Chain.tokens] at hfuel ⊢
    obtain ⟨fuel, rfl⟩ : ∃ n, fuel = n + 1 := ⟨fuel - 1, by omega⟩
    rw [conjuncts?, hp.reads hfuel hends, Chain.row?]
    cases p.condition? with
    | none => rfl
    | some first =>
      simp only [Option.map_some, Option.bind_eq_bind, Option.bind_some, moreConjuncts?_end hand]
      rfl
  -- the members behind the join are those of the rest of the chain
  | both p join more ih =>
    obtain ⟨hp, hjoin, hmore⟩ := hc
    have hlength := List.length_pos_of_ne_nil hp.nonempty
    simp only [Chain.tokens, List.length_append, List.length_cons] at hfuel
    obtain ⟨fuel, rfl⟩ : ∃ n, fuel = n + 1 := ⟨fuel - 1, by omega⟩
    rw [conjuncts?, Chain.tokens, List.append_assoc, List.cons_append,
      hp.reads (by omega) (.isAnd hjoin _), Chain.row?]
    have hrow : conjuncts? ctx fuel (more.tokens ++ rest) =
        more.row?.map (·, more.laterTokens ++ rest) := ih hmore (by omega)
    cases p.condition? with
    | none => rfl
    | some first =>
      simp only [Option.map_some, Option.bind_eq_bind, Option.bind_some, moreConjuncts?_join hjoin, hrow]
      cases more.row? <;> rfl
  | either p join more ih =>
    obtain ⟨hp, hjoin, hmore⟩ := hc
    have hlength := List.length_pos_of_ne_nil hp.nonempty
    simp only [Chain.tokens, List.length_append, List.length_cons] at hfuel
    obtain ⟨fuel, rfl⟩ : ∃ n, fuel = n + 1 := ⟨fuel - 1, by omega⟩
    rw [conjuncts?, Chain.tokens, List.append_assoc, List.cons_append,
      hp.reads (by omega) (.isOr hjoin _), Chain.row?]
    cases p.condition? with
    | none => rfl
    | some first =>
      -- a join of a disjunction is none of a conjunction, so the row is at its end
      have hstop : (join :: (more.tokens ++ rest)).head?.any Token.isAnd = false :=
        Token.not_isAnd_of_isOr hjoin
      simp only [Option.map_some, Option.bind_eq_bind, Option.bind_some, moreConjuncts?_end hstop]
      rfl

theorem Chain.length_laterTokens_le (c : Chain Part) : c.laterTokens.length ≤ c.tokens.length := by
  induction c with
  | last p => exact Nat.zero_le _
  | both p join rest ih =>
    simp only [laterTokens, tokens, List.length_append, List.length_cons]
    omega
  | either p join rest ih =>
    simp only [laterTokens, tokens, List.length_append, List.length_cons]
    omega

theorem disjuncts?_of_laterTokens (hc : c.Reads ctx) (hfuel : 4 * c.tokens.length < fuel)
    (hrest : EndsChain rest)
    (hlater : moreDisjuncts? ctx fuel (c.laterTokens ++ rest) = c.later?.map (·, rest)) :
    disjuncts? ctx fuel (c.tokens ++ rest) =
      (do return (conjoin (← c.row?) :: (← c.later?), rest)) := by
  obtain ⟨fuel, rfl⟩ : ∃ n, fuel = n + 1 := ⟨fuel - 1, by omega⟩
  rw [disjuncts?, disjunct?_succ, conjuncts?_chain hc (by omega) hrest, Option.map_map]
  cases c.row? with
  | none => rfl
  | some row =>
    simp only [Option.map_some, Function.comp_apply, Option.bind_eq_bind, Option.bind_some, hlater]
    cases c.later? <;> rfl

/-- The rest of a chain is read as the other members of the disjunction. -/
theorem moreDisjuncts?_chain (hc : c.Reads ctx) (hfuel : 4 * c.laterTokens.length < fuel)
    (hrest : EndsChain rest) :
    moreDisjuncts? ctx fuel (c.laterTokens ++ rest) = c.later?.map (·, rest) := by
  obtain ⟨fuel, rfl⟩ : ∃ n, fuel = n + 1 := ⟨fuel - 1, by omega⟩
  induction c generalizing fuel with
  | last p => exact moreDisjuncts?_end hrest.cases.2.2
  | both p join more ih => exact ih hc.2.2 fuel hfuel
  | either p join more ih =>
    obtain ⟨hp, hjoin, hmore⟩ := hc
    have hle := more.length_laterTokens_le
    simp only [Chain.laterTokens, List.length_cons] at hfuel
    obtain ⟨fuel, rfl⟩ : ∃ n, fuel = n + 1 := ⟨fuel - 1, by omega⟩
    rw [Chain.laterTokens, List.cons_append, moreDisjuncts?_join hjoin,
      disjuncts?_of_laterTokens hmore (by omega) hrest (ih hmore fuel (by omega)), Chain.later?]
    cases more.row? <;> cases more.later? <;> rfl

/-- A chain is read as what it spells. -/
theorem disjunction?_chain (hc : c.Reads ctx) (hfuel : 4 * c.tokens.length + 2 ≤ fuel)
    (hrest : EndsChain rest) :
    disjunction? ctx fuel (c.tokens ++ rest) = c.condition?.map (·, rest) := by
  obtain ⟨fuel, rfl⟩ : ∃ n, fuel = n + 1 := ⟨fuel - 1, by omega⟩
  have hle := c.length_laterTokens_le
  rw [disjunction?_succ, disjuncts?_of_laterTokens hc (by omega) hrest
    (moreDisjuncts?_chain hc (by omega) hrest), Chain.condition?]
  cases c.row? <;> cases c.later? <;> rfl

theorem Part.Reads.grouped {opener closer : Token} (hopener : opener.isPunct ["("] = true)
    (hcloser : closer.isPunct [")"] = true) (hc : c.Reads ctx) :
    Part.Reads ctx ⟨opener :: (c.tokens ++ [closer]), c.condition?⟩ := by
  refine ⟨List.cons_ne_nil _ _, (Passes.parentheses hopener hcloser hc.passes).1.mono (by decide),
    fun {fuel} hfuel rest hrest => ?_⟩
  simp only [List.length_cons, List.length_append] at hfuel
  obtain ⟨fuel, rfl⟩ : ∃ n, fuel = n + 1 := ⟨fuel - 1, by omega⟩
  have hgroup := opensGroup_group hopener hcloser hc.passes hrest
  have hends : EndsChain (closer :: rest) := hcloser
  have hhead : ((opener :: (c.tokens ++ closer :: rest)).head?.any fun t =>
      t.isPunct ["!"] || t.isKeyword ["not"]) = false := by
    obtain ⟨v, hv, hcontent⟩ := Token.isOneOf_iff.1 hopener
    obtain rfl := List.mem_singleton.1 hv
    simp only [List.head?_cons, Option.any_some, Token.isPunct, Token.isKeyword, Token.isOneOf, hcontent]
    rfl
  dsimp only
  rw [List.cons_append, List.append_assoc, List.singleton_append, conjunct?, hhead,
    if_neg Bool.false_ne_true, hgroup, if_pos rfl, List.tail_cons,
    disjunction?_chain hc (by omega) hends]
  cases c.condition? with
  | none => rfl
  | some inner => simp [hcloser]

/-- A run that is a chain is read as what the chain spells. -/
theorem condition?_chain (hc : c.Reads ctx) : ctx.condition? c.tokens = c.condition? := by
  have hfuel : 4 * c.tokens.length + 2 ≤ 4 * (c.tokens.length + 1) := by omega
  have hnil : EndsChain [] := rfl
  have hread := disjunction?_chain hc hfuel hnil
  rw [List.append_nil] at hread
  unfold NormalizeContext.condition?
  rw [hread]
  cases c.condition? <;> rfl

end Reading

/-! ### Chains put together -/

namespace Chain

variable {α β : Type}

def append (link : Link) : Chain α → Chain α → Chain α
  | last p, d =>
    match link with
    | .both join => both p join d
    | .either join => either p join d
  | both p join rest, d => both p join (rest.append link d)
  | either p join rest, d => either p join (rest.append link d)

def mapHead (f : α → α) : Chain α → Chain α
  | last p => last (f p)
  | both p join rest => both (f p) join rest
  | either p join rest => either (f p) join rest

def map (f : α → β) : Chain α → Chain β
  | last p => last (f p)
  | both p join rest => both (f p) join (rest.map f)
  | either p join rest => either (f p) join (rest.map f)

theorem map_append (f : α → β) (link : Link) (c d : Chain α) :
    (c.append link d).map f = (c.map f).append link (d.map f) := by
  induction c with
  | last p => cases link <;> rfl
  | both p join rest ih => simp only [append, map, ih]
  | either p join rest ih => simp only [append, map, ih]

theorem tokens_append (link : Link) (c d : Chain Part) :
    (c.append link d).tokens = c.tokens ++ link.join :: d.tokens := by
  induction c with
  | last p => cases link <;> rfl
  | both p join rest ih => simp [append, tokens, ih]
  | either p join rest ih => simp [append, tokens, ih]

variable {ctx : NormalizeContext} {c d : Chain Part}

theorem Reads.append {link : Link} (hlink : link.isJoin = true) (hc : c.Reads ctx) (hd : d.Reads ctx) :
    (c.append link d).Reads ctx := by
  induction c with
  | last p => cases link <;> exact ⟨hc, hlink, hd⟩
  | both p join rest ih => exact ⟨hc.1, hc.2.1, ih hc.2.2⟩
  | either p join rest ih => exact ⟨hc.1, hc.2.1, ih hc.2.2⟩

theorem Reads.negated {t : Token} (ht : t.negates = true) (hc : c.Reads ctx) :
    (c.mapHead fun p => ⟨t :: p.run, p.condition?.map .not⟩).Reads ctx := by
  cases c with
  | last p =>
    have hp : p.Reads ctx := hc
    exact hp.negated ht
  | both p join rest => exact ⟨hc.1.negated ht, hc.2⟩
  | either p join rest => exact ⟨hc.1.negated ht, hc.2⟩

end Chain

end Cookbook
