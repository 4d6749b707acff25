import Cookbook.Proofs.Value.Reading

/-!
What one step of the reading of values does. A run is kept as written, or its value is read off its words,
is joined of the parts of a text, or is made of what shorter runs are read as. There is nothing else, and
each of these says which warnings come with the value.

* `NormalizeContext.Plain` are the values that are read off words;
* `NormalizeContext.Makes` are the results of one step, `NormalizeContext.makes_wholeRun` proves it;
* `NormalizeContext.normalize_induct` goes from the steps to the whole reading.
-/

namespace Cookbook

namespace NormalizeContext

/-- A value that is read off the words of a run, without a warning. -/
inductive Plain (ctx : NormalizeContext) : Value → Prop
  | literal (s : Scalar) : Plain ctx (.literal s)
  | symbol (name : Text) : Plain ctx (.symbol name)
  | path (scope : Scope) {keys : List Text} (hkeys : keys ≠ []) : Plain ctx (.path scope keys)
  | words (words : List Text) (symbols : Bool) :
      Plain ctx (.list (words.map fun w => if symbols then .symbol w else .ofText w))
  | constant {name : Text} {v : Value} (h : ctx.constants.get? name = some v) : Plain ctx v

/-- What one step of the reading makes of a run, given what it reads on the way by `whole`. -/
inductive Makes (ctx : NormalizeContext) (whole : List Token → Normalized) (run : List Token) :
    Normalized → Prop
  | kept {sub : List Token} {finding : Text → Finding} (hsub : sub ⊆ run)
      (hfinding : finding ∈ [Finding.unrecognizedValue, .lazyValue, .unknownConstant]) :
      Makes ctx whole run (ctx.keep sub finding)
  | plain {v : Value} (h : ctx.Plain v) : Makes ctx whole run (.clean v)
  | text {t : Token} {flavor : Flavor} {parts : List StringPart} (ht : t ∈ run)
      (hcontent : t.content = .string flavor parts) :
      Makes ctx whole run ⟨.interpolate (Normalized.gather (parts.filterMap (part? whole))).1,
        (Normalized.gather (parts.filterMap (part? whole))).2⟩
  | list {pieces : List (List Token)} (h : ∀ piece ∈ pieces, piece ⊆ run) :
      Makes ctx whole run ⟨.list (Normalized.gather (pieces.map whole)).1,
        (Normalized.gather (pieces.map whole)).2⟩
  | map {pairs : List (Text × List Token)} (h : ∀ pair ∈ pairs, pair.2 ⊆ run) :
      Makes ctx whole run ⟨.map (pairs.map fun pair => ⟨pair.1, (whole pair.2).value⟩),
        pairs.flatMap fun pair => (whole pair.2).diagnostics⟩
  | inside {sub : List Token} (hsub : sub ⊆ run) : Makes ctx whole run (whole sub)

/-! ### Values of words -/

section Plain

variable {ctx : NormalizeContext} {v : Value}

theorem plain_number? {digits : Text} {negative : Bool} (h : number? digits negative = some v) :
    ctx.Plain v := by
  unfold number? at h
  obtain ⟨n, -, h⟩ := Option.bind_eq_some_iff.1 h
  split at h <;> obtain rfl := Option.some.inj h <;> exact .literal _

theorem plain_numberToken? {spelling : Text} (h : numberToken? spelling = some v) : ctx.Plain v := by
  unfold numberToken? at h
  dsimp only at h
  split at h
  · obtain rfl := Option.some.inj h
    exact .literal _
  · exact plain_number? h

theorem plain_path? {root : Text} {rest : List Token} {n : Nat} (h : ctx.path? root rest = some (v, n)) :
    ctx.Plain v := by
  have hkeys : ∀ (scope : Scope) (lead : Nat),
      ((readKeys (scope == .node || scope == .newResource) ctx.constants (rest.drop lead)).bind
        fun read => if read.1.isEmpty then none
          else some (Value.path scope read.1, 1 + lead + read.2)) = some (v, n) → ctx.Plain v := by
    intro scope lead hread
    obtain ⟨⟨keys, taken⟩, -, hpath⟩ := Option.bind_eq_some_iff.1 hread
    obtain ⟨hne, hpath⟩ := Option.ite_none_left_eq_some.1 hpath
    obtain ⟨rfl, -⟩ := Prod.mk.inj (Option.some.inj hpath)
    exact .path scope (by simpa using hne)
  unfold path? at h
  split at h
  · split at h
    · split at h
      · split at h
        · exact hkeys _ 2 h
        · exact hkeys .node 0 h
      · exact hkeys .node 0 h
    · exact hkeys .node 0 h
  · obtain ⟨⟨scope, lead⟩, -, h⟩ := Option.bind_eq_some_iff.1 h
    exact hkeys scope lead h

end Plain

/-! ### One step -/

/-- A part of a text is taken as it is, or is code that is read. -/
theorem part?_cases {whole : List Token → Normalized} {part : StringPart} {n : Normalized}
    (h : part? whole part = some n) : (∃ value, n = .clean (.ofText value)) ∨
      ∃ source offset, part = .code source offset ∧ n = whole (lexInline source offset) := by
  unfold part? at h
  split at h
  · obtain rfl := Option.some.inj h
    exact .inl ⟨_, rfl⟩
  · split at h
    · exact absurd h (by simp)
    · obtain rfl := Option.some.inj h
      exact .inr ⟨_, _, rfl, rfl⟩

section Step

variable {ctx : NormalizeContext} {whole : List Token → Normalized} {run : List Token}

theorem makes_stringValue {t : Token} {flavor : Flavor} {parts : List StringPart} (ht : t ∈ run)
    (hcontent : t.content = .string flavor parts) :
    ctx.Makes whole run (ctx.stringValue whole t flavor parts) := by
  unfold stringValue
  split
  · exact .kept (fun u hu => List.mem_singleton.1 hu ▸ ht) List.mem_cons_self
  · split
    · refine .plain ?_
      split
      · exact .symbol _
      · exact .literal _
    · exact .text ht hcontent

theorem makes_entries? {args : List Argument} (hargs : ∀ arg ∈ args, arg.tokens ⊆ run)
    {entries : List Entry} {warnings : List Diagnostic} (h : entries? whole args = some (entries, warnings)) :
    ctx.Makes whole run ⟨.map entries, warnings⟩ := by
  unfold entries? at h
  obtain ⟨pairs, hpairs, h⟩ := Option.bind_eq_some_iff.1 h
  obtain ⟨rfl, rfl⟩ := Prod.mk.inj (Option.some.inj h)
  rw [List.map_map, List.flatMap_map]
  refine .map fun pair hpair => ?_
  obtain ⟨arg, harg, hkey⟩ := mem_of_mapM_eq_some hpairs hpair
  exact Argument.tokens_of_keyword? hkey ▸ hargs arg harg

theorem makes_bracketed? {opener : Token} {n : Normalized} {taken : Nat}
    (h : bracketed? whole opener run = some (n, taken)) : ctx.Makes whole run n := by
  unfold bracketed? at h
  obtain ⟨close, -, h⟩ := Option.bind_eq_some_iff.1 h
  have hinner : (run.take close).drop 1 ⊆ run :=
    ((List.drop_sublist _ _).trans (List.take_sublist _ _)).subset
  dsimp only at h
  generalize (run.take close).drop 1 = inner at h hinner
  split at h
  · obtain ⟨rfl, -⟩ := Prod.mk.inj (Option.some.inj h)
    refine .list fun piece hpiece => List.Subset.trans ?_ hinner
    exact (sublist_of_mem_splitTopLevel (List.mem_filter.1 hpiece).1).subset
  · split at h
    · obtain ⟨⟨entries, warnings⟩, hentries, h⟩ := Option.bind_eq_some_iff.1 h
      obtain ⟨rfl, -⟩ := Prod.mk.inj (Option.some.inj h)
      refine makes_entries? (fun arg harg => ?_) hentries
      exact List.Subset.trans (Argument.sublist_of_mem_ofRun harg).subset hinner
    · obtain ⟨-, h⟩ := Option.ite_none_left_eq_some.1 h
      obtain ⟨rfl, -⟩ := Prod.mk.inj (Option.some.inj h)
      exact .inside hinner

theorem makes_primary? {n : Normalized} {taken : Nat} (h : ctx.primary? whole run = some (n, taken)) :
    ctx.Makes whole run n := by
  cases run with
  | nil => exact absurd h (by simp [primary?])
  | cons t rest =>
    unfold primary? at h
    dsimp only at h
    split at h
    case h_1 flavor parts hcontent =>
      obtain ⟨rfl, -⟩ := Prod.mk.inj (Option.some.inj h)
      exact makes_stringValue List.mem_cons_self hcontent
    case h_2 words symbols _ =>
      obtain ⟨rfl, -⟩ := Prod.mk.inj (Option.some.inj h)
      exact .plain (.words words symbols)
    case h_3 value _ =>
      obtain ⟨rfl, -⟩ := Prod.mk.inj (Option.some.inj h)
      exact .plain (.symbol value)
    case h_4 value _ =>
      obtain ⟨v, hv, h⟩ := Option.map_eq_some_iff.1 h
      obtain ⟨rfl, -⟩ := Prod.mk.inj h
      exact .plain (plain_numberToken? hv)
    case h_5 value _ =>
      split_ifs at h
      all_goals
        obtain ⟨rfl, -⟩ := Prod.mk.inj (Option.some.inj h)
        exact .plain (.literal _)
    case h_6 value _ =>
      obtain ⟨-, h⟩ := Option.ite_none_left_eq_some.1 h
      obtain ⟨v, hv, h⟩ := Option.map_eq_some_iff.1 h
      obtain ⟨rfl, -⟩ := Prod.mk.inj h
      exact .plain (.constant hv)
    case h_7 value _ =>
      split at h
      · rename_i v hv
        obtain ⟨rfl, -⟩ := Prod.mk.inj (Option.some.inj h)
        exact .plain (.constant (Option.ite_none_left_eq_some.1 hv).2)
      · obtain ⟨⟨v, m⟩, hv, h⟩ := Option.map_eq_some_iff.1 h
        obtain ⟨rfl, -⟩ := Prod.mk.inj h
        exact .plain (plain_path? hv)
    case h_8 value _ =>
      split at h
      · split at h
        · obtain ⟨-, h⟩ := Option.ite_none_left_eq_some.1 h
          obtain ⟨digits, -, h⟩ := Option.bind_eq_some_iff.1 h
          obtain ⟨v, hv, h⟩ := Option.bind_eq_some_iff.1 h
          obtain ⟨rfl, -⟩ := Prod.mk.inj (Option.some.inj h)
          exact .plain (plain_number? hv)
        · exact absurd h (by simp)
      · split at h
        · exact makes_bracketed? h
        · exact absurd h (by simp)
    case h_9 => exact absurd h (by simp)

/-- What a step makes of a whole run is one of the forms. -/
theorem makes_wholeRun (run : List Token) : ctx.Makes whole run (ctx.wholeRun whole run) := by
  have hkeep : ctx.Makes whole run (ctx.keep run .unrecognizedValue) :=
    .kept (List.Subset.refl _) List.mem_cons_self
  rw [wholeRun_eq]
  split
  · exact .kept (List.Subset.refl _) (List.mem_cons_of_mem _ List.mem_cons_self)
  · split
    · exact .kept (List.Subset.refl _) (List.mem_cons_of_mem _ (List.mem_cons_of_mem _ List.mem_cons_self))
    · split
      · rename_i entries warnings hentries
        refine makes_entries? (fun arg harg => ?_) (Option.ite_none_left_eq_some.1 hentries).2
        exact (Argument.sublist_of_mem_ofRun harg).subset
      · split
        · rename_i n taken hprimary
          split
          · exact makes_primary? hprimary
          · exact hkeep
        · exact hkeep

end Step

/-! ### The whole reading -/

/-- What holds of a run kept as written, and of what a step makes where it holds of what is read on the way,
holds of what every run is read as. -/
theorem normalize_induct {ctx : NormalizeContext} {Q : List Token → Normalized → Prop}
    (hkeep : ∀ run, Q run (ctx.keep run .unrecognizedValue))
    (hstep : ∀ whole run n, (∀ sub, Q sub (whole sub)) → ctx.Makes whole run n → Q run n) (run : List Token) :
    Q run (ctx.normalize run) := by
  have hread : ∀ fuel run, Q run (ctx.readRun fuel run) := by
    intro fuel
    induction fuel with
    | zero => exact hkeep
    | succ fuel ih => exact fun run => hstep _ run _ ih (makes_wholeRun run)
  unfold normalize
  split
  · exact hstep _ run _ (hread 0) (.plain (.literal _))
  · exact hread _ run

end NormalizeContext

end Cookbook
