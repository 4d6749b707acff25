import Cookbook.Proofs.Lists
import Cookbook.Proofs.Call
import Cookbook.Proofs.Position
import Cookbook.Proofs.Token.Bounds
import Cookbook.Value.Normalize
import Mathlib.Data.List.Basic

/-!
Values do not depend on where a text stands. A run is read from its own tokens and from shorter runs,
so that its value depends neither on the fuel, once there is enough, nor on the text around it.

* `Inner run sub` says which runs are read on the way to the value of a run;
* `NormalizeContext.wholeRun_shift` is one step: equal values inside give equal values;
* `NormalizeContext.readRun_shift` is the whole reading, with any two amounts of fuel that are enough;
* `NormalizeContext.normalize_shift` is what other modules use.
-/

namespace Cookbook

/-- A run that is read on the way to the value of `run`: a shorter one made of its tokens, or the
code in one of its texts. -/
inductive Inner (run : List Token) : List Token → Prop
  | shorter {sub : List Token} (hsub : sub ⊆ run) (hlen : sub.length < run.length) : Inner run sub
  | code {t : Token} {flavor : Flavor} {parts : List StringPart} {source : Text} {offset : Nat}
      (ht : t ∈ run) (hcontent : t.content = .string flavor parts)
      (hpart : .code source offset ∈ parts) : Inner run (lexInline source offset)

/-! ### Keys and paths -/

section Keys

variable (k : Nat) (constants : Bindings Value)

@[simp] theorem keyText?_shift (t : Token) : keyText? constants (t.shift k) = keyText? constants t := by
  obtain ⟨content, start, stop, text, spaceBefore⟩ := t
  cases content <;> simp [keyText?, Token.shift, TokenContent.shift]

theorem isDottedKey_shift (name : Text) (next : Option Token) :
    isDottedKey name (next.map (Token.shift k)) = isDottedKey name next := by
  simp [isDottedKey, Option.any_map]

theorem readKeys_shift (dotted : Bool) (run : List Token) :
    readKeys dotted constants (run.map (Token.shift k)) = readKeys dotted constants run := by
  fun_induction readKeys dotted constants run with
  | case1 => rfl
  | case2 t h key close rest hclose ih =>
    simp only [List.map_cons, readKeys, Token.isPunct_shift, Token.spaceBefore_shift, h, hclose,
      if_true, keyText?_shift, ih]
  | case3 t h key close rest hclose =>
    simp only [List.map_cons, readKeys, Token.isPunct_shift, Token.spaceBefore_shift, h, hclose,
      if_true]
    rfl
  | case4 t rest h hshort =>
    cases rest with
    | nil =>
      simp only [List.map_cons, List.map_nil, readKeys, Token.isPunct_shift,
        Token.spaceBefore_shift, h, if_true]
    | cons key rest =>
      cases rest with
      | nil =>
        simp only [List.map_cons, List.map_nil, readKeys, Token.isPunct_shift,
          Token.spaceBefore_shift, h, if_true]
      | cons close rest => exact (hshort key close rest rfl).elim
  | case5 t h hdot key rest name hname hkey ih =>
    rw [List.map_cons, List.map_cons, readKeys.eq_def]
    simp only [Token.isPunct_shift, Token.spaceBefore_shift, h, hdot, Token.valueOf?_shift, hname,
      List.head?_map, isDottedKey_shift, hkey, if_true, ih]
    rfl
  | case6 t h hdot key rest name hname hkey =>
    rw [List.map_cons, List.map_cons, readKeys.eq_def]
    simp only [Token.isPunct_shift, Token.spaceBefore_shift, h, hdot, Token.valueOf?_shift, hname,
      List.head?_map, isDottedKey_shift, hkey, if_true]
    rfl
  | case7 t h hdot key rest hname =>
    rw [List.map_cons, List.map_cons, readKeys.eq_def]
    simp only [Token.isPunct_shift, Token.spaceBefore_shift, h, hdot, Token.valueOf?_shift, hname,
      if_true]
    rfl
  | case8 t h hdot =>
    simp only [List.map_cons, List.map_nil, readKeys, Token.isPunct_shift,
      Token.spaceBefore_shift, h, hdot, if_true]
    rfl
  | case9 t rest h hdot =>
    rw [List.map_cons, readKeys.eq_def]
    simp only [Token.isPunct_shift, Token.spaceBefore_shift, h, hdot]
    rfl

end Keys

theorem sourceOf_shift {whole part : LineIndex} {before after : Text}
    (h : whole.Embeds part before after) {run : List Token}
    (hrun : ∀ t ∈ run, t.stop ≤ part.text.length) :
    sourceOf whole.text (run.map (Token.shift before.length)) = sourceOf part.text run := by
  unfold sourceOf
  rw [List.head?_map, List.getLast?_map]
  cases run.head? with
  | none => rfl
  | some first =>
    cases hlast : run.getLast? with
    | none => rfl
    | some last => exact h.slice first.start (hrun last (List.mem_of_mem_getLast? hlast))

namespace NormalizeContext

def isUnknownConstant (ctx : NormalizeContext) : List Token → Bool
  | [t] => (t.valueOf? .const).any fun name => !ctx.constants.contains name
  | _ => false

theorem wholeRun_eq (ctx : NormalizeContext) (whole : List Token → Normalized) (run : List Token) :
    ctx.wholeRun whole run =
      if run.head?.any (·.isIdent ["lazy"]) then ctx.keep run .lazyValue
      else if ctx.isUnknownConstant run then ctx.keep run .unknownConstant
      else
        match if (Argument.ofRun run).isEmpty then none else entries? whole (Argument.ofRun run) with
        | some (entries, diagnostics) => ⟨.map entries, diagnostics⟩
        | none =>
          match ctx.primary? whole run with
          | some (n, taken) => if taken = run.length then n else ctx.keep run .unrecognizedValue
          | none => ctx.keep run .unrecognizedValue := by
  cases run with
  | nil => rfl
  | cons t rest => cases rest <;> rfl

/-- The text of `ctx` stands in that of `ctx'`, and the same names are in force. -/
structure Embeds (ctx' ctx : NormalizeContext) (before after : Text) : Prop where
  lines : ctx'.lines.Embeds ctx.lines before after
  constants : ctx'.constants = ctx.constants

variable {ctx' ctx : NormalizeContext} {before after : Text} (h : ctx'.Embeds ctx before after)

include h

theorem keep_shift {run : List Token} (hrun : ∀ t ∈ run, t.stop ≤ ctx.text.length)
    (finding : Text → Finding) :
    (ctx'.keep (run.map (Token.shift before.length)) finding).value = (ctx.keep run finding).value :=
  congrArg Value.verbatim (sourceOf_shift h.lines hrun)

theorem path?_shift (root : Text) (rest : List Token) :
    ctx'.path? root (rest.map (Token.shift before.length)) = ctx.path? root rest := by
  have hkeys : ∀ (dotted : Bool) (lead : Nat),
      readKeys dotted ctx'.constants ((rest.map (Token.shift before.length)).drop lead) =
        readKeys dotted ctx.constants (rest.drop lead) := by
    intro dotted lead
    rw [← List.map_drop, readKeys_shift, h.constants]
  unfold path?
  simp only [hkeys]
  cases rest with
  | nil => rfl
  | cons dot rest =>
    cases rest with
    | nil => rfl
    | cons level rest =>
      simp only [List.map_cons, Token.valueOf?_shift, Token.isPunct_shift]

/-! ### One step -/

section Step

variable {whole whole' : List Token → Normalized} {run : List Token}
  (hin : ∀ sub, Inner run sub →
    (whole' (sub.map (Token.shift before.length))).value = (whole sub).value)

include hin

omit h in
theorem part?_shift {t : Token} {flavor : Flavor} {parts : List StringPart} (ht : t ∈ run)
    (hcontent : t.content = .string flavor parts) {part : StringPart} (hpart : part ∈ parts) :
    (part? whole' (part.shift before.length)).map (·.value) = (part? whole part).map (·.value) := by
  cases part with
  | text value => rfl
  | code source offset =>
    have hvalue := hin _ (.code ht hcontent hpart)
    unfold part? StringPart.shift
    dsimp only
    rw [lexInline_add]
    cases hlex : lexInline source offset with
    | nil => rfl
    | cons t rest =>
      rw [hlex] at hvalue
      exact congrArg some hvalue

theorem stringValue_shift {t : Token} {flavor : Flavor} {parts : List StringPart} (ht : t ∈ run)
    (hcontent : t.content = .string flavor parts) (hrun : ∀ t ∈ run, t.stop ≤ ctx.text.length) :
    (ctx'.stringValue whole' (t.shift before.length) flavor
        (parts.map (StringPart.shift before.length))).value =
      (ctx.stringValue whole t flavor parts).value := by
  unfold stringValue
  rw [StringPart.plain?_shift]
  split
  · exact keep_shift h (fun u hu => List.mem_singleton.1 hu ▸ hrun t ht) _
  · split
    · rfl
    · refine congrArg Value.interpolate ?_
      unfold Normalized.gather
      dsimp only
      rw [List.filterMap_map, List.map_filterMap, List.map_filterMap]
      exact List.filterMap_congr fun part hpart => part?_shift hin ht hcontent hpart

omit h in
theorem entries?_shift {args : List Argument}
    (hargs : ∀ arg ∈ args, ∀ key tokens, arg.keyword? = some (key, tokens) → Inner run tokens) :
    (entries? whole' (args.map (Argument.shift before.length))).map (·.1) =
      (entries? whole args).map (·.1) := by
  unfold entries?
  rw [Argument.mapM_keyword?_shift]
  cases hpairs : args.mapM Argument.keyword? with
  | none => rfl
  | some pairs =>
    have hvalue : ∀ pair ∈ pairs,
        (whole' (pair.2.map (Token.shift before.length))).value = (whole pair.2).value := by
      intro pair hpair
      obtain ⟨arg, harg, hkey⟩ := mem_of_mapM_eq_some hpairs hpair
      exact hin _ (hargs arg harg pair.1 pair.2 hkey)
    refine congrArg some ?_
    simp only [List.map_map]
    exact List.map_congr_left fun pair hpair => congrArg (Entry.mk pair.1) (hvalue pair hpair)

omit h in
theorem bracketed?_shift (opener : Token) :
    (bracketed? whole' (opener.shift before.length) (run.map (Token.shift before.length))).map
        (fun (n, taken) => (n.value, taken)) =
      (bracketed? whole opener run).map fun (n, taken) => (n.value, taken) := by
  unfold bracketed?
  rw [closing?_shift]
  cases hn : closing? 0 run with
  | none => rfl
  | some n =>
    -- what stands between the brackets is shorter than the run by both of them
    have hlen : ((run.take n).drop 1).length < run.length := by
      have := closing?_lt hn
      simp only [List.length_drop, List.length_take]
      omega
    have hsub : List.Sublist ((run.take n).drop 1) run :=
      (List.drop_sublist _ _).trans (List.take_sublist _ _)
    have hinner : ∀ sub, List.Sublist sub ((run.take n).drop 1) → Inner run sub := fun sub hs =>
      .shorter (hs.trans hsub).subset (hs.length_le.trans_lt hlen)
    have hshift : ((run.map (Token.shift before.length)).take n).drop 1 =
        ((run.take n).drop 1).map (Token.shift before.length) := by
      rw [List.map_drop, List.map_take]
    simp only [Option.bind_eq_bind, Option.bind_some, hshift, Token.isPunct_shift, List.isEmpty_map]
    generalize (run.take n).drop 1 = inner at hinner
    split
    · refine congrArg some (Prod.ext (congrArg Value.list ?_) rfl)
      unfold Normalized.gather
      dsimp only
      rw [nonemptyPieces_shift, List.map_map, List.map_map, List.map_map]
      refine List.map_congr_left fun piece hpiece => hin piece (hinner piece ?_)
      exact sublist_of_mem_splitTopLevel (List.mem_filter.1 hpiece).1
    · split
      · have hargs : ∀ arg ∈ Argument.ofRun inner, ∀ key tokens,
            arg.keyword? = some (key, tokens) → Inner run tokens := by
          intro arg harg key tokens hkey
          exact hinner _ (Argument.tokens_of_keyword? hkey ▸ Argument.sublist_of_mem_ofRun harg)
        have hentries := entries?_shift hin hargs
        rw [Argument.ofRun_shift]
        cases hleft : entries? whole' ((Argument.ofRun inner).map (Argument.shift before.length)) <;>
          cases hright : entries? whole (Argument.ofRun inner) <;>
          simp_all
      · split
        · rfl
        · exact congrArg (fun v => some (v, n + 1)) (hin _ (hinner _ (List.Sublist.refl _)))

theorem primary?_shift (hrun : ∀ t ∈ run, t.stop ≤ ctx.text.length) :
    (ctx'.primary? whole' (run.map (Token.shift before.length))).map
        (fun (n, taken) => (n.value, taken)) =
      (ctx.primary? whole run).map fun (n, taken) => (n.value, taken) := by
  cases hshape : run with
  | nil => rfl
  | cons t rest =>
    have hnext : ∀ values : List Text,
        (rest.map (Token.shift before.length)).head?.any (·.isPunct values) =
          rest.head?.any (·.isPunct values) := by
      intro values
      simp [Option.any_map]
    have hmoved : (t.shift before.length).content = t.content.shift before.length := rfl
    rw [List.map_cons]
    unfold primary?
    simp only [hnext]
    cases hcontent : t.content with
    | string flavor parts =>
      -- code in a string stands further on, and everything else in a token stays as it is
      have hvalue := stringValue_shift h hin (hshape ▸ List.mem_cons_self) hcontent hrun
      simp only [hmoved, hcontent, TokenContent.shift, Option.map_some, hvalue]
    | words items symbols => simp only [hmoved, hcontent, TokenContent.shift]
    | regex => simp only [hmoved, hcontent, TokenContent.shift]
    | newline => simp only [hmoved, hcontent, TokenContent.shift]
    | name kind value =>
      simp only [hmoved, hcontent, TokenContent.shift]
      cases kind with
      | ident => simp only [h.constants, path?_shift h]
      | const => simp only [h.constants]
      | punct =>
        dsimp only
        split
        · cases rest with
          | nil => rfl
          | cons digits more =>
            simp only [List.map_cons, Token.spaceBefore_shift, Token.valueOf?_shift]
        · rw [Token.isOpener_shift]
          split
          · have hbracketed := bracketed?_shift hin t
            rwa [hshape, List.map_cons] at hbracketed
          · rfl
      | symbol => rfl
      | number => rfl
      | keyword => rfl
      | instanceVar => rfl
      | globalVar => rfl
      | label => rfl

/-- The value of a run is the same in the longer text when those of the runs inside it are. -/
theorem wholeRun_shift (hrun : ∀ t ∈ run, t.stop ≤ ctx.text.length) :
    (ctx'.wholeRun whole' (run.map (Token.shift before.length))).value =
      (ctx.wholeRun whole run).value := by
  have hunknown : ctx'.isUnknownConstant (run.map (Token.shift before.length)) =
      ctx.isUnknownConstant run := by
    cases run with
    | nil => rfl
    | cons t rest =>
      cases rest with
      | nil => simp [isUnknownConstant, h.constants]
      | cons u more => rfl
  have hlazy : (run.map (Token.shift before.length)).head?.any (·.isIdent ["lazy"]) =
      run.head?.any (·.isIdent ["lazy"]) := by
    simp [Option.any_map]
  have hentries : (entries? whole' ((Argument.ofRun run).map (Argument.shift before.length))).map (·.1) =
      (entries? whole (Argument.ofRun run)).map (·.1) := by
    refine entries?_shift hin fun arg harg key tokens hkey => .shorter ?_ ?_
    · exact (Argument.tokens_of_keyword? hkey ▸ Argument.sublist_of_mem_ofRun harg).subset
    · exact Argument.length_lt_of_keyword?_mem_ofRun harg hkey
  have hprimary := primary?_shift h hin hrun
  -- every question asked of the run has the same answer for both
  rw [wholeRun_eq, wholeRun_eq]
  simp only [hunknown, hlazy, Argument.ofRun_shift, List.isEmpty_map, List.length_map]
  split
  · exact keep_shift h hrun _
  · split
    · exact keep_shift h hrun _
    · have hchoice :
          (if (Argument.ofRun run).isEmpty then none
            else entries? whole' ((Argument.ofRun run).map (Argument.shift before.length))).map (·.1) =
          (if (Argument.ofRun run).isEmpty then none
            else entries? whole (Argument.ofRun run)).map (·.1) := by
        split
        · rfl
        · exact hentries
      -- the entries need to be compared by their values only
      generalize (if (Argument.ofRun run).isEmpty then none
        else entries? whole' ((Argument.ofRun run).map (Argument.shift before.length))) = left at hchoice
      generalize (if (Argument.ofRun run).isEmpty then none
        else entries? whole (Argument.ofRun run)) = right at hchoice
      cases left with
      | some found =>
        cases right with
        | some found' => exact congrArg Value.map (Option.some.inj hchoice)
        | none => exact absurd hchoice (by simp)
      | none =>
        cases right with
        | some found' => exact absurd hchoice (by simp)
        | none =>
          cases hleft : ctx'.primary? whole' (run.map (Token.shift before.length)) with
          | none =>
            cases hright : ctx.primary? whole run with
            | none => exact keep_shift h hrun _
            | some n => exact absurd (hleft ▸ hright ▸ hprimary) (by simp)
          | some n =>
            cases hright : ctx.primary? whole run with
            | none => exact absurd (hleft ▸ hright ▸ hprimary) (by simp)
            | some n' =>
              obtain ⟨hvalue, htaken⟩ : n.1.value = n'.1.value ∧ n.2 = n'.2 := by
                simpa [hleft, hright] using hprimary
              dsimp only
              rw [htaken]
              split
              · exact hvalue
              · exact keep_shift h hrun _

end Step

/-! ### The whole reading -/

omit h in
/-- The fuel that is enough for a run of `n` tokens within `size` units. -/
def readingDepth (size n : Nat) : Nat := size * (size + 1) + n + 1

omit h in
/-- Code of fewer units needs less, however many tokens it has. -/
theorem readingDepth_lt {size size' n n' : Nat} (hsize : size' < size) (hn : n' ≤ size') :
    readingDepth size' n' < readingDepth size n := by
  have hmul : (size' + 1) * (size' + 2) ≤ size * (size + 1) :=
    Nat.mul_le_mul (by omega) (by omega)
  have hexpand : (size' + 1) * (size' + 2) = size' * (size' + 1) + 2 * size' + 2 := by
    simp only [Nat.add_mul, Nat.mul_add]
    omega
  unfold readingDepth
  omega

/-- With enough fuel on both sides, a run has the same value in the longer text. -/
theorem readRun_shift {lo hi fuel fuel' : Nat} (hhi : hi ≤ ctx.text.length) {run : List Token}
    (hrun : ∀ t ∈ run, t.Between lo hi) (hfuel : readingDepth (hi - lo) run.length ≤ fuel)
    (hfuel' : readingDepth (hi - lo) run.length ≤ fuel') :
    (ctx'.readRun fuel' (run.map (Token.shift before.length))).value = (ctx.readRun fuel run).value := by
  induction fuel generalizing fuel' lo hi run with
  | zero => exact absurd hfuel (by simp [readingDepth])
  | succ fuel ih =>
    obtain ⟨fuel', rfl⟩ : ∃ f, fuel' = f + 1 := by
      cases fuel' with
      | zero => exact absurd hfuel' (by simp [readingDepth])
      | succ f => exact ⟨f, rfl⟩
    rw [readRun, readRun]
    refine wholeRun_shift h (fun sub hsub => ?_) fun t ht => (hrun t ht).stop.trans hhi
    cases hsub with
    | shorter hsub hlen =>
      refine ih hhi (fun t ht => hrun t (hsub ht)) ?_ ?_ <;>
      · unfold readingDepth at *
        omega
    | @code t flavor parts source offset ht hcontent hpart =>
      -- code lies within its token, after the first unit
      have hbetween : (StringPart.code source offset).Between lo hi := by
        have := (hrun t ht).content
        rw [hcontent] at this
        exact this _ hpart
      have hlen : (lexInline source offset).length ≤ source.length :=
        (List.length_filter_le _ _).trans (length_lex_le source offset)
      have hlt := readingDepth_lt (n := run.length)
        (show offset + source.length - offset < hi - lo by have := hbetween.1; have := hbetween.2; omega)
        (show (lexInline source offset).length ≤ offset + source.length - offset by omega)
      refine ih (hbetween.2.trans hhi)
        (fun t ht => lex_between source offset t (List.mem_filter.1 ht).1) ?_ ?_ <;> omega

/-- A run of the file has the same value in the longer text. -/
theorem normalize_shift {run : List Token} (hrun : ∀ t ∈ run, t.Between 0 ctx.text.length) :
    (ctx'.normalize (run.map (Token.shift before.length))).value = (ctx.normalize run).value := by
  have htext : ctx.text.length ≤ ctx'.text.length := by
    show ctx.lines.text.length ≤ ctx'.lines.text.length
    rw [h.lines.whole_eq]
    show _ ≤ (before ++ ctx.lines.text ++ after).length
    simp only [List.length_append]
    omega
  have hmul := Nat.mul_le_mul htext (Nat.add_le_add_right htext 1)
  unfold normalize
  rw [List.isEmpty_map]
  split
  · rfl
  · refine readRun_shift h le_rfl hrun ?_ ?_ <;>
    · unfold readingDepth fuel
      simp only [List.length_map, Nat.sub_zero]
      omega

end NormalizeContext

end Cookbook
