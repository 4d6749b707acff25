import Cookbook.Proofs.Declaration.Body
import Cookbook.Proofs.Declaration.Steps

/-!
What a recipe declares, read in a longer one. Its statements, moved to where they stand in the longer
text, declare the same resources there and leave the same names in force.

* `Declaration.shift` moves a declaration with all stretches in it;
* `RecipeReader.Embeds` says that a recipe stands in another one, after whole lines;
* `Extraction.Agrees` compares what was extracted, after some declarations of the longer text;
* `Command.extract_shift` is one command, `extractList_shift` any list of statements.
-/

namespace Cookbook

/-! ### Moved declarations -/

def ContextCondition.shift (k l : Nat) (c : ContextCondition) : ContextCondition :=
  { c with span := c.span.shift k l }

def Declaration.shift (k l : Nat) (d : Declaration) : Declaration :=
  { d with
    properties := d.properties.map (Property.shift k l)
    guards := d.guards.map (Guard.shift k l)
    notifications := d.notifications.map (Notification.shift k l)
    context := d.context.map (ContextCondition.shift k l)
    span := d.span.shift k l }

def Surroundings.shift (k l : Nat) (around : Surroundings) : Surroundings :=
  { around with context := around.context.map (ContextCondition.shift k l) }

/-- `e'` holds what `e` does, `k` units and `l` lines further on and after the declarations `base`;
the diagnostics are not compared. -/
structure Extraction.Agrees (base : List Declaration) (k l : Nat) (e' e : Extraction) : Prop where
  constants : e'.constants = e.constants
  declarations : e'.declarations = base ++ e.declarations.map (Declaration.shift k l)

namespace RecipeReader

/-- The text of `r` stands in that of `r'` after `before`, whole lines, and before `after`. -/
structure Embeds (r' r : RecipeReader) (before after : Text) : Prop where
  source : r'.source = r.source
  knownTypes : r'.knownTypes = r.knownTypes
  lines : r'.program.lines.Embeds r.program.lines before after

section Embedded

variable {r' r : RecipeReader} {before after : Text} (h : r'.Embeds r before after)

include h

theorem Embeds.ctx {base : List Declaration} {k l : Nat} {e' e : Extraction}
    (he : e'.Agrees base k l e) : (r'.ctx e').Embeds (r.ctx e) before after :=
  ⟨h.lines, he.constants⟩

theorem Embeds.spanOf {extent : Extent} (hextent : extent.Within r.text.length) (n : Nat) :
    r'.program.spanOf (extent.shift before.length n) =
      (r.program.spanOf extent).shift before.length before.lineCount :=
  h.lines.span hextent.start hextent.stop

theorem Embeds.sourceOf {run : List Token} (hrun : RunWithin r.text.length run) :
    r'.sourceOf (run.map (Token.shift before.length)) = r.sourceOf run :=
  sourceOf_shift h.lines fun t ht => (hrun t ht).stop

theorem Embeds.runSpan {run : List Token} (hrun : RunWithin r.text.length run) {fallback : Nat}
    (hfallback : fallback ≤ r.text.length) :
    r'.runSpan (run.map (Token.shift before.length)) (fallback + before.length) =
      (r.runSpan run fallback).shift before.length before.lineCount := by
  have hspot := h.lines.span hfallback hfallback
  unfold RecipeReader.runSpan
  rw [List.head?_map, List.getLast?_map]
  cases hfirst : run.head? with
  | none => exact hspot
  | some first =>
    cases hlast : run.getLast? with
    | none => exact hspot
    | some last =>
      have hstart := hrun first (List.mem_of_mem_head? hfirst)
      have hstop := hrun last (List.mem_of_mem_getLast? hlast)
      exact h.lines.span (hstart.order.trans hstart.stop) hstop.stop

/-! ### Surroundings -/

theorem Embeds.modified {modifier : Option Modifier} (hm : ∀ m ∈ modifier, m.Within r.text.length)
    (around : Surroundings) :
    r'.modified (modifier.map (Modifier.shift before.length))
        (around.shift before.length before.lineCount) =
      (r.modified modifier around).shift before.length before.lineCount := by
  cases modifier with
  | none => rfl
  | some m =>
    have hm := hm m rfl
    unfold RecipeReader.modified
    simp only [Option.map_some, Modifier.shift, h.sourceOf hm.condition,
      h.runSpan hm.condition hm.start]
    split_ifs
    · rfl
    · simp [Surroundings.shift, ContextCondition.shift]

theorem Embeds.branchCondition? {condition : List Token} (hc : RunWithin r.text.length condition)
    {start : Nat} (hstart : start ≤ r.text.length) (subject : Text) (word : BranchWord) :
    r'.branchCondition? subject word (condition.map (Token.shift before.length))
        (start + before.length) =
      (r.branchCondition? subject word condition start).map
        (ContextCondition.shift before.length before.lineCount) := by
  have hlast : ∀ pieces : List (List Token),
      (pieces.map (List.map (Token.shift before.length))).getLast?.any (·.isEmpty) =
        pieces.getLast?.any (·.isEmpty) := by
    intro pieces
    rw [List.getLast?_map, Option.any_map]
    simp only [List.isEmpty_map]
  have hpieces : ∀ pieces : List (List Token), (∀ piece ∈ pieces, RunWithin r.text.length piece) →
      (pieces.map (List.map (Token.shift before.length))).map r'.sourceOf = pieces.map r.sourceOf := by
    intro pieces hpieces
    rw [List.map_map]
    exact List.map_congr_left fun piece hpiece => h.sourceOf (hpieces piece hpiece)
  have hwithin : ∀ piece ∈ splitTopLevel "," condition, RunWithin r.text.length piece :=
    fun piece hpiece => hc.sublist (sublist_of_mem_splitTopLevel hpiece).subset
  unfold RecipeReader.branchCondition?
  simp only [splitTopLevel_shift, hlast, h.sourceOf hc, h.runSpan hc hstart]
  split_ifs
  · rw [← List.map_dropLast,
      hpieces _ fun piece hpiece => hwithin piece ((List.dropLast_sublist _).subset hpiece)]
    rfl
  · rw [hpieces _ hwithin]
    rfl
  · rfl
  · rfl

/-! ### Commands -/

omit h in
theorem assignedName?_shift (k n : Nat) (c : Command) :
    assignedName? (c.shift k n) = assignedName? c := by
  unfold assignedName?
  rw [Command.head_shift]
  rcases c.head with - | ⟨target, - | ⟨eq, rest⟩⟩
  · rfl
  · rfl
  · simp only [List.map_cons, Token.isPunct_shift, Token.valueOf?_shift]

omit h in
theorem isIterator_shift (k n : Nat) (c : Command) : isIterator (c.shift k n) = isIterator c := by
  unfold isIterator
  simp only [Command.head_shift, ← List.map_drop, List.zip_map, List.any_map, List.head?_map,
    Option.any_map, Function.comp_def, Prod.map_fst, Prod.map_snd, Token.isIdent_shift,
    Token.isPunct_shift]

theorem Embeds.declared? (c : Command) (n : Nat) :
    r'.declared? (c.shift before.length n) =
      (r.declared? c).map fun (type, name) => (type, name.map (Token.shift before.length)) := by
  have hexpr := Command.tailContinues_shift before.length n c
  unfold RecipeReader.declared?
  rw [Command.plainCall?_shift, hexpr]
  cases c.plainCall? with
  | none => rfl
  | some call =>
    obtain ⟨word, args⟩ := call
    simp only [Option.map_some, Option.bind_eq_bind, Option.bind_some,
      Argument.filterMap_positional?_shift, Command.block_shift, Option.isSome_map, h.knownTypes,
      List.head?_map]
    split_ifs with hinclude hno hblock
    all_goals rcases args.filterMap Argument.positional? with - | ⟨name, - | ⟨other, rest⟩⟩
    all_goals rfl

theorem Embeds.assign {c : Command} (hc : c.Within r.text.length) {base : List Declaration}
    {k l : Nat} {e' e : Extraction} (he : e'.Agrees base k l e) (name : Text) (n : Nat) :
    (r'.assign (c.shift before.length n) name e').Agrees base k l (r.assign c name e) := by
  obtain ⟨-, hhead, -, -⟩ := Command.within_iff.1 hc
  have hvalue : ((r'.ctx e').normalize ((c.shift before.length n).head.drop 2)).value =
      ((r.ctx e).normalize (c.head.drop 2)).value := by
    rw [Command.head_shift, ← List.map_drop]
    exact NormalizeContext.normalize_shift (h.ctx he) (hhead.sublist (List.drop_subset 2 _))
  unfold RecipeReader.assign
  rw [hvalue, Command.block_shift, Command.modifier_shift, Option.isSome_map, Option.isSome_map,
    he.constants]
  dsimp only
  split_ifs
  · exact he
  · exact ⟨rfl, he.declarations⟩
  · exact ⟨rfl, he.declarations⟩
  · exact ⟨rfl, he.declarations⟩

theorem Embeds.declare {c : Command} (hc : c.Within r.text.length) {name : List Token}
    (hname : RunWithin r.text.length name) {base : List Declaration} {e' e : Extraction}
    (he : e'.Agrees base before.length before.lineCount e) (type : Text) (around : Surroundings)
    (n : Nat) :
    (r'.declare type (c.shift before.length n) (name.map (Token.shift before.length))
        (around.shift before.length before.lineCount) e').Agrees base before.length before.lineCount
      (r.declare type c name around e) := by
  obtain ⟨hextent, -, hblock, -⟩ := Command.within_iff.1 hc
  have hctx := h.ctx he
  have hvalue : ((r'.ctx e').normalize (name.map (Token.shift before.length))).value =
      ((r.ctx e).normalize name).value := NormalizeContext.normalize_shift hctx hname
  have hbody : ((c.shift before.length n).block.map (·.body)).getD [] =
      shiftList before.length n ((c.block.map (·.body)).getD []) := by
    rw [Command.block_shift]
    cases c.block with
    | none => rfl
    | some block => exact Block.body_shift _ _ block
  have hwithin : listWithin r.text.length ((c.block.map (·.body)).getD []) := by
    cases hb : c.block with
    | none => exact trivial
    | some block => exact listWithin_iff.2 (Block.within_iff.1 (hblock block hb)).2.2
  have hstart : ∀ noted' noted,
      (ResourceBody.start noted').Agrees before.length before.lineCount (.start noted) :=
    fun _ _ => ⟨rfl, rfl, rfl, rfl⟩
  have hread := readBodyList_shift hctx n false _ hwithin
    (hstart ((r'.ctx e').normalize (name.map (Token.shift before.length))).diagnostics
      ((r.ctx e).normalize name).diagnostics)
  have hmalformed : (c.shift before.length n).block.any (·.closer.isNone) =
      c.block.any (·.closer.isNone) := by
    rw [Command.block_shift, Option.any_map]
    cases c.block with
    | none => rfl
    | some block => simp
  -- the source of the command is cut out of the longer text
  have hslice := h.lines.slice c.extent.start hextent.stop
  unfold RecipeReader.declare
  refine ⟨he.constants, ?_⟩
  simp only [hbody, hmalformed, hvalue, hread.actions, hread.properties, hread.guards,
    hread.notifications, Command.extent_shift, h.spanOf hextent n, h.source, he.declarations,
    List.map_append, List.append_assoc]
  rw [show r'.text = r'.program.lines.text from rfl]
  simp only [Extent.shift, hslice]
  rfl

omit h in
theorem runWithin_declared? {c : Command} (hc : c.Within r.text.length) {type : Text}
    {name : List Token} (hdeclared : r.declared? c = some (type, name)) :
    RunWithin r.text.length name := by
  unfold RecipeReader.declared? at hdeclared
  obtain ⟨⟨word, args⟩, hcall, hdeclared⟩ := Option.bind_eq_some_iff.1 hdeclared
  have hruns := Argument.runWithin_positional? (Command.runWithin_plainCall? hc hcall)
  dsimp only at hdeclared
  by_cases hinclude : word = ("include_recipe" : Text)
  · rw [if_pos hinclude] at hdeclared
    obtain ⟨first, hfirst, hdeclared⟩ := Option.bind_eq_some_iff.1 hdeclared
    obtain ⟨-, rfl⟩ := Prod.mk.inj (Option.some.inj hdeclared)
    exact hruns first (List.mem_of_mem_head? hfirst)
  · rw [if_neg hinclude] at hdeclared
    split at hdeclared
    · rename_i only honly
      split_ifs at hdeclared
      obtain ⟨-, rfl⟩ := Prod.mk.inj (Option.some.inj hdeclared)
      exact hruns only (honly ▸ List.mem_cons_self)
    · exact absurd hdeclared (by simp)

/-- A command with a block declares the same when the statements of the block do. -/
theorem Embeds.extract_command {c : Command} (hc : c.Within r.text.length) {base : List Declaration}
    {n : Nat}
    (hbody : ∀ block ∈ c.block, ∀ (around : Surroundings) (e' e : Extraction),
      e'.Agrees base before.length before.lineCount e →
      (extractList r' (around.shift before.length before.lineCount)
        (shiftList before.length n block.body) e').Agrees base before.length before.lineCount
        (extractList r around block.body e))
    (around : Surroundings) {e' e : Extraction}
    (he : e'.Agrees base before.length before.lineCount e) :
    ((c.shift before.length n).extract r' (around.shift before.length before.lineCount) e').Agrees
      base before.length before.lineCount (c.extract r around e) := by
  obtain ⟨-, -, -, hmodifier⟩ := Command.within_iff.1 hc
  have haround : r'.modified (c.shift before.length n).modifier
      (around.shift before.length before.lineCount) =
      (r.modified c.modifier around).shift before.length before.lineCount := by
    rw [Command.modifier_shift, h.modified hmodifier]
  have hassigned := assignedName?_shift before.length n c
  have hdeclared := h.declared? c n
  -- the cases of reading a command: it assigns, it declares, or only its block is read
  cases ha : assignedName? c with
  | some name =>
    rw [Command.extract_of_assigned _ ha, Command.extract_of_assigned _ (hassigned.trans ha)]
    exact h.assign hc he name n
  | none =>
    rw [ha] at hassigned
    cases hd : r.declared? c with
    | some found =>
      obtain ⟨type, name⟩ := found
      rw [hd] at hdeclared
      rw [Command.extract_of_declared _ ha hd, Command.extract_of_declared _ hassigned hdeclared, haround]
      exact h.declare hc (runWithin_declared? hc hd) he type _ n
    | none =>
      rw [hd] at hdeclared
      have hblock' := Command.block_shift before.length n c
      cases hb : c.block with
      | none =>
        rw [hb] at hblock'
        rw [Command.extract_of_rest _ ha hd hb, Command.extract_of_rest _ hassigned hdeclared hblock']
        exact ⟨he.constants, he.declarations⟩
      | some block =>
        rw [hb] at hblock'
        have hbody := hbody block hb
        rw [Command.extract_of_block _ ha hd hb, Command.extract_of_block _ hassigned hdeclared hblock',
          isIterator_shift, haround, Block.body_shift]
        split_ifs
        · exact hbody { r.modified c.modifier around with inLoop := true } e' e he
        · exact hbody (r.modified c.modifier around) _ _ ⟨he.constants, he.declarations⟩

end Embedded

end RecipeReader

/-! ### Statements -/

mutual

theorem Statement.extract_shift {r' r : RecipeReader} {before after : Text}
    (h : r'.Embeds r before after) (n : Nat) :
    ∀ (s : Statement), s.Within r.text.length → ∀ (around : Surroundings) {base : List Declaration}
      {e' e : Extraction}, e'.Agrees base before.length before.lineCount e →
      ((s.shift before.length n).extract r' (around.shift before.length before.lineCount) e').Agrees
        base before.length before.lineCount (s.extract r around e)
  | .command c, hs, around, base, e', e, he => by
    simp only [Statement.Within] at hs
    simp only [Statement.shift, Statement.extract]
    exact Command.extract_shift h n c hs around he
  | .conditional ⟨extent, word, subject, branches, opener, closer⟩, hs, around, base, e', e, he => by
    simp only [Statement.Within] at hs
    simp only [Statement.shift, Conditional.shift, Statement.extract, h.sourceOf hs.2.1]
    exact extractBranches_shift h n branches hs.2.2 around _ [] he
  | .compound ⟨extent, head, body, opener, closer⟩, hs, around, base, e', e, he => by
    simp only [Statement.Within] at hs
    simp only [Statement.shift, Compound.shift, Statement.extract]
    rw [Token.text_shift]
    by_cases hbegin : opener.text = ("begin" : Text)
    · rw [if_pos hbegin, if_pos hbegin]
      exact extractList_shift h n body hs.2 around he
    · rw [if_neg hbegin, if_neg hbegin]
      split_ifs
      · exact extractList_shift h n body hs.2 { around with inLoop := true } he
      · exact he

theorem Command.extract_shift {r' r : RecipeReader} {before after : Text}
    (h : r'.Embeds r before after) (n : Nat) :
    ∀ (c : Command), c.Within r.text.length → ∀ (around : Surroundings) {base : List Declaration}
      {e' e : Extraction}, e'.Agrees base before.length before.lineCount e →
      ((c.shift before.length n).extract r' (around.shift before.length before.lineCount) e').Agrees
        base before.length before.lineCount (c.extract r around e)
  | ⟨extent, head, none, inner, modifier⟩, hc, around, base, e', e, he =>
    h.extract_command hc (fun _ hblock => absurd hblock (by simp)) around he
  | ⟨extent, head, some ⟨kind, opener, closer, params, body⟩, inner, modifier⟩, hc, around, base, e',
      e, he =>
    h.extract_command hc
      (fun block hblock around e' e he =>
        Option.some.inj hblock ▸ extractList_shift h n body
          (listWithin_iff.2 (Block.within_iff.1 ((Command.within_iff.1 hc).2.2.1 _ rfl)).2.2) around he)
      around he

theorem extractList_shift {r' r : RecipeReader} {before after : Text}
    (h : r'.Embeds r before after) (n : Nat) :
    ∀ (body : List Statement), listWithin r.text.length body → ∀ (around : Surroundings)
      {base : List Declaration} {e' e : Extraction},
      e'.Agrees base before.length before.lineCount e →
      (extractList r' (around.shift before.length before.lineCount) (shiftList before.length n body)
        e').Agrees base before.length before.lineCount (extractList r around body e)
  | [], _, around, base, e', e, he => by
    simp only [shiftList, extractList]
    exact he
  | s :: rest, hs, around, base, e', e, he => by
    simp only [listWithin] at hs
    simp only [shiftList, extractList]
    exact extractList_shift h n rest hs.2 around (Statement.extract_shift h n s hs.1 around he)

theorem extractBranches_shift {r' r : RecipeReader} {before after : Text}
    (h : r'.Embeds r before after) (n : Nat) :
    ∀ (branches : List Branch), branchesWithin r.text.length branches → ∀ (around : Surroundings)
      (subject : Text) (prior : List ContextCondition) {base : List Declaration} {e' e : Extraction},
      e'.Agrees base before.length before.lineCount e →
      (extractBranches r' (around.shift before.length before.lineCount) subject
        (prior.map (ContextCondition.shift before.length before.lineCount))
        (shiftBranches before.length n branches) e').Agrees base before.length before.lineCount
        (extractBranches r around subject prior branches e)
  | [], _, around, subject, prior, base, e', e, he => by
    simp only [shiftBranches, extractBranches]
    exact he
  | ⟨word, condition, body, start⟩ :: rest, hs, around, subject, prior, base, e', e, he => by
    simp only [branchesWithin] at hs
    obtain ⟨⟨hcondition, hstart, hbody⟩, hrest⟩ := hs
    have hown := h.branchCondition? hcondition hstart subject word
    simp only [shiftBranches, Branch.shift, extractBranches, hown]
    generalize r.branchCondition? subject word condition start = own
    have hinside := extractList_shift h n body hbody
      { around with context := around.context ++ prior ++ own.toList } he
    have hnext := extractBranches_shift h n rest hrest around subject
      (prior ++ (own.map ContextCondition.negate).toList) hinside
    cases own <;>
      simpa [Surroundings.shift, ContextCondition.shift, ContextCondition.negate] using hnext

end

end Cookbook
