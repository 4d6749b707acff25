import Cookbook.Proofs.Lists
import Cookbook.Proofs.Call.Partition
import Cookbook.Proofs.Declaration.Accounting
import Cookbook.Proofs.Declaration.BodySteps
import Cookbook.Proofs.Statement.Nesting
import Cookbook.Proofs.Statement.Notations

/-!
What becomes of the arguments of a call. A property keeps its only argument as its value, arguments with
keys as the entries of a hash and several without as the items of a list; when some have keys and some
have none, it keeps those without, and nothing is said of the others. An included recipe is declared for
the first argument without a key, and nothing is said of more.

* `Command.IsCallWith` says that the tokens of a command are a call with some arguments;
* `Kept` says that each argument is in the value of a property;
* `Command.SetsProperty.leaves` is the property that a call in a resource block leaves;
* `arguments_kept_unless_lost` is the result for whole files.
-/

namespace Cookbook

open RecipeReader

/-- The command is a call with these arguments: all its tokens before a block or modifier are of the call. -/
def Command.IsCallWith (c : Command) (args : List Argument) : Prop :=
  ∃ name, (⟨name, args, []⟩ : Call).Spells c.head

theorem Command.isCallWith_of_plainCall? {c : Command} {word : Text} {args : List Argument}
    (h : c.plainCall? = some (word, args)) : c.IsCallWith args := by
  unfold Command.plainCall? at h
  obtain ⟨first, -, h⟩ := Option.bind_eq_some_iff.1 h
  obtain ⟨call, hcall, h⟩ := Option.bind_eq_some_iff.1 h
  obtain ⟨htrailing, h⟩ := Option.ite_none_right_eq_some.1 h
  obtain ⟨-, rfl⟩ := Prod.mk.inj (Option.some.inj h)
  have hne : c.head ≠ [] := by
    intro hnil
    rw [hnil] at hcall
    exact absurd hcall (by simp [Call.ofRun?])
  obtain ⟨call', hcall', hspells⟩ := Call.exists_spells hne
  obtain rfl : call = call' := Option.some.inj (hcall.symm.trans hcall')
  have hnone : call.trailing = [] := List.isEmpty_iff.1 htrailing
  exact ⟨call.name, hnone ▸ hspells⟩

/-! ### Arguments in values -/

/-- Each argument is in the value: the only one is the value, each with a key is an entry under its key,
or each is an item. The value that stands for no arguments is true. -/
inductive Kept (ctx : NormalizeContext) : List Argument → Value → Prop
  | none : Kept ctx [] (.literal (.bool true))
  | single (run : List Token) : Kept ctx [.positional run] (ctx.normalize run).value
  | entries {args : List Argument} {entries : List Entry}
      (h : List.Forall₂ (fun arg entry =>
        ∃ run, arg.keyword? = some (entry.key, run) ∧ entry.value = (ctx.normalize run).value) args entries) :
      Kept ctx args (.map entries)
  | items {args : List Argument} {items : List Value}
      (h : List.Forall₂ (fun arg v => ∃ run, arg.positional? = some run ∧ v = (ctx.normalize run).value)
        args items) : Kept ctx args (.list items)

def Mixed (args : List Argument) : Prop :=
  (∃ arg ∈ args, arg.positional?.isSome = true) ∧ ∃ arg ∈ args, arg.keyword?.isSome = true

theorem Argument.keyword?_eq_none_iff {arg : Argument} :
    arg.keyword? = none ↔ arg.positional?.isSome = true := by
  cases arg <;> simp [keyword?, positional?]

def positionalValues (ctx : NormalizeContext) (args : List Argument) : List Value :=
  (args.filterMap Argument.positional?).map fun run => (ctx.normalize run).value

section Values

variable {ctx : NormalizeContext} {args : List Argument}

theorem kept_entries {pairs : List (Text × List Token)} (h : args.mapM Argument.keyword? = some pairs) :
    Kept ctx args (.map (pairs.map fun pair => ⟨pair.1, (ctx.normalize pair.2).value⟩)) := by
  refine .entries (List.forall₂_map_right_iff.2 ?_)
  exact (mapM_eq_some_iff_forall₂.1 h).imp fun arg pair hpair => ⟨pair.2, hpair, rfl⟩

theorem kept_items (h : ∀ arg ∈ args, arg.keyword? = none) :
    Kept ctx args (.list (positionalValues ctx args)) := by
  refine .items ?_
  induction args with
  | nil => exact .nil
  | cons arg rest ih =>
    cases arg with
    | positional run => exact .cons ⟨run, rfl, rfl⟩ (ih fun arg harg => h arg (List.mem_cons_of_mem _ harg))
    | keyword key token run => exact absurd (h _ List.mem_cons_self) (by simp [Argument.keyword?])

theorem not_mixed_of_kept {v : Value} (h : Kept ctx args v) : ¬Mixed args := by
  rintro ⟨⟨arg, harg, hpositional⟩, arg', harg', hkey⟩
  cases h with
  | none => exact absurd harg List.not_mem_nil
  | single run =>
    obtain rfl := List.mem_singleton.1 harg'
    exact absurd hkey (by simp [Argument.keyword?])
  | entries h =>
    have hkeyed := forall_mem_of_forall₂ (P := fun arg => arg.keyword? ≠ none) h
      (by rintro arg entry ⟨run, hrun, -⟩; simp [hrun]) arg harg
    exact hkeyed (Argument.keyword?_eq_none_iff.2 hpositional)
  | items h =>
    have hnone := forall_mem_of_forall₂ (P := fun arg => arg.keyword? = none) h
      (by rintro arg v ⟨run, hrun, -⟩; exact Argument.keyword?_eq_none_iff.2 (by rw [hrun]; rfl)) arg' harg'
    exact absurd hkey (by simp [hnone])

theorem exists_positional (h : args.mapM Argument.keyword? = none) :
    ∃ arg ∈ args, arg.positional?.isSome = true := by
  by_contra hnot
  push Not at hnot
  have hpairs : args.mapM Argument.keyword? =
      some (args.map fun arg => ((arg.keyword?.map (·.1)).getD [], arg.tokens)) := by
    refine mapM_eq_some_iff_forall₂.2 (List.forall₂_map_right_iff.2 (List.forall₂_same.2 fun arg harg => ?_))
    cases arg with
    | positional run => exact absurd rfl (hnot _ harg)
    | keyword key token run => rfl
  rw [hpairs] at h
  exact absurd h (by simp)

end Values

/-! ### Properties -/

/-- What is made of the arguments of a property: each is in the value, or some have keys and others none,
and the value and the diagnostics are those of the ones without. -/
inductive ArgumentsRead (ctx : NormalizeContext) (args : List Argument) (v : Value)
    (new : List Diagnostic) : Prop
  | kept (hkept : Kept ctx args v)
  | mixed (hmixed : Mixed args) (hv : v = .list (positionalValues ctx args))
      (hnew : new = (args.filterMap Argument.positional?).flatMap fun run => (ctx.normalize run).diagnostics)

/-- The command of a resource block sets a property: it is a plain call, of a word that has no meaning of
its own there. -/
structure Command.SetsProperty (c : Command) (word : Text) (args : List Argument) : Prop where
  call : c.plainCall? = some (word, args)
  plain : c.head.tail.head?.any Token.continuesExpression = false
  word : word ∉ ["action", "only_if", "not_if", "notifies", "subscribes"].map Text.ofString

/-- The arguments with keys of a property are lost: they stand together with others, and nothing is
reported about these or about the statement, which has neither a block nor a modifier. -/
structure Command.LosesKeyed (ctx : NormalizeContext) (c : Command) (args : List Argument) : Prop where
  block : c.block = none
  modifier : c.modifier = none
  mixed : Mixed args
  clean : ∀ run ∈ args.filterMap Argument.positional?, (ctx.normalize run).diagnostics = []

namespace ResourceBody

def withProperty (b : ResourceBody) (q : Property) (new : List Diagnostic) : ResourceBody :=
  { b with properties := b.properties ++ [q], diagnostics := b.diagnostics ++ new }

theorem arguments_keyed (b : ResourceBody) (ctx : NormalizeContext) (name : Text) (span : Span)
    {args : List Argument} {pairs : List (Text × List Token)}
    (h : args.mapM Argument.keyword? = some pairs) :
    b.arguments ctx name span args =
      b.withProperty ⟨name, .map (pairs.map fun pair => ⟨pair.1, (ctx.normalize pair.2).value⟩), span⟩
        (pairs.flatMap fun pair => (ctx.normalize pair.2).diagnostics) := by
  unfold ResourceBody.arguments
  rw [h]
  simp only [ResourceBody.values, Normalized.gather, List.map_map, List.flatMap_map,
    ← List.map_prod_left_eq_zip]
  rfl

theorem arguments_positional (b : ResourceBody) (ctx : NormalizeContext) (name : Text) (span : Span)
    {args : List Argument} (h : args.mapM Argument.keyword? = none) :
    b.arguments ctx name span args =
      b.withProperty ⟨name, .list (positionalValues ctx args), span⟩
        ((args.filterMap Argument.positional?).flatMap fun run => (ctx.normalize run).diagnostics) := by
  unfold ResourceBody.arguments
  rw [h]
  simp only [ResourceBody.values, Normalized.gather, List.map_map, List.flatMap_map]
  rfl

theorem arguments_read (b : ResourceBody) (ctx : NormalizeContext) (name : Text) (span : Span)
    (args : List Argument) :
    ∃ v new, b.arguments ctx name span args = b.withProperty ⟨name, v, span⟩ new ∧
      ArgumentsRead ctx args v new := by
  cases hpairs : args.mapM Argument.keyword? with
  | some pairs =>
    exact ⟨_, _, arguments_keyed b ctx name span hpairs, .kept (kept_entries hpairs)⟩
  | none =>
    refine ⟨_, _, arguments_positional b ctx name span hpairs, ?_⟩
    by_cases hkeyed : ∃ arg ∈ args, arg.keyword?.isSome = true
    · exact .mixed ⟨exists_positional hpairs, hkeyed⟩ rfl rfl
    · push Not at hkeyed
      exact .kept (kept_items fun arg harg => by simpa using hkeyed arg harg)

theorem property_read (b : ResourceBody) (ctx : NormalizeContext) (name : Text) {c : Command}
    (hc : c.block = none) (span : Span) (args : List Argument) :
    ∃ v new, b.property ctx name c span args = b.withProperty ⟨name, v, span⟩ new ∧
      ArgumentsRead ctx args v new := by
  match args with
  | [] =>
    refine ⟨.literal (.bool true), [], ?_, .kept .none⟩
    unfold ResourceBody.property
    rw [hc]
    simp [withProperty, addProperty]
  | [.positional run] =>
    refine ⟨(ctx.normalize run).value, (ctx.normalize run).diagnostics, ?_, .kept (.single run)⟩
    unfold ResourceBody.property
    rw [hc]
    rfl
  | [.keyword key token run] =>
    rw [property_keyword b ctx name hc]
    exact arguments_read b ctx name span _
  | arg :: arg' :: rest =>
    rw [property_several b ctx name hc]
    exact arguments_read b ctx name span _

theorem property_block (b : ResourceBody) (ctx : NormalizeContext) (name : Text) {c : Command} {block : Block}
    (hc : c.block = some block) (span : Span) (args : List Argument) :
    ∃ v new, b.property ctx name c span args = b.withProperty ⟨name, v, span⟩ new ∧ new ≠ [] := by
  unfold ResourceBody.property
  rw [hc]
  exact ⟨_, _, rfl, List.cons_ne_nil _ _⟩

theorem call_setsProperty (b : ResourceBody) (ctx : NormalizeContext) (conditional : Bool) {c : Command}
    {word : Text} {args : List Argument} (h : c.SetsProperty word args) (span : Span) :
    b.call ctx conditional c span word args = b.property ctx word c span args := by
  have hword := h.word
  simp only [List.map_cons, List.map_nil, List.mem_cons, List.not_mem_nil, or_false, not_or] at hword
  obtain ⟨haction, honlyIf, hnotIf, hnotifies, hsubscribes⟩ := hword
  unfold ResourceBody.call
  rw [if_neg haction, if_neg honlyIf, if_neg hnotIf, if_neg hnotifies, if_neg hsubscribes]

theorem withProperty_noteModifier (b : ResourceBody) (ctx : NormalizeContext) (span : Span)
    (modifier : Option Modifier) (q : Property) (new : List Diagnostic) :
    ∃ notes, (b.noteModifier ctx span modifier).withProperty q new = b.withProperty q (notes ++ new) ∧
      (notes = [] ↔ modifier = none) := by
  cases modifier with
  | none => exact ⟨[], rfl, by simp⟩
  | some m =>
    refine ⟨[⟨.modifiedProperty m.word.text, ctx.source, span, none⟩], ?_, by simp⟩
    simp [noteModifier, withProperty, report]

end ResourceBody

/-- What a property statement leaves: a property at its place, with `new` diagnostics. All arguments are in
its value or something is reported, unless those with keys are lost; then the others are its value. -/
structure Command.LeavesProperty (ctx : NormalizeContext) (c : Command) (word : Text) (args : List Argument)
    (b b' : ResourceBody) (v : Value) (new : List Diagnostic) : Prop where
  body : b' = b.withProperty ⟨word, v, ctx.lines.span c.extent.start c.extent.stop⟩ new
  kept : Kept ctx args v ∨ new ≠ [] ↔ ¬c.LosesKeyed ctx args
  lost : c.LosesKeyed ctx args → v = .list (positionalValues ctx args)

theorem Command.LeavesProperty.of_kept {ctx : NormalizeContext} {c : Command} {word : Text}
    {args : List Argument} {b b' : ResourceBody} {v : Value} {new : List Diagnostic}
    (hbody : b' = b.withProperty ⟨word, v, ctx.lines.span c.extent.start c.extent.stop⟩ new)
    (hkept : Kept ctx args v ∨ new ≠ []) (hlost : ¬c.LosesKeyed ctx args) :
    c.LeavesProperty ctx word args b b' v new :=
  ⟨hbody, iff_of_true hkept hlost, fun h => absurd h hlost⟩

/-- A call in a resource block that sets a property leaves it. -/
theorem Command.SetsProperty.leaves {ctx : NormalizeContext} {c : Command} {word : Text}
    {args : List Argument} (h : c.SetsProperty word args) (inBranch : Bool) (b : ResourceBody) :
    ∃ v new, c.LeavesProperty ctx word args b (b.command ctx inBranch c) v new := by
  let span := ctx.lines.span c.extent.start c.extent.stop
  have hcommand := b.command_some ctx inBranch h.plain h.call
  rw [ResourceBody.call_setsProperty _ ctx _ h] at hcommand
  cases hblock : c.block with
  | some block =>
    obtain ⟨v, new, hproperty, hnew⟩ := ResourceBody.property_block (b.noteModifier ctx span c.modifier) ctx
      word hblock span args
    obtain ⟨notes, hnotes, -⟩ := b.withProperty_noteModifier ctx span c.modifier ⟨word, v, span⟩ new
    refine ⟨v, notes ++ new, .of_kept (hcommand.trans (hproperty.trans hnotes)) (.inr (by simp [hnew])) ?_⟩
    intro hlost
    exact absurd (hblock.symm.trans hlost.block) (by simp)
  | none =>
    obtain ⟨v, new, hproperty, hread⟩ := ResourceBody.property_read (b.noteModifier ctx span c.modifier) ctx
      word hblock span args
    obtain ⟨notes, hnotes, hmodifier⟩ := b.withProperty_noteModifier ctx span c.modifier ⟨word, v, span⟩ new
    have hbody := hcommand.trans (hproperty.trans hnotes)
    refine ⟨v, notes ++ new, ?_⟩
    cases hread with
    | kept hkept => exact .of_kept hbody (.inl hkept) fun hlost => not_mixed_of_kept hkept hlost.mixed
    | mixed hmixed hv hnew =>
      refine ⟨hbody, ?_, fun _ => hv⟩
      rw [hv, or_iff_right (not_mixed_of_kept · hmixed), not_iff_not, List.append_eq_nil_iff, hmodifier, hnew,
        List.flatMap_eq_nil_iff]
      exact ⟨fun hnil => ⟨hblock, hnil.1, hmixed, hnil.2⟩, fun hlost => ⟨hlost.modifier, hlost.clean⟩⟩

/-! ### Declarations -/

/-- A command leaves a declaration, with `new` diagnostics. -/
structure Command.LeavesDeclaration (r : RecipeReader) (a : Surroundings) (x result : Extraction)
    (c : Command) (d : Declaration) (new : List Diagnostic) : Prop where
  declarations : (c.extract r a x).declarations = x.declarations ++ [d]
  diagnostics : (c.extract r a x).diagnostics = x.diagnostics ++ new
  declared : d ∈ result.declarations
  reported : ∀ w ∈ new, w ∈ result.diagnostics

theorem Command.LeavesDeclaration.silent {r : RecipeReader} {a : Surroundings} {x result : Extraction}
    {c : Command} {d : Declaration} {new : List Diagnostic} (h : c.LeavesDeclaration r a x result d new)
    (hresult : result.diagnostics = []) : new = [] :=
  List.eq_nil_iff_forall_not_mem.2 fun w hw => List.not_mem_nil (hresult ▸ h.reported w hw)

section Declared

variable {r : RecipeReader} {all rest : List Statement} {around a : Surroundings} {e x : Extraction}
  {c : Command}

/-- A command that declares a resource leaves its declaration, and reports what is reported of it. -/
theorem Visits.leavesDeclaration (h : Visits r all around e (.command c :: rest) a x)
    (ha : assignedName? c = none) {type : Text} {name : List Token}
    (hd : r.declared? c = some (type, name)) :
    c.LeavesDeclaration r a x (extractList r around all e)
      (r.declarationOf type c name (r.modified c.modifier a) x)
      (r.reportsOf type c name (r.modified c.modifier a) x) := by
  have hextract := Command.extract_of_declared (e := x) a ha hd
  rw [RecipeReader.declare_eq] at hextract
  refine ⟨by rw [hextract], by rw [hextract], h.mem_declarations ?_, fun w hw => h.mem_diagnostics ?_⟩
  · rw [Statement.extract, hextract]
    exact List.mem_append_right _ List.mem_cons_self
  · rw [Statement.extract, hextract]
    exact List.mem_append_right _ hw

/-- A property that reading the block of a resource comes to is in its declaration, and what is reported of
it is reported of the resource. -/
theorem BodyVisits.records {name : List Token} {c' : Command} {rest' : List Statement} {inBranch : Bool}
    {b : ResourceBody} (type : Text) (a : Surroundings)
    (h : BodyVisits (r.ctx x) ((c.block.map (·.body)).getD []) (.start ((r.ctx x).normalize name).diagnostics)
      (.command c' :: rest') inBranch b) {q : Property} {new : List Diagnostic}
    (hbody : b.command (r.ctx x) inBranch c' = b.withProperty q new) :
    q ∈ (r.declarationOf type c name a x).properties ∧
      ∀ w ∈ new, w.about (r.declarationOf type c name a x).ref ∈ r.reportsOf type c name a x := by
  have hgrows := h.grows_step
  rw [Statement.readBody, hbody] at hgrows
  refine ⟨hgrows.properties.isPrefix.subset (List.mem_append_right _ List.mem_cons_self), fun w hw => ?_⟩
  have hw' : w ∈ (r.bodyOf c name x).diagnostics :=
    hgrows.diagnostics.isPrefix.subset (List.mem_append_right _ hw)
  exact List.mem_map_of_mem (List.mem_append_left _ hw')

theorem RecipeReader.declared?_include {args : List Argument} {run : List Token} {others : List (List Token)}
    (h : c.plainCall? = some (("include_recipe" : Text), args))
    (hruns : args.filterMap Argument.positional? = run :: others) :
    r.declared? c = some (("include_recipe" : Text), run) := by
  unfold RecipeReader.declared?
  simp only [h, hruns, Option.bind_eq_bind, Option.bind_some, if_true, List.head?_cons]
  rfl

end Declared

/-- There is a declaration for each run that names a recipe to include. -/
def Includes (ctx : NormalizeContext) (runs : List (List Token)) (declarations : List Declaration) : Prop :=
  List.Forall₂ (fun run d => d.type = ("include_recipe" : Text) ∧ d.name = (ctx.normalize run).value) runs
    declarations

theorem includes_singleton_iff {ctx : NormalizeContext} {run : List Token} {others : List (List Token)}
    {d : Declaration} (htype : d.type = ("include_recipe" : Text))
    (hname : d.name = (ctx.normalize run).value) : Includes ctx (run :: others) [d] ↔ others = [] := by
  rw [Includes, List.forall₂_cons]
  simp [htype, hname]

/-! ### Whole files -/

/-- The arguments of properties and of calls of `include_recipe`, wherever the extraction of a recipe comes to
them. A resource has each of its properties, with all arguments in the value or with something reported about
the statement, unless some arguments have keys and others have none and nothing else is reported: then those
with keys are lost. A call of `include_recipe` leaves one declaration, of its first argument without a key; if
there are more, they are lost unless something is reported about it. -/
theorem arguments_kept_unless_lost (source text : Text) (knownTypes : List Text)
    (constants : Bindings Value) :
    let p := Program.ofText text
    let r : RecipeReader := ⟨source, p, knownTypes⟩
    let e : Extraction := ⟨constants, [], p.problems.map (Diagnostic.ofProblem source p.lines)⟩
    let result := extractDeclarations source text knownTypes constants
    ∀ c rest a x, Visits r p.statements ⟨[], false⟩ e (.command c :: rest) a x → assignedName? c = none →
      (∀ type name, r.declared? c = some (type, name) → ∃ d reports,
        c.LeavesDeclaration r a x result d reports ∧
        ∀ c' rest' inBranch b word args,
          BodyVisits (r.ctx x) ((c.block.map (·.body)).getD [])
            (.start ((r.ctx x).normalize name).diagnostics) (.command c' :: rest') inBranch b →
          c'.SetsProperty word args →
          c'.IsCallWith args ∧ ∃ v new,
            c'.LeavesProperty (r.ctx x) word args b (b.command (r.ctx x) inBranch c') v new ∧
            ⟨word, v, p.spanOf c'.extent⟩ ∈ d.properties ∧ ∀ w ∈ new, w.about d.ref ∈ reports) ∧
      ∀ args run others, c.plainCall? = some (("include_recipe" : Text), args) →
        args.filterMap Argument.positional? = run :: others →
        c.IsCallWith args ∧ ∃ d reports, c.LeavesDeclaration r a x result d reports ∧
          d.type = ("include_recipe" : Text) ∧ d.name = ((r.ctx x).normalize run).value ∧
          (Includes (r.ctx x) (run :: others) [d] ∨ reports ≠ [] ↔
            ¬(others ≠ [] ∧ (r.bodyOf c run x).diagnostics = [] ∧
              (r.modified c.modifier a).inLoop = false)) := by
  intro p r e result c rest a x hvisits ha
  refine ⟨fun type name hd => ?_, fun args run others hcall hruns => ?_⟩
  · refine ⟨_, _, hvisits.leavesDeclaration ha hd, fun c' rest' inBranch b word args hbody hsets => ?_⟩
    obtain ⟨v, new, hleaves⟩ := hsets.leaves inBranch b
    obtain ⟨hmem, hreports⟩ := hbody.records type (r.modified c.modifier a) hleaves.body
    exact ⟨Command.isCallWith_of_plainCall? hsets.call, v, new, hleaves, hmem, hreports⟩
  · have hd := RecipeReader.declared?_include (r := r) hcall hruns
    refine ⟨Command.isCallWith_of_plainCall? hcall, _, _, hvisits.leavesDeclaration ha hd, rfl, rfl, ?_⟩
    rw [includes_singleton_iff rfl rfl, ← RecipeReader.reportsOf_eq_nil_iff r ("include_recipe" : Text)]
    tauto

/-- The command that is all of a file is come to first. -/
theorem Visits.of_command {r : RecipeReader} {around : Surroundings} {e : Extraction} {all : List Statement}
    {c : Command} (h : all = [.command c]) : Visits r all around e [.command c] around e := by
  rw [h]
  exact .start

/-- A property with a value and a key beside it keeps the value, a call of `include_recipe` with two names
declares the first, and nothing is said of the rest. -/
theorem keyed_argument_and_second_name_lost :
    let property : Text := "package 'x' do\n  options 'a', b: 'c'\nend\n"
    let included : Text := "include_recipe 'a', 'b'\n"
    let read (text : Text) := extractDeclarations "a.rb" text [] .empty
    (read property).diagnostics = [] ∧ (read included).diagnostics = [] ∧
      (∃ d ∈ (read property).declarations, ∃ q ∈ d.properties,
        ∃ (c : Command) (ctx : NormalizeContext) (args : List Argument), c.SetsProperty q.name args ∧
          c.LosesKeyed ctx args ∧ ¬Kept ctx args q.value) ∧
      ∃ d ∈ (read included).declarations, ∃ (ctx : NormalizeContext) (run run' : List Token),
        d.name = (ctx.normalize run).value ∧ ¬Includes ctx [run, run'] [d] := by
  intro property included read
  have hproperty : (read property).diagnostics = [] := by decide +kernel
  have hincluded : (read included).diagnostics = [] := by decide +kernel
  refine ⟨hproperty, hincluded, ?_, ?_⟩
  · let p := Program.ofText property
    let r : RecipeReader := ⟨"a.rb", p, []⟩
    have hcommand : (p.command?.any fun c => (assignedName? c).isNone && (r.declared? c).isSome &&
        c.block.any fun b => ({ p with statements := b.body } : Program).command?.any fun c' =>
          c'.block.isNone && c'.modifier.isNone &&
            !c'.head.tail.head?.any Token.continuesExpression && c'.plainCall?.any fun call =>
              call.1 = ("options" : Text) && call.2.any (·.positional?.isSome) &&
                call.2.any (·.keyword?.isSome)) = true := by
      decide +kernel
    obtain ⟨c, hstatements, hc⟩ := Program.exists_command hcommand
    simp only [Bool.and_eq_true, Option.isNone_iff_eq_none, Option.isSome_iff_exists] at hc
    obtain ⟨⟨ha, ⟨type, name⟩, hd⟩, hc⟩ := hc
    obtain ⟨block, hblock, hbody⟩ := (Option.any_eq_true _ _).1 hc
    obtain ⟨c', (hinside : block.body = [.command c']), hc'⟩ := Program.exists_command hbody
    simp only [Bool.and_eq_true, Option.isNone_iff_eq_none, Bool.not_eq_true', Option.any_eq_true,
      decide_eq_true_eq, List.any_eq_true] at hc'
    obtain ⟨⟨⟨hblock', hmodifier⟩, hplain⟩, ⟨word, args⟩, hcall, ⟨rfl, hpositional⟩, hkeyed⟩ := hc'
    have hsets : c'.SetsProperty "options" args := ⟨hcall, hplain, by decide⟩
    obtain ⟨d, reports, hleaves, hall⟩ := (arguments_kept_unless_lost "a.rb" property [] .empty c [] _ _
      (.of_command hstatements) ha).1 type name hd
    have hreports := hleaves.silent hproperty
    obtain ⟨-, v, new, hleft, hmem, hnew⟩ := hall c' [] false _ "options" args
      (by rw [hblock, Option.map_some, Option.getD_some, hinside]; exact .start) hsets
    have hnone : new = [] := List.eq_nil_iff_forall_not_mem.2 fun w hw =>
      List.not_mem_nil (hreports ▸ hnew w hw)
    have hnot : ∀ ctx, ¬Kept ctx args v := fun ctx hkept =>
      not_mixed_of_kept hkept ⟨hpositional, hkeyed⟩
    have hlost := not_not.1 fun hkeeps => (hleft.kept.2 hkeeps).elim (hnot _) (· hnone)
    exact ⟨d, hleaves.declared, _, hmem, c', _, args, hsets, hlost, hnot _⟩
  · let p := Program.ofText included
    have hcommand : (p.command?.any fun c => (assignedName? c).isNone &&
        c.plainCall?.any fun call => call.1 = ("include_recipe" : Text) &&
          (call.2.filterMap Argument.positional?).length = 2) = true := by
      decide +kernel
    obtain ⟨c, hstatements, hc⟩ := Program.exists_command hcommand
    simp only [Bool.and_eq_true, Option.isNone_iff_eq_none, Option.any_eq_true, decide_eq_true_eq] at hc
    obtain ⟨ha, ⟨word, args⟩, hcall, rfl, hlength⟩ := hc
    obtain ⟨run, run', hruns⟩ := List.length_eq_two.1 hlength
    obtain ⟨-, d, reports, hleaves, htype, hname, hiff⟩ := (arguments_kept_unless_lost "a.rb" included []
      .empty c [] _ _ (.of_command hstatements) ha).2 args run [run'] hcall hruns
    refine ⟨d, hleaves.declared, _, run, run', hname, fun hincludes => ?_⟩
    exact absurd (includes_singleton_iff htype hname |>.1 hincludes) (by simp)

end Cookbook
