import Cookbook.Proofs.Declaration.Accounting
import Cookbook.Proofs.Declaration.Body
import Cookbook.Proofs.Value.Reporting

/-!
Code kept as written in declarations, and the warnings about it. What is read for a declaration itself
is warned of where it stands. A name that is assigned a list, a hash or a text around such code brings
the code along, while the warnings of the assignment are dropped.

* `StepsKeep.extractList` is the induction over a whole extraction: what assignments, declarations and
  reports keep holds at the end;
* `ResourceBody.Told` is what the body of a resource keeps, `readBodyList_told` is the run over it;
* `Dropped` says of a piece that an assignment took it in without a warning;
* `declared_verbatims_warned_or_dropped` is the result for whole files.
-/

namespace Cookbook

open RecipeReader

/-! ### What every step keeps -/

section Kept

variable {r : RecipeReader} {all : List Statement} {around : Surroundings} {e : Extraction}

theorem extractBranches_concat (subject : Text) (before after : List Branch) (b : Branch)
    (around : Surroundings) (prior context : List ContextCondition) (e : Extraction)
    (hcontext : (r.branchContexts subject prior (before ++ b :: after))[before.length]? =
      some context) :
    extractBranches r around subject prior (before ++ [b]) e =
      extractList r { around with context := around.context ++ context } b.body
        (extractBranches r around subject prior before e) := by
  induction before generalizing prior e with
  | nil =>
    obtain ⟨word, condition, body, start⟩ := b
    obtain rfl := Option.some.inj hcontext
    rw [List.nil_append, extractBranches, extractBranches, extractBranches, List.append_assoc]
  | cons b' more ih =>
    obtain ⟨word, condition, body, start⟩ := b'
    rw [List.cons_append, extractBranches, ih _ _ hcontext, extractBranches]

/-- Every step that an extraction takes keeps a property: warnings, and the declarations and assignments
that it comes to. -/
structure StepsKeep (r : RecipeReader) (all : List Statement) (around : Surroundings) (e : Extraction)
    (P : Extraction → Prop) : Prop where
  report : ∀ {x : Extraction} (span : Span) (finding : Finding), P x → P (r.report x span finding)
  declare : ∀ {c : Command} {type : Text} {name : List Token} {rest : List Statement} {a : Surroundings}
    {x : Extraction}, Visits r all around e (.command c :: rest) a x → assignedName? c = none →
      r.declared? c = some (type, name) → P x → P (r.declare type c name (r.modified c.modifier a) x)
  assign : ∀ {c : Command} {name : Text} {rest : List Statement} {a : Surroundings} {x : Extraction},
    Visits r all around e (.command c :: rest) a x → assignedName? c = some name → P x →
      P (r.assign c name x)

variable {P : Extraction → Prop}

theorem Command.extract_kept (hP : StepsKeep r all around e P) {c : Command} {rest : List Statement}
    {a : Surroundings} {x : Extraction} (h : Visits r all around e (.command c :: rest) a x) (hx : P x)
    (hbody : ∀ b, c.block = some b → ∀ a x, Visits r all around e b.body a x → P x →
      P (extractList r a b.body x)) : P (c.extract r a x) := by
  cases ha : assignedName? c with
  | some name =>
    rw [Command.extract_of_assigned a ha]
    exact hP.assign h ha hx
  | none =>
    cases hd : r.declared? c with
    | some declared =>
      rw [Command.extract_of_declared a ha hd]
      exact hP.declare h ha hd hx
    | none =>
      cases hb : c.block with
      | none =>
        rw [Command.extract_of_rest a ha hd hb]
        exact hP.report _ _ hx
      | some b =>
        rw [Command.extract_of_block a ha hd hb]
        cases hloop : isIterator c with
        | true => exact hbody b hb _ _ (h.loop ha hd hb hloop) hx
        | false => exact hbody b hb _ _ (h.owner ha hd hb hloop) (hP.report _ _ hx)

mutual

theorem Statement.extract_kept (hP : StepsKeep r all around e P) : ∀ (s : Statement)
    {rest : List Statement} {a : Surroundings} {x : Extraction},
    Visits r all around e (s :: rest) a x → P x → P (s.extract r a x)
  | .command ⟨extent, head, none, inner, modifier⟩, rest, a, x, h, hx => by
    rw [Statement.extract]
    exact Command.extract_kept hP h hx fun _ hb => absurd hb (by simp)
  | .command ⟨extent, head, some ⟨kind, opener, closer, params, body⟩, inner, modifier⟩, rest, a, x, h,
      hx => by
    rw [Statement.extract]
    exact Command.extract_kept hP h hx fun b hb a x => Option.some.inj hb ▸ extractList_kept hP body a x
  | .conditional ⟨extent, word, subject, branches, opener, closer⟩, rest, a, x, h, hx => by
    rw [Statement.extract]
    exact extractBranches_kept hP branches [] h rfl (by rwa [extractBranches])
  | .compound ⟨extent, head, body, opener, closer⟩, rest, a, x, h, hx => by
    cases hrun : Compound.isRun ⟨extent, head, body, opener, closer⟩ with
    | true =>
      rw [Compound.extract_of_isRun hrun]
      exact extractList_kept hP body _ _ (h.body hrun) hx
    | false =>
      rw [Compound.extract_of_not_isRun hrun]
      exact hx

theorem extractList_kept (hP : StepsKeep r all around e P) : ∀ (body : List Statement)
    (a : Surroundings) (x : Extraction), Visits r all around e body a x → P x →
    P (extractList r a body x)
  | [], a, x, h, hx => by rwa [extractList]
  | s :: rest, a, x, h, hx => by
    rw [extractList]
    exact extractList_kept hP rest a _ h.next (Statement.extract_kept hP s h hx)

theorem extractBranches_kept (hP : StepsKeep r all around e P) : ∀ (after before : List Branch)
    {c : Conditional} {rest : List Statement} {a : Surroundings} {x : Extraction},
    Visits r all around e (.conditional c :: rest) a x → c.branches = before ++ after →
    P (extractBranches r a (r.sourceOf c.subject) [] before x) →
    P (extractBranches r a (r.sourceOf c.subject) [] c.branches x)
  | [], before, c, rest, a, x, h, hbranches, hx => by
    rw [hbranches, List.append_nil]
    exact hx
  | ⟨word, condition, body, start⟩ :: more, before, c, rest, a, x, h, hbranches, hx => by
    have hlt : before.length < (r.branchContexts (r.sourceOf c.subject) [] c.branches).length := by
      rw [length_branchContexts, hbranches, List.length_append, List.length_cons]
      omega
    obtain ⟨context, hcontext⟩ : ∃ context,
        (r.branchContexts (r.sourceOf c.subject) [] c.branches)[before.length]? = some context :=
      ⟨_, List.getElem?_eq_getElem hlt⟩
    have hbody := extractList_kept hP body _ _ (h.branch hbranches hcontext) hx
    rw [hbranches] at hcontext
    refine extractBranches_kept hP more (before ++ [⟨word, condition, body, start⟩]) h ?_ ?_
    · rw [hbranches, List.append_assoc]
      rfl
    · rw [extractBranches_concat _ _ _ _ _ _ _ _ hcontext]
      exact hbody

end

theorem RecipeReader.declarations_assign (r : RecipeReader) (c : Command) (name : Text) (x : Extraction) :
    (r.assign c name x).declarations = x.declarations := by
  unfold RecipeReader.assign
  dsimp only
  split_ifs <;> rfl

/-- What every step keeps holds at the end if it holds at the start. -/
theorem StepsKeep.extractList (hP : StepsKeep r all around e P) (he : P e) :
    P (extractList r around all e) :=
  extractList_kept hP all around e .start he

end Kept

/-! ### Warnings about the pieces of a declaration -/

/-- Some warning about a value covers the piece. -/
def Warned (text : Text) (warnings : List Diagnostic) (raw : Text) : Prop :=
  ∃ w ∈ warnings, w.isValueWarning = true ∧ text.sliceSpan w.span = raw

/-- Some warning about a value covers the piece of a property; where the property is given a block of
code, the piece is that code, and the warning about it covers the property. -/
def Property.Warned (text : Text) (warnings : List Diagnostic) (q : Property) (raw : Text) : Prop :=
  Cookbook.Warned text warnings raw ∨
    q.value = .verbatim raw ∧
      ∃ w ∈ warnings, w.isValueWarning = true ∧ w.finding = .codeBlock q.name ∧ w.span = q.span

section Warned

variable {text raw : Text} {warnings more : List Diagnostic}

theorem Warned.mono (h : Warned text warnings raw) (hsub : warnings ⊆ more) : Warned text more raw := by
  obtain ⟨w, hw, hwarns⟩ := h
  exact ⟨w, hsub hw, hwarns⟩

theorem Property.Warned.mono {q : Property} (h : q.Warned text warnings raw) (hsub : warnings ⊆ more) :
    q.Warned text more raw := by
  rcases h with h | ⟨hvalue, w, hw, hwarns⟩
  · exact .inl (h.mono hsub)
  · exact .inr ⟨hvalue, w, hsub hw, hwarns⟩

theorem Warned.about (h : Warned text warnings raw) (ref : Text) :
    Warned text (warnings.map (·.about ref)) raw := by
  obtain ⟨w, hw, hwarns⟩ := h
  exact ⟨w.about ref, List.mem_map_of_mem hw, hwarns⟩

theorem Property.Warned.about {q : Property} (h : q.Warned text warnings raw) (ref : Text) :
    q.Warned text (warnings.map (·.about ref)) raw := by
  rcases h with h | ⟨hvalue, w, hw, hwarns⟩
  · exact .inl (h.about ref)
  · exact .inr ⟨hvalue, w.about ref, List.mem_map_of_mem hw, hwarns⟩

/-- A piece that is reported is warned of, or known beforehand. -/
theorem ReportedBy.known_or_mem {known : Text → Prop} {pieces : List Text}
    (h : ReportedBy text known pieces warnings) (hraw : raw ∈ pieces) :
    known raw ∨ Warned text warnings raw :=
  (h.known_or_warned hraw).imp_right fun ⟨w, hw, hkeeps⟩ =>
    ⟨w, hw, hkeeps.isValueWarning, hkeeps.covers⟩

end Warned

/-! ### Bodies -/

/-- The pieces in what has been read of a resource block are warned of or known beforehand, and the
warnings that were there at the start still are. -/
structure ResourceBody.Told (text : Text) (known : Text → Prop) (start : List Diagnostic)
    (b : ResourceBody) : Prop where
  start : start ⊆ b.diagnostics
  properties : ∀ q ∈ b.properties, ∀ raw ∈ q.value.verbatims,
    known raw ∨ q.Warned text b.diagnostics raw
  notifications : ∀ n ∈ b.notifications, ∀ raw ∈ n.target.verbatims,
    known raw ∨ Warned text b.diagnostics raw

namespace ResourceBody

variable {ctx : NormalizeContext} {start : List Diagnostic} {b b' : ResourceBody}

/-- What is told within a context: the pieces of the names in force are known beforehand. -/
abbrev ToldIn (ctx : NormalizeContext) (start : List Diagnostic) (b : ResourceBody) : Prop :=
  Told ctx.text ctx.constants.Holds start b

theorem Told.more (h : b.ToldIn ctx start) (hproperties : b'.properties = b.properties)
    (hnotifications : b'.notifications = b.notifications) (hsub : b.diagnostics ⊆ b'.diagnostics) :
    b'.ToldIn ctx start where
  start := List.Subset.trans h.start hsub
  properties := by
    rw [hproperties]
    exact fun q hq raw hraw => (h.properties q hq raw hraw).imp_right (·.mono hsub)
  notifications := by
    rw [hnotifications]
    exact fun n hn raw hraw => (h.notifications n hn raw hraw).imp_right (·.mono hsub)

section Told

variable (h : b.ToldIn ctx start)

include h

theorem Told.report (span : Span) (finding : Finding) : (b.report ctx span finding).ToldIn ctx start :=
  h.more rfl rfl (List.subset_append_left _ _)

theorem Told.addGuard (kind : GuardKind) (form : GuardForm) (span : Span) :
    (b.addGuard kind form span).ToldIn ctx start :=
  h.more rfl rfl fun _ hd => hd

theorem Told.addProperty {name : Text} {v : Value} {span : Span}
    (hv : ∀ raw ∈ v.verbatims,
      ctx.constants.Holds raw ∨ Property.Warned ctx.text b.diagnostics ⟨name, v, span⟩ raw) :
    (b.addProperty name v span).ToldIn ctx start where
  start := h.start
  properties q hq := by
    rcases List.mem_append.1 hq with hq | hq
    · exact h.properties q hq
    · obtain rfl := List.mem_singleton.1 hq
      exact hv
  notifications := h.notifications

theorem Told.value (run : List Token) :
    (b.value ctx run).2.ToldIn ctx start ∧ ∀ raw ∈ (b.value ctx run).1.verbatims,
      ctx.constants.Holds raw ∨ Warned ctx.text (b.value ctx run).2.diagnostics raw := by
  refine ⟨h.more rfl rfl (List.subset_append_left _ _), fun raw hraw => ?_⟩
  exact ((ctx.normalize_reports run).known_or_mem hraw).imp_right
    (·.mono (List.subset_append_right _ _))

theorem Told.values (runs : List (List Token)) :
    (b.values ctx runs).2.ToldIn ctx start ∧ ∀ v ∈ (b.values ctx runs).1, ∀ raw ∈ v.verbatims,
      ctx.constants.Holds raw ∨ Warned ctx.text (b.values ctx runs).2.diagnostics raw := by
  refine ⟨h.more rfl rfl (List.subset_append_left _ _), fun v hv raw hraw => ?_⟩
  have hreports : ∀ n ∈ runs.map ctx.normalize, ctx.Reports n := by
    intro n hn
    obtain ⟨run, -, rfl⟩ := List.mem_map.1 hn
    exact ctx.normalize_reports run
  have hreported := ctx.gather_reported hreports
  exact (hreported.known_or_mem (List.mem_flatMap.2 ⟨v, hv, hraw⟩)).imp_right
    (·.mono (List.subset_append_right _ _))

theorem Told.target (run : List Token) :
    (b.target ctx run).2.ToldIn ctx start ∧ ∀ raw ∈ (b.target ctx run).1.verbatims,
      ctx.constants.Holds raw ∨ Warned ctx.text (b.target ctx run).2.diagnostics raw := by
  unfold ResourceBody.target
  split
  · exact h.value _
  · rename_i key _ tokens _
    obtain ⟨htold, hpieces⟩ := h.value tokens
    refine ⟨htold, fun raw hraw => hpieces raw ?_⟩
    simpa [Value.verbatims_interpolate, Value.ofText, Value.verbatims] using hraw
  · exact h.value run

theorem Told.timing (span : Span) (run : Option (List Token)) :
    (b.timing ctx span run).2.ToldIn ctx start ∧
      b.diagnostics ⊆ (b.timing ctx span run).2.diagnostics := by
  unfold ResourceBody.timing
  split
  · exact ⟨h, fun _ hd => hd⟩
  · rename_i run
    have hvalue := (h.value run).1
    have hsub : b.diagnostics ⊆ (b.value ctx run).2.diagnostics := List.subset_append_left _ _
    dsimp only
    split
    · exact ⟨hvalue, hsub⟩
    · exact ⟨hvalue.report _ _, List.Subset.trans hsub (List.subset_append_left _ _)⟩

theorem Told.beforeTiming (span : Span) (declared : Text) :
    let b' := if declared = ("before" : Text) then b.report ctx span .beforeTiming else b
    b'.ToldIn ctx start ∧ b.diagnostics ⊆ b'.diagnostics := by
  dsimp only
  split
  · exact ⟨h.report _ _, List.subset_append_left _ _⟩
  · exact ⟨h, fun _ hd => hd⟩

theorem Told.notification (direction : Direction) (span : Span) (runs : List (List Token)) :
    (b.notification ctx direction span runs).ToldIn ctx start := by
  unfold ResourceBody.notification
  split
  · rename_i actionRun targetRun rest
    have haction := (h.value actionRun).1
    dsimp only
    split
    · exact haction.report _ _
    · rename_i action _
      obtain ⟨htarget, hpieces⟩ := haction.target targetRun
      obtain ⟨htiming, hsub⟩ := htarget.timing span rest.head?
      obtain ⟨hlast, hsub'⟩ := htiming.beforeTiming span
        (((b.value ctx actionRun).2.target ctx targetRun).2.timing ctx span rest.head?).1
      refine ⟨hlast.start, hlast.properties, fun n hn raw hraw => ?_⟩
      rcases List.mem_append.1 hn with hn | hn
      · exact hlast.notifications n hn raw hraw
      · obtain rfl := List.mem_singleton.1 hn
        exact (hpieces raw hraw).imp_right (·.mono (List.Subset.trans hsub hsub'))
  · exact h.report _ _

theorem Told.guard (kind : GuardKind) (c : Command) (span : Span) (runs : List (List Token)) :
    (b.guard ctx kind c span runs).ToldIn ctx start := by
  unfold ResourceBody.guard
  split
  · exact h.addGuard _ _ _
  · split
    · exact h.report _ _
    · rename_i run _
      have hvalue := (h.value run).1
      dsimp only
      split
      · exact hvalue.addGuard _ _ _
      · exact hvalue.addGuard _ _ _

theorem Told.action (conditional : Bool) (c : Command) (span : Span) (runs : List (List Token)) :
    (b.action ctx conditional c span runs).ToldIn ctx start := by
  unfold ResourceBody.action
  cases runs with
  | nil => exact h.report _ _
  | cons run rest =>
    have hvalue := (h.value run).1
    dsimp only
    split
    · exact hvalue.report _ _
    · exact hvalue.more rfl rfl fun _ hd => hd

theorem Told.arguments (name : Text) (span : Span) (args : List Argument) :
    (b.arguments ctx name span args).ToldIn ctx start := by
  unfold ResourceBody.arguments
  split
  · rename_i pairs _
    obtain ⟨hvalues, hpieces⟩ := h.values (pairs.map (·.2))
    refine hvalues.addProperty fun raw hraw => ?_
    rw [Value.verbatims, verbatimsOf_eq, List.flatMap_map] at hraw
    obtain ⟨⟨pair, v⟩, hmem, hraw⟩ := List.mem_flatMap.1 hraw
    exact (hpieces v (List.of_mem_zip hmem).2 raw hraw).imp_right .inl
  · obtain ⟨hvalues, hpieces⟩ := h.values (args.filterMap Argument.positional?)
    refine hvalues.addProperty fun raw hraw => ?_
    rw [Value.verbatims, verbatimsIn_eq] at hraw
    obtain ⟨v, hv, hraw⟩ := List.mem_flatMap.1 hraw
    exact (hpieces v hv raw hraw).imp_right .inl

/-- The code of a block is the piece of a property, and the warning has the property's stretch. -/
theorem Told.codeBlock (name : Text) (span : Span) (raw : Text) :
    ((b.addProperty name (.verbatim raw) span).report ctx span (.codeBlock name)).ToldIn ctx start where
  start := List.Subset.trans h.start (List.subset_append_left _ _)
  properties q hq raw' hraw := by
    rcases List.mem_append.1 hq with hq | hq
    · exact (h.properties q hq raw' hraw).imp_right (·.mono (List.subset_append_left _ _))
    · obtain rfl := List.mem_singleton.1 hq
      obtain rfl := List.mem_singleton.1 hraw
      exact .inr (.inr ⟨rfl, _, List.mem_append_right _ List.mem_cons_self, rfl, rfl, rfl⟩)
  notifications n hn raw' hraw :=
    (h.notifications n hn raw' hraw).imp_right (·.mono (List.subset_append_left _ _))

theorem Told.property (name : Text) (c : Command) (span : Span) (args : List Argument) :
    (b.property ctx name c span args).ToldIn ctx start := by
  cases hc : c.block with
  | some block =>
    unfold ResourceBody.property
    rw [hc]
    exact h.codeBlock name span _
  | none =>
    match args with
    | [] =>
      unfold ResourceBody.property
      rw [hc]
      exact h.addProperty fun raw hraw => absurd hraw List.not_mem_nil
    | [.positional run] =>
      obtain ⟨hvalue, hpieces⟩ := h.value run
      unfold ResourceBody.property
      rw [hc]
      exact hvalue.addProperty fun raw hraw => (hpieces raw hraw).imp_right .inl
    | [.keyword key token run] =>
      rw [property_keyword b ctx name hc]
      exact h.arguments name span _
    | arg :: arg' :: rest =>
      rw [property_several b ctx name hc]
      exact h.arguments name span _

theorem Told.noteModifier (span : Span) (modifier : Option Modifier) :
    (b.noteModifier ctx span modifier).ToldIn ctx start := by
  cases modifier with
  | none => exact h
  | some m => exact h.report _ _

theorem Told.call (conditional : Bool) (c : Command) (span : Span) (word : Text)
    (args : List Argument) : (b.call ctx conditional c span word args).ToldIn ctx start := by
  unfold ResourceBody.call
  dsimp only
  split_ifs
  · exact h.action _ _ _ _
  · exact h.guard _ _ _ _
  · exact h.guard _ _ _ _
  · exact h.notification _ _ _
  · exact h.notification _ _ _
  · exact h.property _ _ _ _

theorem Told.command (inBranch : Bool) (c : Command) : (b.command ctx inBranch c).ToldIn ctx start := by
  cases hexpr : c.head.tail.head?.any Token.continuesExpression with
  | true =>
    rw [command_none b ctx inBranch (.inl hexpr)]
    exact (h.noteModifier _ _).report _ _
  | false =>
    cases hcall : c.plainCall? with
    | none =>
      rw [command_none b ctx inBranch (.inr hcall)]
      exact (h.noteModifier _ _).report _ _
    | some call =>
      rw [command_some b ctx inBranch hexpr hcall]
      exact (h.noteModifier _ _).call _ _ _ _ _

end Told

end ResourceBody

mutual

theorem Statement.readBody_told {ctx : NormalizeContext} {start : List Diagnostic} (inBranch : Bool) :
    ∀ (s : Statement) {b : ResourceBody}, b.ToldIn ctx start → (s.readBody ctx inBranch b).ToldIn ctx start
  | .command c, b, h => by
    rw [Statement.readBody]
    exact h.command inBranch c
  | .conditional ⟨extent, word, subject, branches, opener, closer⟩, b, h => by
    rw [Statement.readBody]
    exact readFirstBranch_told branches (h.report _ _)
  | .compound ⟨extent, head, body, opener, closer⟩, b, h => by
    rw [Statement.readBody]
    exact h.report _ _

theorem readBodyList_told {ctx : NormalizeContext} {start : List Diagnostic} (inBranch : Bool) :
    ∀ (body : List Statement) {b : ResourceBody}, b.ToldIn ctx start →
      (readBodyList ctx inBranch body b).ToldIn ctx start
  | [], b, h => by rwa [readBodyList]
  | s :: rest, b, h => by
    rw [readBodyList]
    exact readBodyList_told inBranch rest (Statement.readBody_told inBranch s h)

theorem readFirstBranch_told {ctx : NormalizeContext} {start : List Diagnostic} :
    ∀ (branches : List Branch) {b : ResourceBody}, b.ToldIn ctx start →
      (readFirstBranch ctx branches b).ToldIn ctx start
  | [], b, h => by rwa [readFirstBranch]
  | ⟨word, condition, body, start'⟩ :: rest, b, h => by
    rw [readFirstBranch]
    exact readBodyList_told true body h

end

/-! ### Declarations and assignments -/

/-- The pieces of a declaration are warned of or satisfy `known`. -/
structure Declaration.Told (text : Text) (warnings : List Diagnostic) (known : Text → Prop)
    (d : Declaration) : Prop where
  name : ∀ raw ∈ d.name.verbatims, known raw ∨ Warned text warnings raw
  properties : ∀ q ∈ d.properties, ∀ raw ∈ q.value.verbatims, known raw ∨ q.Warned text warnings raw
  notifications : ∀ n ∈ d.notifications, ∀ raw ∈ n.target.verbatims,
    known raw ∨ Warned text warnings raw

theorem Declaration.Told.mono {text : Text} {warnings more : List Diagnostic} {known known' : Text → Prop}
    {d : Declaration} (h : d.Told text warnings known) (hsub : warnings ⊆ more)
    (hknown : ∀ raw, known raw → known' raw) : d.Told text more known' where
  name raw hraw := (h.name raw hraw).imp (hknown raw) (·.mono hsub)
  properties q hq raw hraw := (h.properties q hq raw hraw).imp (hknown raw) (·.mono hsub)
  notifications n hn raw hraw := (h.notifications n hn raw hraw).imp (hknown raw) (·.mono hsub)

/-- The declaration of a resource adds what is told of it with its warnings. -/
theorem RecipeReader.declare_told (r : RecipeReader) (type : Text) (c : Command) (name : List Token)
    (a : Surroundings) (x : Extraction) :
    ∃ d, (r.declare type c name a x).declarations = x.declarations ++ [d] ∧
      d.Told r.text (r.declare type c name a x).diagnostics x.constants.Holds := by
  let ctx := r.ctx x
  have hstart : (ResourceBody.start (ctx.normalize name).diagnostics).ToldIn ctx
      (ctx.normalize name).diagnostics :=
    ⟨fun _ hd => hd, fun q hq => absurd hq List.not_mem_nil, fun n hn => absurd hn List.not_mem_nil⟩
  have hbody := readBodyList_told false ((c.block.map (·.body)).getD []) hstart
  have hname := fun raw (hraw : raw ∈ (ctx.normalize name).value.verbatims) =>
    (ctx.normalize_reports name).known_or_mem hraw
  refine ⟨_, rfl, Declaration.Told.mono ⟨?_, ?_, ?_⟩ (List.subset_append_right _ _) fun _ h => h⟩
  · exact fun raw hraw => (hname raw hraw).imp_right fun hwarned =>
      (hwarned.mono (List.subset_append_of_subset_left _ hbody.start)).about _
  · exact fun q hq raw hraw => (hbody.properties q hq raw hraw).imp_right fun hwarned =>
      (hwarned.mono (List.subset_append_left _ _)).about _
  · exact fun n hn raw hraw => (hbody.notifications n hn raw hraw).imp_right fun hwarned =>
      (hwarned.mono (List.subset_append_left _ _)).about _

/-- A piece of code that an assignment takes in: the extraction comes to the assignment, which sets its
name to a value with the piece in it; reading the value warns of the piece, and that warning is not
kept. -/
inductive Dropped (r : RecipeReader) (all : List Statement) (around : Surroundings) (e : Extraction)
    (raw : Text) : Prop
  | mk {c : Command} {name : Text} {rest : List Statement} {a : Surroundings} {x : Extraction}
      {w : Diagnostic} (h : Visits r all around e (.command c :: rest) a x)
      (hname : assignedName? c = some name)
      (hpiece : raw ∈ ((r.ctx x).normalize (c.head.drop 2)).value.verbatims)
      (hwarning : w ∈ ((r.ctx x).normalize (c.head.drop 2)).diagnostics) (hkeeps : w.Keeps r.text raw)
      (hset : c.extract r a x =
        { x with constants := x.constants.set name ((r.ctx x).normalize (c.head.drop 2)).value })
      (hinner : ((r.ctx x).normalize (c.head.drop 2)).value.isVerbatim = false)

section Dropped

variable {r : RecipeReader} {all : List Statement} {around : Surroundings} {e : Extraction}

theorem Bindings.Holds.of_erase {constants : Bindings Value} {name raw : Text}
    (h : (constants.erase name).Holds raw) : constants.Holds raw := by
  obtain ⟨other, v, hv, hraw⟩ := h
  rw [Bindings.get?_erase] at hv
  split at hv
  · exact absurd hv (by simp)
  · exact ⟨other, v, hv, hraw⟩

theorem Bindings.Holds.of_set {constants : Bindings Value} {name raw : Text} {v : Value}
    (h : (constants.set name v).Holds raw) : raw ∈ v.verbatims ∨ constants.Holds raw := by
  obtain ⟨other, w, hw, hraw⟩ := h
  rw [Bindings.get?_set] at hw
  split at hw
  · obtain rfl := Option.some.inj hw
    exact .inl hraw
  · exact .inr ⟨other, w, hw, hraw⟩

/-- The pieces of the names in force come from assignments. -/
theorem holds_assign {c : Command} {name : Text} {rest : List Statement} {a : Surroundings}
    {x : Extraction} (h : Visits r all around e (.command c :: rest) a x)
    (hname : assignedName? c = some name)
    (hx : ∀ raw, x.constants.Holds raw → Dropped r all around e raw) (raw : Text)
    (hraw : (r.assign c name x).constants.Holds raw) : Dropped r all around e raw := by
  have hextract := Command.extract_of_assigned (r := r) (e := x) a hname
  cases hb : c.block.isSome with
  | true =>
    rw [RecipeReader.assign, if_pos hb] at hraw
    exact hx raw hraw
  | false =>
    rw [RecipeReader.assign, if_neg (by simp [hb])] at hraw hextract
    cases hm : c.modifier.isSome with
    | true =>
      rw [if_pos hm] at hraw
      exact hx raw hraw.of_erase
    | false =>
      rw [if_neg (by simp [hm])] at hraw hextract
      cases hv : ((r.ctx x).normalize (c.head.drop 2)).value.isVerbatim with
      | true =>
        dsimp only at hraw
        rw [if_pos hv] at hraw
        exact hx raw hraw.of_erase
      | false =>
        dsimp only at hraw hextract
        rw [if_neg (by simp [hv])] at hraw hextract
        rcases hraw.of_set with hpiece | hraw
        · rcases ((r.ctx x).normalize_reports (c.head.drop 2)).known_or_warned hpiece with
            hknown | ⟨w, hw, hkeeps⟩
          · exact hx raw hknown
          · exact .mk h hname hpiece hw hkeeps hextract hv
        · exact hx raw hraw

theorem stepsKeep_told : StepsKeep r all around e fun x =>
    (∀ raw, x.constants.Holds raw → Dropped r all around e raw) ∧
      ∀ d ∈ x.declarations, d.Told r.text x.diagnostics (Dropped r all around e) where
  report span finding hx :=
    ⟨hx.1, fun d hd => (hx.2 d hd).mono (List.subset_append_left _ _) fun _ h => h⟩
  declare {c type name rest a x} _ _ _ hx := by
    obtain ⟨d, hdeclarations, htold⟩ := r.declare_told type c name (r.modified c.modifier a) x
    refine ⟨hx.1, fun d' hd' => ?_⟩
    rw [hdeclarations] at hd'
    rcases List.mem_append.1 hd' with hd' | hd'
    · exact (hx.2 d' hd').mono (Extraction.Grows.declare r type c name _ x).diagnostics.subset
        fun _ h => h
    · obtain rfl := List.mem_singleton.1 hd'
      exact htold.mono (List.Subset.refl _) hx.1
  assign {c name rest a x} hvisits hname hx := by
    refine ⟨holds_assign hvisits hname hx.1, ?_⟩
    rw [declarations_assign]
    exact fun d hd => (hx.2 d hd).mono (Extraction.Grows.assign r c name x).diagnostics.subset
      fun _ h => h

end Dropped

/-! ### Whole files -/

/-- Every piece of code kept as written in the name, the properties or the notification targets of a
declaration has a warning about a value that covers it or, for the code of a block, the property;
unless it came in with a name: then an assignment took it in, and the warning about it was dropped. -/
theorem declared_verbatims_warned_or_dropped (source text : Text) (knownTypes : List Text)
    (d : Declaration) :
    let p := Program.ofText text
    let r : RecipeReader := ⟨source, p, knownTypes⟩
    let e : Extraction := ⟨.empty, [], p.problems.map (Diagnostic.ofProblem source p.lines)⟩
    let result := extractDeclarations source text knownTypes .empty
    d ∈ result.declarations →
      d.Told text result.diagnostics (Dropped r p.statements ⟨[], false⟩ e) := by
  intro p r e result hd
  have hempty : ∀ raw, e.constants.Holds raw → Dropped r p.statements ⟨[], false⟩ e raw := by
    rintro raw ⟨name, v, hv, -⟩
    exact absurd hv (by simp [e, Bindings.get?, Bindings.empty])
  exact (stepsKeep_told.extractList ⟨hempty, fun d hd => absurd hd List.not_mem_nil⟩).2 d hd

/-- A name that stands for a list with code in it brings the code into the name of a resource, and
nothing is said about it. -/
theorem verbatim_of_list_dropped :
    let text : Text := "x = [lookup(1)]\npackage x do\nend\n"
    let p := Program.ofText text
    let r : RecipeReader := ⟨"recipe.rb", p, []⟩
    let e : Extraction := ⟨.empty, [], p.problems.map (Diagnostic.ofProblem "recipe.rb" p.lines)⟩
    let result := extractDeclarations "recipe.rb" text [] .empty
    result.diagnostics = [] ∧ ∃ d ∈ result.declarations, d.name.verbatims = ["lookup(1)"] ∧
      d.Told text result.diagnostics (Dropped r p.statements ⟨[], false⟩ e) ∧
      Dropped r p.statements ⟨[], false⟩ e "lookup(1)" := by
  intro text p r e result
  have hdiagnostics : result.diagnostics = [] := by decide +kernel
  have hnames : result.declarations.map (·.name.verbatims) = [[("lookup(1)" : Text)]] := by decide +kernel
  have hmem : (["lookup(1)"] : List Text) ∈ result.declarations.map (·.name.verbatims) := by
    rw [hnames]
    exact List.mem_cons_self
  obtain ⟨d, hd, hname⟩ := List.mem_map.1 hmem
  have htold := declared_verbatims_warned_or_dropped "recipe.rb" text [] d hd
  refine ⟨hdiagnostics, d, hd, hname, htold, ?_⟩
  refine (htold.name "lookup(1)" (by rw [hname]; exact List.mem_cons_self)).resolve_right ?_
  rintro ⟨w, hw, -⟩
  exact absurd (hdiagnostics ▸ hw : w ∈ ([] : List Diagnostic)) List.not_mem_nil

end Cookbook
