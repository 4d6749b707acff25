import Cookbook.Declaration.Body
import Cookbook.Proofs.Statement.Shift
import Cookbook.Proofs.Statement.Within
import Cookbook.Proofs.Value.Reading

/-!
The body of a resource block in a longer text. All that is read of it is the same, with its stretches
as much further on as the text stands; only the diagnostics are not compared.

* `Property.shift`, `Guard.shift` and `Notification.shift` move what a body holds;
* `ResourceBody.Agrees` compares a body with a moved one;
* `Agrees.command` is one command, `readBodyList_shift` a whole block.
-/

namespace Cookbook

/-! ### Plain calls -/

theorem Token.continuesExpression_shift (k : Nat) (t : Token) :
    (t.shift k).continuesExpression = t.continuesExpression := by
  simp [Token.continuesExpression]

theorem Command.tailContinues_shift (k n : Nat) (c : Command) :
    (c.shift k n).head.tail.head?.any Token.continuesExpression =
      c.head.tail.head?.any Token.continuesExpression := by
  rw [Command.head_shift, ← List.map_tail, List.head?_map, Option.any_map]
  simp only [Token.continuesExpression_shift]

theorem Command.plainCall?_shift (k n : Nat) (c : Command) :
    (c.shift k n).plainCall? =
      c.plainCall?.map fun (word, args) => (word, args.map (Argument.shift k)) := by
  obtain ⟨extent, head, block, innerBlocks, modifier⟩ := c
  rw [Command.shift_mk]
  unfold Command.plainCall?
  simp only [List.head?_map, Call.ofRun?_shift]
  cases head.head? with
  | none => rfl
  | some first =>
    simp only [Option.map_some, Option.bind_some, Token.valueOf?_shift]
    cases first.valueOf? .ident with
    | none => rfl
    | some word =>
      cases Call.ofRun? head with
      | none => rfl
      | some call =>
        simp only [Option.map_some, Call.shift, Option.bind_eq_bind, Option.bind_some,
          List.isEmpty_map]
        split <;> rfl

theorem Command.runWithin_plainCall? {hi : Nat} {c : Command} (hc : c.Within hi) {word : Text}
    {args : List Argument} (hcall : c.plainCall? = some (word, args)) :
    ∀ arg ∈ args, RunWithin hi arg.tokens := by
  intro arg harg
  obtain ⟨-, hhead, -, -⟩ := Command.within_iff.1 hc
  unfold Command.plainCall? at hcall
  obtain ⟨first, -, hcall⟩ := Option.bind_eq_some_iff.1 hcall
  obtain ⟨call, hread, hcall⟩ := Option.bind_eq_some_iff.1 hcall
  split at hcall
  · obtain ⟨-, rfl⟩ := Prod.mk.inj (Option.some.inj hcall)
    exact hhead.sublist (Call.sublist_of_mem_args hread harg).subset
  · exact absurd hcall (by simp)

theorem Argument.runWithin_positional? {hi : Nat} {args : List Argument}
    (hargs : ∀ arg ∈ args, RunWithin hi arg.tokens) :
    ∀ run ∈ args.filterMap Argument.positional?, RunWithin hi run := by
  intro run hrun
  obtain ⟨arg, harg, hpos⟩ := List.mem_filterMap.1 hrun
  cases arg with
  | positional tokens =>
    obtain rfl := Option.some.inj hpos
    exact hargs _ harg
  | keyword key token tokens => exact absurd hpos (by simp [Argument.positional?])

/-! ### Moved contents -/

def Property.shift (k l : Nat) (p : Property) : Property := { p with span := p.span.shift k l }

def Guard.shift (k l : Nat) (g : Guard) : Guard := { g with span := g.span.shift k l }

def Notification.shift (k l : Nat) (n : Notification) : Notification :=
  { n with span := n.span.shift k l }

namespace ResourceBody

/-- `b'` holds the same as `b`, `k` units and `l` lines further on. -/
structure Agrees (k l : Nat) (b' b : ResourceBody) : Prop where
  actions : b'.actions = b.actions
  properties : b'.properties = b.properties.map (Property.shift k l)
  guards : b'.guards = b.guards.map (Guard.shift k l)
  notifications : b'.notifications = b.notifications.map (Notification.shift k l)

namespace Agrees

variable {k l : Nat} {b' b : ResourceBody} (hb : Agrees k l b' b)

include hb

theorem report (ctx' ctx : NormalizeContext) (span' span : Span) (finding' finding : Finding) :
    Agrees k l (b'.report ctx' span' finding') (b.report ctx span finding) :=
  ⟨hb.actions, hb.properties, hb.guards, hb.notifications⟩

theorem addProperty (name : Text) (v : Value) (span : Span) :
    Agrees k l (b'.addProperty name v (span.shift k l)) (b.addProperty name v span) where
  actions := hb.actions
  properties := by simp [ResourceBody.addProperty, hb.properties, Property.shift]
  guards := hb.guards
  notifications := hb.notifications

theorem addGuard (kind : GuardKind) (form : GuardForm) (span : Span) :
    Agrees k l (b'.addGuard kind form (span.shift k l)) (b.addGuard kind form span) where
  actions := hb.actions
  properties := hb.properties
  guards := by simp [ResourceBody.addGuard, hb.guards, Guard.shift]
  notifications := hb.notifications

theorem addNotification (action : Text) (target : Value) (timing : Timing) (declared : Text)
    (direction : Direction) (span : Span) :
    Agrees k l
      { b' with
        notifications :=
          b'.notifications ++ [⟨action, target, timing, declared, direction, span.shift k l⟩] }
      { b with
        notifications := b.notifications ++ [⟨action, target, timing, declared, direction, span⟩] } where
  actions := hb.actions
  properties := hb.properties
  guards := hb.guards
  notifications := by simp [hb.notifications, Notification.shift]

end Agrees

/-! ### Values -/

section Embedded

variable {ctx' ctx : NormalizeContext} {before after : Text} (h : ctx'.Embeds ctx before after)
  {b' b : ResourceBody} (hb : Agrees before.length before.lineCount b' b)

include h hb

theorem Agrees.value {run : List Token} (hrun : RunWithin ctx.text.length run) :
    (b'.value ctx' (run.map (Token.shift before.length))).1 = (b.value ctx run).1 ∧
      Agrees before.length before.lineCount (b'.value ctx' (run.map (Token.shift before.length))).2
        (b.value ctx run).2 :=
  ⟨NormalizeContext.normalize_shift h hrun, ⟨hb.actions, hb.properties, hb.guards, hb.notifications⟩⟩

theorem Agrees.values {runs : List (List Token)} (hruns : ∀ run ∈ runs, RunWithin ctx.text.length run) :
    (b'.values ctx' (runs.map (List.map (Token.shift before.length)))).1 = (b.values ctx runs).1 ∧
      Agrees before.length before.lineCount
        (b'.values ctx' (runs.map (List.map (Token.shift before.length)))).2 (b.values ctx runs).2 := by
  refine ⟨?_, ⟨hb.actions, hb.properties, hb.guards, hb.notifications⟩⟩
  simp only [ResourceBody.values, Normalized.gather, List.map_map]
  exact List.map_congr_left fun run hrun => NormalizeContext.normalize_shift h (hruns run hrun)

/-! ### Notifications -/

omit h hb in
theorem resourcesArgument?_shift (k : Nat) (run : List Token) :
    resourcesArgument? (run.map (Token.shift k)) = (resourcesArgument? run).map (Argument.shift k) := by
  unfold resourcesArgument?
  simp only [List.head?_map, Option.any_map, Call.ofRun?_shift, Token.isIdent_shift]
  split
  · rfl
  · cases Call.ofRun? run with
    | none => rfl
    | some call =>
      obtain ⟨name, args, trailing⟩ := call
      cases trailing with
      | cons t more => rfl
      | nil =>
        cases args with
        | nil => rfl
        | cons arg more => cases more <;> rfl

omit h hb in
theorem runWithin_resourcesArgument? {hi : Nat} {run : List Token} {arg : Argument}
    (hrun : RunWithin hi run) (harg : resourcesArgument? run = some arg) :
    RunWithin hi arg.tokens := by
  unfold resourcesArgument? at harg
  split at harg
  · exact absurd harg (by simp)
  · obtain ⟨call, hcall, harg⟩ := Option.bind_eq_some_iff.1 harg
    split at harg
    · rename_i only htrailing hargs
      obtain rfl := Option.some.inj harg
      have hmem : only ∈ call.args := hargs ▸ List.mem_cons_self
      exact hrun.sublist (Call.sublist_of_mem_args hcall hmem).subset
    · exact absurd harg (by simp)

theorem Agrees.target {run : List Token} (hrun : RunWithin ctx.text.length run) :
    (b'.target ctx' (run.map (Token.shift before.length))).1 = (b.target ctx run).1 ∧
      Agrees before.length before.lineCount (b'.target ctx' (run.map (Token.shift before.length))).2
        (b.target ctx run).2 := by
  unfold ResourceBody.target
  rw [resourcesArgument?_shift]
  cases harg : resourcesArgument? run with
  | none => exact hb.value h hrun
  | some arg =>
    have hwithin := runWithin_resourcesArgument? hrun harg
    cases arg with
    | positional tokens => exact hb.value h hwithin
    | keyword key token tokens =>
      obtain ⟨hvalue, hagrees⟩ := hb.value h hwithin
      simp only [Option.map_some, Argument.shift, Argument.tokens] at hvalue hagrees ⊢
      exact ⟨by rw [hvalue], hagrees⟩

theorem Agrees.timing {run : Option (List Token)} (hrun : ∀ r ∈ run, RunWithin ctx.text.length r)
    (span' span : Span) :
    (b'.timing ctx' span' (run.map (List.map (Token.shift before.length)))).1 =
        (b.timing ctx span run).1 ∧
      Agrees before.length before.lineCount
        (b'.timing ctx' span' (run.map (List.map (Token.shift before.length)))).2
        (b.timing ctx span run).2 := by
  unfold ResourceBody.timing
  cases run with
  | none => exact ⟨rfl, hb⟩
  | some run =>
    obtain ⟨hvalue, hagrees⟩ := hb.value h (hrun run rfl)
    simp only [Option.map_some, hvalue]
    split
    · exact ⟨rfl, hagrees⟩
    · exact ⟨rfl, hagrees.report _ _ _ _ _ _⟩

theorem Agrees.notification {runs : List (List Token)}
    (hruns : ∀ run ∈ runs, RunWithin ctx.text.length run) (direction : Direction) (span : Span) :
    Agrees before.length before.lineCount
      (b'.notification ctx' direction (span.shift before.length before.lineCount)
        (runs.map (List.map (Token.shift before.length))))
      (b.notification ctx direction span runs) := by
  unfold ResourceBody.notification
  cases runs with
  | nil => exact hb.report _ _ _ _ _ _
  | cons actionRun rest =>
    cases rest with
    | nil => exact hb.report _ _ _ _ _ _
    | cons targetRun rest =>
      obtain ⟨haction, hb₁⟩ := hb.value h (hruns actionRun (by simp))
      simp only [List.map_cons, List.head?_map, haction]
      cases (b.value ctx actionRun).1.literalText? with
      | none => exact hb₁.report _ _ _ _ _ _
      | some action =>
        obtain ⟨htarget, hb₂⟩ := hb₁.target h (hruns targetRun (by simp))
        have hrest : ∀ r ∈ rest.head?, RunWithin ctx.text.length r := by
          intro r hr
          have := List.mem_of_mem_head? hr
          exact hruns r (by simp [this])
        obtain ⟨htiming, hb₃⟩ := hb₂.timing h hrest (span.shift before.length before.lineCount) span
        simp only [htarget, htiming]
        generalize (((b.value ctx actionRun).2.target ctx targetRun).2.timing ctx span rest.head?).1 =
          declared
        by_cases hdeclared : declared = ("before" : Text)
        · simp only [hdeclared, if_true]
          exact (hb₃.report _ _ _ _ _ _).addNotification _ _ _ _ _ _
        · simp only [hdeclared, if_false]
          exact hb₃.addNotification _ _ _ _ _ _

/-! ### Guards -/

omit hb in
theorem blockCode_shift {block : Block} {fallback n : Nat} (hblock : block.Within ctx.text.length)
    (hfallback : fallback ≤ ctx.text.length) :
    blockCode ctx'.text (block.shift before.length n) (fallback + before.length) =
      blockCode ctx.text block fallback := by
  obtain ⟨kind, opener, closer, params, body⟩ := block
  obtain ⟨-, hcloser, -⟩ := Block.within_iff.1 hblock
  rw [Block.shift_mk]
  unfold blockCode
  cases closer with
  | none =>
    dsimp only [Option.map_none, Option.getD_none, Token.stop_shift]
    rw [show ctx'.text = ctx'.lines.text from rfl, h.lines.slice opener.stop hfallback]
    rfl
  | some t =>
    have ht := hcloser t rfl
    dsimp only [Option.map_some, Option.getD_some, Token.stop_shift, Token.start_shift]
    rw [show ctx'.text = ctx'.lines.text from rfl, h.lines.slice opener.stop (ht.order.trans ht.stop)]
    rfl

theorem Agrees.guard {c : Command} (hc : c.Within ctx.text.length) {runs : List (List Token)}
    (hruns : ∀ run ∈ runs, RunWithin ctx.text.length run) (kind : GuardKind) (span : Span) (n : Nat) :
    Agrees before.length before.lineCount
      (b'.guard ctx' kind (c.shift before.length n) (span.shift before.length before.lineCount)
        (runs.map (List.map (Token.shift before.length))))
      (b.guard ctx kind c span runs) := by
  obtain ⟨extent, head, block, innerBlocks, modifier⟩ := c
  obtain ⟨hextent, -, hblock, -⟩ := Command.within_iff.1 hc
  rw [Command.shift_mk]
  unfold ResourceBody.guard
  cases block with
  | some block =>
    simp only [Option.map_some, Extent.shift, blockCode_shift h (hblock block rfl) hextent.stop]
    exact hb.addGuard _ _ _
  | none =>
    cases runs with
    | nil => exact hb.report _ _ _ _ _ _
    | cons run rest =>
      have hrun := hruns run List.mem_cons_self
      obtain ⟨hvalue, hagrees⟩ := hb.value h hrun
      have hsource := sourceOf_shift h.lines fun t ht => (hrun t ht).stop
      simp only [Option.map_none, List.map_cons, hvalue]
      split
      · exact hagrees.addGuard _ _ _
      · rw [show ctx'.text = ctx'.lines.text from rfl, hsource]
        exact hagrees.addGuard _ _ _

/-! ### Actions and properties -/

theorem Agrees.action {runs : List (List Token)} (hruns : ∀ run ∈ runs, RunWithin ctx.text.length run)
    (conditional : Bool) (c' c : Command) (span' span : Span) :
    Agrees before.length before.lineCount
      (b'.action ctx' conditional c' span' (runs.map (List.map (Token.shift before.length))))
      (b.action ctx conditional c span runs) := by
  have hactions : ∀ {b' b : ResourceBody} (names : List Text),
      Agrees before.length before.lineCount b' b →
      Agrees before.length before.lineCount
        { b' with actions := (if conditional then [] else b'.actions) ++ names }
        { b with actions := (if conditional then [] else b.actions) ++ names } := by
    intro b' b names hb
    exact ⟨by rw [hb.actions], hb.properties, hb.guards, hb.notifications⟩
  unfold ResourceBody.action
  cases runs with
  | nil => exact hb.report _ _ _ _ _ _
  | cons run rest =>
    obtain ⟨hvalue, hagrees⟩ := hb.value h (hruns run List.mem_cons_self)
    simp only [List.map_cons, hvalue]
    cases actionNames? (b.value ctx run).1 with
    | none => exact hagrees.report _ _ _ _ _ _
    | some names => exact hactions names hagrees

omit h hb in
/-- A property with several arguments, or with one that has a key: a hash when all have keys, and
else a list. -/
def arguments (b : ResourceBody) (ctx : NormalizeContext) (name : Text) (span : Span)
    (args : List Argument) : ResourceBody :=
  match args.mapM Argument.keyword? with
  | some pairs =>
    let (values, b) := b.values ctx (pairs.map (·.2))
    b.addProperty name (.map ((pairs.zip values).map fun (pair, v) => ⟨pair.1, v⟩)) span
  | none =>
    let (values, b) := b.values ctx (args.filterMap Argument.positional?)
    b.addProperty name (.list values) span

omit h hb in
theorem property_keyword (b : ResourceBody) (ctx : NormalizeContext) (name : Text) {c : Command}
    (hc : c.block = none) (span : Span) (key : Text) (token : Token) (run : List Token) :
    b.property ctx name c span [.keyword key token run] =
      b.arguments ctx name span [.keyword key token run] := by
  unfold ResourceBody.property
  rw [hc]
  rfl

omit h hb in
theorem property_several (b : ResourceBody) (ctx : NormalizeContext) (name : Text) {c : Command}
    (hc : c.block = none) (span : Span) (arg arg' : Argument) (rest : List Argument) :
    b.property ctx name c span (arg :: arg' :: rest) =
      b.arguments ctx name span (arg :: arg' :: rest) := by
  unfold ResourceBody.property
  rw [hc]
  cases arg <;> rfl

theorem Agrees.arguments {args : List Argument}
    (hargs : ∀ arg ∈ args, RunWithin ctx.text.length arg.tokens) (name : Text) (span : Span) :
    Agrees before.length before.lineCount
      (b'.arguments ctx' name (span.shift before.length before.lineCount)
        (args.map (Argument.shift before.length)))
      (b.arguments ctx name span args) := by
  unfold ResourceBody.arguments
  rw [Argument.mapM_keyword?_shift, Argument.filterMap_positional?_shift]
  cases hpairs : args.mapM Argument.keyword? with
  | some pairs =>
    have hruns : ∀ run ∈ pairs.map (·.2), RunWithin ctx.text.length run := by
      intro run hrun
      obtain ⟨pair, hpair, rfl⟩ := List.mem_map.1 hrun
      obtain ⟨arg, harg, hkey⟩ := mem_of_mapM_eq_some hpairs hpair
      exact Argument.tokens_of_keyword? hkey ▸ hargs arg harg
    obtain ⟨hvalues, hagrees⟩ := hb.values h hruns
    have hmap : (pairs.map fun (pair : Text × List Token) =>
        (pair.1, pair.2.map (Token.shift before.length))).map (·.2) =
        (pairs.map (·.2)).map (List.map (Token.shift before.length)) := by
      simp
    have hzip : ∀ values : List Value,
        (((pairs.map fun (pair : Text × List Token) =>
          (pair.1, pair.2.map (Token.shift before.length))).zip values).map
            fun (pair, v) => (⟨pair.1, v⟩ : Entry)) =
        (pairs.zip values).map fun (pair, v) => ⟨pair.1, v⟩ := by
      intro values
      rw [List.zip_map_left, List.map_map]
      rfl
    simp only [Option.map_some, hmap, hvalues, hzip]
    exact hagrees.addProperty _ _ _
  | none =>
    have hruns := Argument.runWithin_positional? hargs
    obtain ⟨hvalues, hagrees⟩ := hb.values h hruns
    simp only [Option.map_none, hvalues]
    exact hagrees.addProperty _ _ _

theorem Agrees.codeBlock {c : Command} (hc : c.Within ctx.text.length) {block : Block}
    (hcblock : c.block = some block) (args' args : List Argument) (name : Text) (span : Span)
    (n : Nat) :
    Agrees before.length before.lineCount
      (b'.property ctx' name (c.shift before.length n) (span.shift before.length before.lineCount)
        args')
      (b.property ctx name c span args) := by
  obtain ⟨extent, head, _, innerBlocks, modifier⟩ := c
  obtain rfl : _ = some block := hcblock
  obtain ⟨hextent, -, hblock, -⟩ := Command.within_iff.1 hc
  rw [Command.shift_mk]
  unfold ResourceBody.property
  obtain ⟨hopener, hcloser, -⟩ := Block.within_iff.1 (hblock block rfl)
  obtain ⟨kind, opener, closer, params, body⟩ := block
  have hstart : (((head.map (Token.shift before.length)).tail.head?).map Token.start).getD
      (opener.start + before.length) =
      ((head.tail.head?).map Token.start).getD opener.start + before.length := by
    rw [← List.map_tail, List.head?_map]
    cases head.tail.head? <;> rfl
  have hstop : ((closer.map (Token.shift before.length)).map Token.stop).getD
      (extent.stop + before.length) =
      (closer.map Token.stop).getD extent.stop + before.length := by
    cases closer <;> rfl
  have hle : (closer.map Token.stop).getD extent.stop ≤ ctx.text.length := by
    cases closer with
    | none => exact hextent.stop
    | some t => exact (hcloser t rfl).stop
  have hraw := h.lines.slice (((head.tail.head?).map Token.start).getD opener.start) hle
  simp only [Option.map_some, Block.shift_mk, Token.start_shift, Extent.shift, hstart, hstop]
  rw [show ctx'.text = ctx'.lines.text from rfl, hraw]
  exact (hb.addProperty _ _ _).report _ _ _ _ _ _

theorem Agrees.property {c : Command} (hc : c.Within ctx.text.length) {args : List Argument}
    (hargs : ∀ arg ∈ args, RunWithin ctx.text.length arg.tokens) (name : Text) (span : Span) (n : Nat) :
    Agrees before.length before.lineCount
      (b'.property ctx' name (c.shift before.length n) (span.shift before.length before.lineCount)
        (args.map (Argument.shift before.length)))
      (b.property ctx name c span args) := by
  cases hcblock : c.block with
  | some block => exact hb.codeBlock h hc hcblock _ _ name span n
  | none =>
    have hcblock' : (c.shift before.length n).block = none := by
      obtain ⟨extent, head, _, innerBlocks, modifier⟩ := c
      obtain rfl : _ = none := hcblock
      rw [Command.shift_mk]
      rfl
    cases args with
    | nil =>
      unfold ResourceBody.property
      rw [hcblock, hcblock']
      exact hb.addProperty _ _ _
    | cons arg rest =>
      cases rest with
      | nil =>
        cases arg with
        | positional run =>
          obtain ⟨hvalue, hagrees⟩ := hb.value h (hargs _ List.mem_cons_self)
          unfold ResourceBody.property
          rw [hcblock, hcblock']
          simp only [List.map_cons, List.map_nil, Argument.shift, Argument.tokens] at hvalue hagrees ⊢
          rw [hvalue]
          exact hagrees.addProperty _ _ _
        | keyword key token tokens =>
          rw [property_keyword b ctx name hcblock]
          exact (property_keyword b' ctx' name hcblock' _ _ _ _).symm ▸ hb.arguments h hargs name span
      | cons arg' rest =>
        rw [property_several b ctx name hcblock]
        exact (property_several b' ctx' name hcblock' _ _ _ _).symm ▸ hb.arguments h hargs name span

omit h hb in
def noteModifier (b : ResourceBody) (ctx : NormalizeContext) (span : Span) :
    Option Modifier → ResourceBody
  | some m => b.report ctx span (.modifiedProperty m.word.text)
  | none => b

omit h hb in
def call (b : ResourceBody) (ctx : NormalizeContext) (conditional : Bool) (c : Command) (span : Span)
    (word : Text) (args : List Argument) : ResourceBody :=
  let runs := args.filterMap Argument.positional?
  if word = ("action" : Text) then b.action ctx conditional c span runs
  else if word = ("only_if" : Text) then b.guard ctx .onlyIf c span runs
  else if word = ("not_if" : Text) then b.guard ctx .notIf c span runs
  else if word = ("notifies" : Text) then b.notification ctx .notifies span runs
  else if word = ("subscribes" : Text) then b.notification ctx .subscribes span runs
  else b.property ctx word c span args

omit h hb in
theorem command_none (b : ResourceBody) (ctx : NormalizeContext) (inBranch : Bool) {c : Command}
    (hc : c.head.tail.head?.any Token.continuesExpression = true ∨ c.plainCall? = none) :
    b.command ctx inBranch c =
      (b.noteModifier ctx (ctx.lines.span c.extent.start c.extent.stop) c.modifier).report ctx
        (ctx.lines.span c.extent.start c.extent.stop) (.statementInBody (sourceOf ctx.text c.head)) := by
  have hcall : (if c.head.tail.head?.any Token.continuesExpression then none else c.plainCall?) =
      none := by
    rcases hc with hc | hc
    · rw [if_pos hc]
    · rw [hc, ite_self]
  unfold ResourceBody.command
  rw [hcall]
  cases c.modifier <;> rfl

omit h hb in
theorem command_some (b : ResourceBody) (ctx : NormalizeContext) (inBranch : Bool) {c : Command}
    (hexpr : c.head.tail.head?.any Token.continuesExpression = false) {word : Text}
    {args : List Argument} (hc : c.plainCall? = some (word, args)) :
    b.command ctx inBranch c =
      (b.noteModifier ctx (ctx.lines.span c.extent.start c.extent.stop) c.modifier).call ctx
        (inBranch || c.modifier.isSome) c (ctx.lines.span c.extent.start c.extent.stop) word args := by
  have hcall : (if c.head.tail.head?.any Token.continuesExpression then none else c.plainCall?) =
      some (word, args) := by
    rw [hexpr, hc]
    rfl
  unfold ResourceBody.command
  rw [hcall]
  cases c.modifier <;> rfl

theorem Agrees.call {c : Command} (hc : c.Within ctx.text.length) {args : List Argument}
    (hargs : ∀ arg ∈ args, RunWithin ctx.text.length arg.tokens) (conditional : Bool) (span : Span)
    (word : Text) (n : Nat) :
    Agrees before.length before.lineCount
      (b'.call ctx' conditional (c.shift before.length n) (span.shift before.length before.lineCount)
        word (args.map (Argument.shift before.length)))
      (b.call ctx conditional c span word args) := by
  have hruns := Argument.runWithin_positional? hargs
  unfold ResourceBody.call
  simp only [Argument.filterMap_positional?_shift]
  split_ifs
  · exact hb.action h hruns _ _ _ _ _
  · exact hb.guard h hc hruns _ _ n
  · exact hb.guard h hc hruns _ _ n
  · exact hb.notification h hruns _ _
  · exact hb.notification h hruns _ _
  · exact hb.property h hc hargs _ _ n

theorem Agrees.command {c : Command} (hc : c.Within ctx.text.length) (inBranch : Bool) (n : Nat) :
    Agrees before.length before.lineCount (b'.command ctx' inBranch (c.shift before.length n))
      (b.command ctx inBranch c) := by
  obtain ⟨hextent, -, -, -⟩ := Command.within_iff.1 hc
  have hspan := h.lines.span hextent.start hextent.stop
  have hcall := Command.plainCall?_shift before.length n c
  have hexpr := Command.tailContinues_shift before.length n c
  have hmodifier : ∀ span' span, Agrees before.length before.lineCount
      (b'.noteModifier ctx' span' (c.modifier.map (Modifier.shift before.length)))
      (b.noteModifier ctx span c.modifier) := by
    intro span' span
    cases c.modifier with
    | none => exact hb
    | some m => exact hb.report _ _ _ _ _ _
  by_cases hnone : c.head.tail.head?.any Token.continuesExpression = true ∨ c.plainCall? = none
  · have hnone' : (c.shift before.length n).head.tail.head?.any Token.continuesExpression = true ∨
        (c.shift before.length n).plainCall? = none := by
      rw [hexpr, hcall, Option.map_eq_none_iff]
      exact hnone
    rw [command_none b ctx inBranch hnone, command_none b' ctx' inBranch hnone',
      Command.modifier_shift]
    exact (hmodifier _ _).report _ _ _ _ _ _
  · obtain ⟨hno, hsome⟩ := not_or.1 hnone
    obtain ⟨⟨word, args⟩, hplain⟩ := Option.ne_none_iff_exists'.1 hsome
    have hno := Bool.eq_false_iff.2 hno
    rw [hplain] at hcall
    rw [command_some b ctx inBranch hno hplain,
      command_some b' ctx' inBranch (hexpr.trans hno) hcall, Command.modifier_shift,
      Command.extent_shift, Option.isSome_map]
    simp only [Extent.shift, hspan]
    exact (hmodifier _ _).call h hc (Command.runWithin_plainCall? hc hplain) _ _ _ n

end Embedded

end ResourceBody

/-! ### Whole blocks -/

mutual

theorem Statement.readBody_shift {ctx' ctx : NormalizeContext} {before after : Text}
    (h : ctx'.Embeds ctx before after) (n : Nat) (inBranch : Bool) :
    ∀ (s : Statement), s.Within ctx.text.length → ∀ {b' b : ResourceBody},
      b'.Agrees before.length before.lineCount b →
      ((s.shift before.length n).readBody ctx' inBranch b').Agrees before.length before.lineCount
        (s.readBody ctx inBranch b)
  | .command c, hs, b', b, hb => by
    simp only [Statement.Within] at hs
    simp only [Statement.shift, Statement.readBody]
    exact hb.command h hs inBranch n
  | .conditional ⟨extent, word, subject, branches, opener, closer⟩, hs, b', b, hb => by
    simp only [Statement.Within] at hs
    simp only [Statement.shift, Conditional.shift, Statement.readBody]
    exact readFirstBranch_shift h n branches hs.2.2 (hb.report _ _ _ _ _ _)
  | .compound ⟨extent, head, body, opener, closer⟩, hs, b', b, hb => by
    simp only [Statement.shift, Compound.shift, Statement.readBody]
    exact hb.report _ _ _ _ _ _

theorem readBodyList_shift {ctx' ctx : NormalizeContext} {before after : Text}
    (h : ctx'.Embeds ctx before after) (n : Nat) (inBranch : Bool) :
    ∀ (body : List Statement), listWithin ctx.text.length body → ∀ {b' b : ResourceBody},
      b'.Agrees before.length before.lineCount b →
      (readBodyList ctx' inBranch (shiftList before.length n body) b').Agrees before.length
        before.lineCount (readBodyList ctx inBranch body b)
  | [], _, b', b, hb => by
    simp only [shiftList, readBodyList]
    exact hb
  | s :: rest, hs, b', b, hb => by
    simp only [listWithin] at hs
    simp only [shiftList, readBodyList]
    exact readBodyList_shift h n inBranch rest hs.2 (Statement.readBody_shift h n inBranch s hs.1 hb)

theorem readFirstBranch_shift {ctx' ctx : NormalizeContext} {before after : Text}
    (h : ctx'.Embeds ctx before after) (n : Nat) :
    ∀ (branches : List Branch), branchesWithin ctx.text.length branches → ∀ {b' b : ResourceBody},
      b'.Agrees before.length before.lineCount b →
      (readFirstBranch ctx' (shiftBranches before.length n branches) b').Agrees before.length
        before.lineCount (readFirstBranch ctx branches b)
  | [], _, b', b, hb => by
    simp only [shiftBranches, readFirstBranch]
    exact hb
  | ⟨word, condition, body, start⟩ :: rest, hs, b', b, hb => by
    simp only [branchesWithin] at hs
    simp only [shiftBranches, Branch.shift, readFirstBranch]
    exact readBodyList_shift h n true body hs.1.2.2 hb

end

end Cookbook
