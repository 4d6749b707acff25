import Cookbook.Proofs.Declaration.Body
import Cookbook.Proofs.Value.Forms

/-!
What reading a resource block adds. One statement adds properties, guards, notifications and diagnostics
to what was read before, all of them about itself; a whole block is read statement after statement, of a
conditional the first branch.

* `ResourceBody.Adds` says of what is added where it stands, which values it has and what is reported;
* `ReadsInto` is what this takes of one statement, `ResourceBody.adds_command` the step for a command;
* `BodyVisits` says which statements a reading comes to, and what was read before;
* `readBodyList_adds` is the run over a whole block.
-/

namespace Cookbook

/-! ### Longer lists -/

/-- The second list goes on where the first ends, with elements that satisfy `P`. -/
def Appends {α : Type} (P : α → Prop) (l l' : List α) : Prop := ∃ more, l' = l ++ more ∧ ∀ a ∈ more, P a

namespace Appends

variable {α : Type} {P : α → Prop} {l l' l'' : List α}

theorem refl (l : List α) : Appends P l l := ⟨[], (List.append_nil l).symm, by simp⟩

theorem trans (h : Appends P l l') (h' : Appends P l' l'') : Appends P l l'' := by
  obtain ⟨more, rfl, hmore⟩ := h
  obtain ⟨others, rfl, hothers⟩ := h'
  refine ⟨more ++ others, List.append_assoc _ _ _, fun a ha => ?_⟩
  exact (List.mem_append.1 ha).elim (hmore a) (hothers a)

theorem of_forall {more : List α} (h : ∀ a ∈ more, P a) : Appends P l (l ++ more) := ⟨more, rfl, h⟩

theorem concat {a : α} (h : P a) : Appends P l (l ++ [a]) := of_forall (by simpa using h)

theorem isPrefix (h : Appends P l l') : l <+: l' := by
  obtain ⟨more, rfl, -⟩ := h
  exact List.prefix_append _ _

/-- What holds of the elements before and of those that are added holds of all. -/
theorem forall_mem (h : Appends P l l') (hl : ∀ a ∈ l, P a) : ∀ a ∈ l', P a := by
  obtain ⟨more, rfl, hmore⟩ := h
  exact fun a ha => (List.mem_append.1 ha).elim (hl a) (hmore a)

end Appends

/-! ### What is added -/

/-- The second body has what the first has, and more: properties, guards and notifications that stand at
`S` and have values that satisfy `V`, and diagnostics that satisfy `D`. Actions may be others. -/
structure ResourceBody.Adds (S : Span → Prop) (V : Value → Prop) (D : Diagnostic → Prop)
    (b b' : ResourceBody) : Prop where
  properties : Appends (fun q => S q.span ∧ V q.value) b.properties b'.properties
  guards : Appends (fun g => S g.span ∧ ∀ v, g.form = .command v → V v) b.guards b'.guards
  notifications : Appends (fun n => S n.span ∧ V n.target) b.notifications b'.notifications
  diagnostics : Appends D b.diagnostics b'.diagnostics

/-- What is reported at a stretch, and about the values of runs of the given tokens, satisfies `D`, and the
stretch satisfies `S`. -/
structure ReadsInto (ctx : NormalizeContext) (S : Span → Prop) (D : Diagnostic → Prop) (span : Span)
    (tokens : List Token) : Prop where
  place : S span
  report : ∀ finding, D ⟨finding, ctx.source, span, none⟩
  warning : ∀ run, List.Sublist run tokens → ∀ d ∈ (ctx.normalize run).diagnostics, D d

/-- A command makes its runs of some of the tokens of its head. -/
theorem Command.sublist_plainCall? {c : Command} {word : Text} {args : List Argument}
    (h : c.plainCall? = some (word, args)) : ∀ arg ∈ args, List.Sublist arg.tokens c.head := by
  intro arg harg
  unfold Command.plainCall? at h
  obtain ⟨first, -, h⟩ := Option.bind_eq_some_iff.1 h
  obtain ⟨call, hcall, h⟩ := Option.bind_eq_some_iff.1 h
  obtain ⟨-, h⟩ := Option.ite_none_right_eq_some.1 h
  obtain ⟨-, rfl⟩ := Prod.mk.inj (Option.some.inj h)
  exact Call.sublist_of_mem_args hcall harg

theorem Argument.exists_of_mem_positional? {args : List Argument} {run : List Token}
    (h : run ∈ args.filterMap Argument.positional?) : ∃ arg ∈ args, arg.tokens = run := by
  obtain ⟨arg, harg, hpositional⟩ := List.mem_filterMap.1 h
  cases arg with
  | positional tokens => exact ⟨_, harg, Option.some.inj hpositional⟩
  | keyword key token tokens => exact absurd hpositional (by simp [Argument.positional?])

namespace ResourceBody

variable {ctx : NormalizeContext} {S : Span → Prop} {V : Value → Prop} {D : Diagnostic → Prop}
  {b b' b'' : ResourceBody}

namespace Adds

theorem refl (b : ResourceBody) : b.Adds S V D b := ⟨.refl _, .refl _, .refl _, .refl _⟩

theorem trans (h : b.Adds S V D b') (h' : b'.Adds S V D b'') : b.Adds S V D b'' :=
  ⟨h.properties.trans h'.properties, h.guards.trans h'.guards, h.notifications.trans h'.notifications,
    h.diagnostics.trans h'.diagnostics⟩

theorem property {name : Text} {v : Value} {span : Span} (hspan : S span) (hv : V v) :
    b.Adds S V D (b.addProperty name v span) :=
  ⟨.concat ⟨hspan, hv⟩, .refl _, .refl _, .refl _⟩

theorem guard {kind : GuardKind} {form : GuardForm} {span : Span} (hspan : S span)
    (hform : ∀ v, form = .command v → V v) : b.Adds S V D (b.addGuard kind form span) :=
  ⟨.refl _, .concat ⟨hspan, hform⟩, .refl _, .refl _⟩

theorem notification {n : Notification} (hspan : S n.span) (htarget : V n.target) :
    b.Adds S V D { b with notifications := b.notifications ++ [n] } :=
  ⟨.refl _, .refl _, .concat ⟨hspan, htarget⟩, .refl _⟩

theorem noted {ds : List Diagnostic} (h : ∀ d ∈ ds, D d) :
    b.Adds S V D { b with diagnostics := b.diagnostics ++ ds } :=
  ⟨.refl _, .refl _, .refl _, .of_forall h⟩

theorem actions (names : List Text) : b.Adds S V D { b with actions := names } :=
  ⟨.refl _, .refl _, .refl _, .refl _⟩

end Adds

section Parts

variable {span : Span} {tokens : List Token} (h : ReadsInto ctx S D span tokens)

include h

theorem adds_report (b : ResourceBody) (finding : Finding) : b.Adds S V D (b.report ctx span finding) :=
  .noted (by simpa using h.report finding)

theorem adds_value (b : ResourceBody) {run : List Token} (hrun : List.Sublist run tokens) :
    b.Adds S V D (b.value ctx run).2 :=
  .noted (h.warning run hrun)

theorem adds_values (b : ResourceBody) {runs : List (List Token)}
    (hruns : ∀ run ∈ runs, List.Sublist run tokens) : b.Adds S V D (b.values ctx runs).2 := by
  refine .noted fun d hd => ?_
  obtain ⟨n, hn, hd⟩ := List.mem_flatMap.1 hd
  obtain ⟨run, hrun, rfl⟩ := List.mem_map.1 hn
  exact h.warning run (hruns run hrun) d hd

theorem adds_timing (b : ResourceBody) {run : Option (List Token)}
    (hrun : ∀ r ∈ run, List.Sublist r tokens) : b.Adds S V D (b.timing ctx span run).2 := by
  unfold ResourceBody.timing
  split
  · exact .refl b
  · rename_i run
    have hvalue : b.Adds S V D (b.value ctx run).2 := adds_value h b (hrun run rfl)
    dsimp only
    split
    · exact hvalue
    · exact hvalue.trans (adds_report h _ _)

theorem adds_noteModifier (b : ResourceBody) (modifier : Option Modifier) :
    b.Adds S V D (b.noteModifier ctx span modifier) := by
  cases modifier with
  | none => exact .refl b
  | some m => exact adds_report h b _

theorem adds_action (b : ResourceBody) (conditional : Bool) (c : Command) {runs : List (List Token)}
    (hruns : ∀ run ∈ runs, List.Sublist run tokens) :
    b.Adds S V D (b.action ctx conditional c span runs) := by
  unfold ResourceBody.action
  cases runs with
  | nil => exact adds_report h b _
  | cons run rest =>
    have hvalue : b.Adds S V D (b.value ctx run).2 := adds_value h b (hruns run List.mem_cons_self)
    dsimp only
    split
    · exact hvalue.trans (adds_report h _ _)
    · exact hvalue.trans (.actions _)

variable (hV : Value.ReadingKeeps V) (hread : ∀ run, V (ctx.normalize run).value)

include hread in
theorem adds_guard (b : ResourceBody) (kind : GuardKind) (c : Command) {runs : List (List Token)}
    (hruns : ∀ run ∈ runs, List.Sublist run tokens) : b.Adds S V D (b.guard ctx kind c span runs) := by
  unfold ResourceBody.guard
  split
  · exact .guard h.place fun v hv => by simp at hv
  · split
    · exact adds_report h b _
    · rename_i run _
      have hvalue : b.Adds S V D (b.value ctx run).2 := adds_value h b (hruns run List.mem_cons_self)
      dsimp only
      split
      · refine hvalue.trans (.guard h.place ?_)
        rintro v hv
        obtain rfl := GuardForm.command.inj hv
        exact hread run
      · exact hvalue.trans (.guard h.place fun v hv => by simp at hv)

include hV hread

theorem adds_target (b : ResourceBody) {run : List Token} (hrun : List.Sublist run tokens) :
    b.Adds S V D (b.target ctx run).2 ∧ V (b.target ctx run).1 := by
  have hargument : ∀ arg, resourcesArgument? run = some arg → List.Sublist arg.tokens tokens := by
    intro arg harg
    unfold resourcesArgument? at harg
    obtain ⟨-, harg⟩ := Option.ite_none_left_eq_some.1 harg
    obtain ⟨call, hcall, harg⟩ := Option.bind_eq_some_iff.1 harg
    split at harg
    · rename_i only _ hargs
      obtain rfl := Option.some.inj harg
      exact (Call.sublist_of_mem_args hcall (hargs ▸ List.mem_cons_self)).trans hrun
    · exact absurd harg (by simp)
  unfold ResourceBody.target
  split
  · rename_i run' harg
    exact ⟨adds_value h b (hargument _ harg), hread run'⟩
  · rename_i key token run' harg
    refine ⟨adds_value h b (hargument _ harg), hV.interpolate _ ?_⟩
    intro v hv
    simp only [List.mem_cons, List.not_mem_nil, or_false] at hv
    rcases hv with rfl | rfl | rfl
    · exact hV.literal _
    · exact hread run'
    · exact hV.literal _
  · exact ⟨adds_value h b hrun, hread run⟩

theorem adds_notification (b : ResourceBody) (direction : Direction) {runs : List (List Token)}
    (hruns : ∀ run ∈ runs, List.Sublist run tokens) :
    b.Adds S V D (b.notification ctx direction span runs) := by
  unfold ResourceBody.notification
  split
  · rename_i actionRun targetRun rest
    have haction : b.Adds S V D (b.value ctx actionRun).2 := adds_value h b (hruns actionRun (by simp))
    dsimp only
    split
    · exact haction.trans (adds_report h _ _)
    · obtain ⟨htarget, hv⟩ := adds_target h hV hread (b.value ctx actionRun).2 (hruns targetRun (by simp))
      have hrest : ∀ r ∈ rest.head?, List.Sublist r tokens := fun r hr =>
        hruns r (by simp [List.mem_of_mem_head? hr])
      have htiming := (haction.trans htarget).trans (adds_timing h
        ((b.value ctx actionRun).2.target ctx targetRun).2 hrest)
      split
      · exact (htiming.trans (adds_report h _ _)).trans (.notification h.place hv)
      · exact htiming.trans (.notification h.place hv)
  · exact adds_report h b _

theorem adds_arguments (b : ResourceBody) (name : Text) {args : List Argument}
    (hargs : ∀ arg ∈ args, List.Sublist arg.tokens tokens) :
    b.Adds S V D (b.arguments ctx name span args) := by
  have hvalue : ∀ (b : ResourceBody) (runs : List (List Token)), ∀ v ∈ (b.values ctx runs).1, V v := by
    intro b runs v hv
    obtain ⟨n, hn, rfl⟩ := List.mem_map.1 hv
    obtain ⟨run, -, rfl⟩ := List.mem_map.1 hn
    exact hread run
  unfold ResourceBody.arguments
  split
  · rename_i pairs hpairs
    refine (adds_values h b fun run hrun => ?_).trans (.property h.place (hV.map _ fun e he => ?_))
    · obtain ⟨pair, hpair, rfl⟩ := List.mem_map.1 hrun
      obtain ⟨arg, harg, hkey⟩ := mem_of_mapM_eq_some hpairs hpair
      exact Argument.tokens_of_keyword? hkey ▸ hargs arg harg
    · obtain ⟨⟨pair, v⟩, hmem, rfl⟩ := List.mem_map.1 he
      exact hvalue b _ v (List.of_mem_zip hmem).2
  · refine (adds_values h b fun run hrun => ?_).trans (.property h.place (hV.list _ (hvalue b _)))
    obtain ⟨arg, harg, rfl⟩ := Argument.exists_of_mem_positional? hrun
    exact hargs arg harg

theorem adds_property (b : ResourceBody) (name : Text) (c : Command) {args : List Argument}
    (hargs : ∀ arg ∈ args, List.Sublist arg.tokens tokens) :
    b.Adds S V D (b.property ctx name c span args) := by
  cases hc : c.block with
  | some block =>
    unfold ResourceBody.property
    rw [hc]
    exact (Adds.property h.place (hV.verbatim _)).trans (adds_report h _ _)
  | none =>
    match args with
    | [] =>
      unfold ResourceBody.property
      rw [hc]
      exact .property h.place (hV.literal _)
    | [.positional run] =>
      unfold ResourceBody.property
      rw [hc]
      exact (adds_value h b (hargs _ List.mem_cons_self)).trans (.property h.place (hread run))
    | [.keyword key token run] =>
      rw [property_keyword b ctx name hc]
      exact adds_arguments h hV hread b name hargs
    | arg :: arg' :: rest =>
      rw [property_several b ctx name hc]
      exact adds_arguments h hV hread b name hargs

theorem adds_call (b : ResourceBody) (conditional : Bool) (c : Command) (word : Text)
    {args : List Argument} (hargs : ∀ arg ∈ args, List.Sublist arg.tokens tokens) :
    b.Adds S V D (b.call ctx conditional c span word args) := by
  have hruns : ∀ run ∈ args.filterMap Argument.positional?, List.Sublist run tokens := by
    intro run hrun
    obtain ⟨arg, harg, rfl⟩ := Argument.exists_of_mem_positional? hrun
    exact hargs arg harg
  unfold ResourceBody.call
  dsimp only
  split_ifs
  · exact adds_action h b _ c hruns
  · exact adds_guard h hread b _ c hruns
  · exact adds_guard h hread b _ c hruns
  · exact adds_notification h hV hread b _ hruns
  · exact adds_notification h hV hread b _ hruns
  · exact adds_property h hV hread b word c hargs

end Parts

/-- A command of a resource block adds to what was read before. -/
theorem adds_command {c : Command}
    (h : ReadsInto ctx S D (ctx.lines.span c.extent.start c.extent.stop) c.head)
    (hV : Value.ReadingKeeps V) (hread : ∀ run, V (ctx.normalize run).value) (b : ResourceBody)
    (inBranch : Bool) : b.Adds S V D (b.command ctx inBranch c) := by
  have hmodifier : b.Adds S V D (b.noteModifier ctx _ c.modifier) := adds_noteModifier h b c.modifier
  cases hexpr : c.head.tail.head?.any Token.continuesExpression with
  | true =>
    rw [command_none b ctx inBranch (.inl hexpr)]
    exact hmodifier.trans (adds_report h _ _)
  | false =>
    cases hcall : c.plainCall? with
    | none =>
      rw [command_none b ctx inBranch (.inr hcall)]
      exact hmodifier.trans (adds_report h _ _)
    | some call =>
      rw [command_some b ctx inBranch hexpr hcall]
      exact hmodifier.trans (adds_call h hV hread _ _ c call.1 (Command.sublist_plainCall? hcall))

end ResourceBody

/-! ### Whole blocks -/

/-- The tokens that a statement of a resource block reads values from. -/
def Statement.valueTokens : Statement → List Token
  | .command c => c.head
  | .conditional _ => []
  | .compound _ => []

/-- Reading the statements `all` of a resource block, with `start` read before, comes to a list of
statements, with `b` read before; `inBranch` when they stand under a condition. -/
inductive BodyVisits (ctx : NormalizeContext) (all : List Statement) (start : ResourceBody) :
    List Statement → Bool → ResourceBody → Prop
  | start : BodyVisits ctx all start all false start
  | next {s : Statement} {rest : List Statement} {inBranch : Bool} {b : ResourceBody}
      (h : BodyVisits ctx all start (s :: rest) inBranch b) :
      BodyVisits ctx all start rest inBranch (s.readBody ctx inBranch b)
  | branch {c : Conditional} {first : Branch} {others : List Branch} {rest : List Statement}
      {inBranch : Bool} {b : ResourceBody}
      (h : BodyVisits ctx all start (.conditional c :: rest) inBranch b)
      (hbranches : c.branches = first :: others) :
      BodyVisits ctx all start first.body true
        (b.report ctx (ctx.lines.span c.extent.start c.extent.stop) .conditionalProperties)

/-- Every statement that a reading comes to stands at `S` and reports what satisfies `D`, and the values that
are read satisfy `V`. -/
structure BodyReadsInto (ctx : NormalizeContext) (all : List Statement) (start : ResourceBody)
    (S : Span → Prop) (V : Value → Prop) (D : Diagnostic → Prop) : Prop where
  steps : ∀ {s : Statement} {rest : List Statement} {inBranch : Bool} {b : ResourceBody},
    BodyVisits ctx all start (s :: rest) inBranch b →
      ReadsInto ctx S D (ctx.lines.span s.extent.start s.extent.stop) s.valueTokens
  forms : Value.ReadingKeeps V
  values : ∀ run, V (ctx.normalize run).value

theorem BodyReadsInto.ofForms {ctx : NormalizeContext} {all : List Statement} {start : ResourceBody}
    {V : Value → Prop} (hV : Value.ReadingKeeps V) (hread : ∀ run, V (ctx.normalize run).value) :
    BodyReadsInto ctx all start (fun _ => True) V (fun _ => True) :=
  ⟨fun _ => ⟨trivial, fun _ => trivial, fun _ _ _ _ => trivial⟩, hV, hread⟩

section Runs

variable {ctx : NormalizeContext} {all : List Statement} {start : ResourceBody} {S : Span → Prop}
  {V : Value → Prop} {D : Diagnostic → Prop}

mutual

theorem Statement.readBody_adds (hall : BodyReadsInto ctx all start S V D) : ∀ (s : Statement)
    {rest : List Statement} {inBranch : Bool} {b : ResourceBody},
    BodyVisits ctx all start (s :: rest) inBranch b → b.Adds S V D (s.readBody ctx inBranch b)
  | .command c, rest, inBranch, b, h => by
    have hc := hall.steps h
    rw [Statement.readBody]
    exact ResourceBody.adds_command hc hall.forms hall.values b inBranch
  | .conditional ⟨extent, word, subject, branches, opener, closer⟩, rest, inBranch, b, h => by
    have hc := hall.steps h
    have hbranch := readFirstBranch_adds hall branches h rfl
    rw [Statement.readBody]
    exact (ResourceBody.adds_report hc b .conditionalProperties).trans hbranch
  | .compound ⟨extent, head, body, opener, closer⟩, rest, inBranch, b, h => by
    have hc := hall.steps h
    rw [Statement.readBody]
    exact ResourceBody.adds_report hc b (.compoundInBody opener.text)

theorem BodyVisits.adds (hall : BodyReadsInto ctx all start S V D) : ∀ (rest : List Statement)
    {inBranch : Bool} {b : ResourceBody}, BodyVisits ctx all start rest inBranch b →
    b.Adds S V D (readBodyList ctx inBranch rest b)
  | [], inBranch, b, h => by
    rw [readBodyList]
    exact .refl b
  | s :: rest, inBranch, b, h => by
    rw [readBodyList]
    exact (Statement.readBody_adds hall s h).trans (BodyVisits.adds hall rest h.next)

theorem readFirstBranch_adds (hall : BodyReadsInto ctx all start S V D) : ∀ (branches : List Branch)
    {c : Conditional} {rest : List Statement} {inBranch : Bool} {b : ResourceBody},
    BodyVisits ctx all start (.conditional c :: rest) inBranch b → c.branches = branches →
    (b.report ctx (ctx.lines.span c.extent.start c.extent.stop) .conditionalProperties).Adds S V D
      (readFirstBranch ctx branches
        (b.report ctx (ctx.lines.span c.extent.start c.extent.stop) .conditionalProperties))
  | [], c, rest, inBranch, b, h, hbranches => by
    rw [readFirstBranch]
    exact .refl _
  | ⟨word, condition, body, first⟩ :: others, c, rest, inBranch, b, h, hbranches => by
    rw [readFirstBranch]
    exact BodyVisits.adds hall body (h.branch hbranches)

end

/-- What is added to a body in reading a whole block stands where its statements stand, with what they
report. -/
theorem readBodyList_adds (hall : BodyReadsInto ctx all start S V D) :
    start.Adds S V D (readBodyList ctx false all start) :=
  BodyVisits.adds hall all .start

end Runs

/-! ### Nothing is taken back -/

/-- What has been read, apart from actions, stays, and more comes after it. -/
abbrev ResourceBody.Grows (b b' : ResourceBody) : Prop :=
  b.Adds (fun _ => True) (fun _ => True) (fun _ => True) b'

section Grows

variable {ctx : NormalizeContext} {all rest : List Statement} {start b : ResourceBody} {inBranch : Bool}

/-- Of a conditional, the first branch is read, with the report before it. -/
theorem Conditional.readBody_eq (ctx : NormalizeContext) (inBranch : Bool) {c : Conditional} {first : Branch}
    {others : List Branch} (h : c.branches = first :: others) (b : ResourceBody) :
    (Statement.conditional c).readBody ctx inBranch b =
      readBodyList ctx true first.body
        (b.report ctx (ctx.lines.span c.extent.start c.extent.stop) .conditionalProperties) := by
  obtain ⟨extent, word, subject, branches, opener, closer⟩ := c
  obtain rfl : branches = first :: others := h
  obtain ⟨word', condition, body, start'⟩ := first
  rw [Statement.readBody, readFirstBranch]

theorem BodyVisits.grows_rest (h : BodyVisits ctx all start rest inBranch b) :
    b.Grows (readBodyList ctx inBranch rest b) :=
  BodyVisits.adds (.ofForms .trivial fun _ => trivial) rest h

/-- What is read on the way is there at the end. -/
theorem BodyVisits.grows (h : BodyVisits ctx all start rest inBranch b) :
    (readBodyList ctx inBranch rest b).Grows (readBodyList ctx false all start) := by
  induction h with
  | start => exact .refl _
  | next _ ih =>
    rw [readBodyList] at ih
    exact ih
  | branch h hbranches ih =>
    rw [readBodyList, Conditional.readBody_eq ctx _ hbranches] at ih
    have hrest := h.next.grows_rest
    rw [Conditional.readBody_eq ctx _ hbranches] at hrest
    exact hrest.trans ih

theorem BodyVisits.grows_step {s : Statement} (h : BodyVisits ctx all start (s :: rest) inBranch b) :
    (s.readBody ctx inBranch b).Grows (readBodyList ctx false all start) :=
  h.next.grows_rest.trans h.next.grows

end Grows

end Cookbook
