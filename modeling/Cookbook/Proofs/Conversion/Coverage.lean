import Cookbook.Proofs.Conversion.Stability
import Cookbook.Proofs.Declaration.Arguments
import Cookbook.Proofs.Declaration.Reporting
import Cookbook.Proofs.Declaration.Separation
import Cookbook.Proofs.Statement.Covering
import Cookbook.Proofs.Token.Inside
import Cookbook.Proofs.Value.Places

/-!
What the span of a declaration covers, and which warnings its task carries. A declaration whose block is
closed covers its properties, guards and notifications, and what is reported in reading it, unless a
warning is about nothing at all or about code in a heredoc. A declaration whose block was never closed ends
with the word that opens the block: all that the block adds lies outside. The task of a declaration carries
the warnings that lie within the span, so it lacks those of an unclosed block.

* `Command.Declares` ties a declaration to the command it is read from, `declares_of_mem` finds the
  command;
* `Command.Covers.stands_within` and `Command.Covers.stands_after` place the warnings about the values of a
  statement;
* `Command.bodyReadsInto` is what each statement of a block adds, for the induction over the block;
* `span_covers_iff_closed` is the result for whole recipes and their tasks.
-/

namespace Cookbook

open RecipeReader

/-! ### Stretches in one another -/

section Within

variable {lines : LineIndex} {start stop outerStart outerStop : Nat}

theorem LineIndex.span_within (hstart : outerStart ≤ start) (hstop : stop ≤ outerStop) :
    (lines.span start stop).within (lines.span outerStart outerStop) = true := by
  unfold Span.within LineIndex.span
  simp only [offset_position, Bool.and_eq_true, decide_eq_true_eq]
  omega

/-- A stretch that ends behind another, which ends in the text, does not lie within it. -/
theorem LineIndex.span_not_within (hstop : outerStop < stop) (hlines : outerStop < lines.text.length) :
    (lines.span start stop).within (lines.span outerStart outerStop) = false := by
  unfold Span.within LineIndex.span
  simp only [offset_position, Bool.and_eq_false_iff, decide_eq_false_iff_not]
  omega

end Within

/-- A place that lies where it does whatever statement it belongs to: the start of the file, for a warning
about no tokens at all, or within the code of a heredoc, which stands below the line of the statement. -/
inductive Astray (p : Program) (span : Span) : Prop
  | fileStart (h : span = p.lines.spot 0)
  | heredoc {t : Token} {flavor : Flavor} {parts : List StringPart} {source : Text} {offset start stop : Nat}
      (ht : t ∈ p.tokens) (hheredoc : t.isHeredoc = true) (hcontent : t.content = .string flavor parts)
      (hpart : .code source offset ∈ parts) (hstart : offset ≤ start) (hstop : stop ≤ offset + source.length)
      (hspan : span = p.lines.span start stop)

/-! ### Warnings about the values of a statement -/

section Values

variable {text : Text} {c : Command} (hc : c.Covers (TokenSource.ofText text)) {ctx : NormalizeContext}
  (hlines : ctx.lines = (Program.ofText text).lines) {run : List Token} (hrun : run ⊆ c.head) {span : Span}
  (h : ctx.Stands run span) {start stop : Nat}

include hc hlines hrun h

theorem Command.Covers.stands_within (hstart : start ≤ c.extent.start) (hstop : c.extent.stop ≤ stop) :
    span.within ((Program.ofText text).lines.span start stop) = true ∨ Astray (Program.ofText text) span := by
  cases h with
  | tokens ht hu hspan =>
    obtain ⟨-, hle, -⟩ := hc.head _ (hrun ht)
    obtain ⟨-, -, hle'⟩ := hc.head _ (hrun hu)
    rw [hspan, hlines]
    exact .inl (LineIndex.span_within (hstart.trans hle) (hle'.trans hstop))
  | fileStart hspan =>
    rw [hlines] at hspan
    exact .inr (.fileStart hspan)
  | @code t flavor parts source offset from' upTo ht hcontent hpart hfrom hlt hto hspan =>
    obtain ⟨hmem, hle, hle'⟩ := hc.head _ (hrun ht)
    rw [hlines] at hspan
    rcases lex_inside text 0 t hmem with hheredoc | hinside
    · exact .inr (.heredoc hmem hheredoc hcontent hpart hfrom hto hspan)
    · rw [hcontent] at hinside
      obtain ⟨hafter, hbefore⟩ : (StringPart.code source offset).Between t.start t.stop := hinside _ hpart
      rw [hspan]
      exact .inl (LineIndex.span_within (by omega) (by omega))

theorem Command.Covers.stands_after (hstop : stop ≤ c.extent.start) :
    span.within ((Program.ofText text).lines.span start stop) = false ∨
      Astray (Program.ofText text) span := by
  have hlength : ∀ t ∈ c.head, stop ≤ t.start ∧ t.start < t.stop ∧ t.stop ≤ text.length := by
    intro t ht
    obtain ⟨hmem, hle, -⟩ := hc.head _ ht
    have hbetween := (lex_between text 0 t hmem).stop
    exact ⟨hstop.trans hle, (lex_inOrder text 0).1 t hmem, by rwa [Nat.zero_add] at hbetween⟩
  have hout : ∀ {first last : Nat}, stop < last → stop < text.length →
      ((Program.ofText text).lines.span first last).within ((Program.ofText text).lines.span start stop) =
        false := fun hlast hend => LineIndex.span_not_within hlast hend
  cases h with
  | @tokens t u ht hu hspan =>
    obtain ⟨hle, hlt, hend⟩ := hlength u (hrun hu)
    rw [hspan, hlines]
    exact .inl (hout (by omega) (by omega))
  | fileStart hspan =>
    rw [hlines] at hspan
    exact .inr (.fileStart hspan)
  | @code t flavor parts source offset from' upTo ht hcontent hpart hfrom hlt hto hspan =>
    obtain ⟨hle, hlt', hend⟩ := hlength t (hrun ht)
    have hmem := (hc.head _ (hrun ht)).1
    rw [hlines] at hspan
    rcases lex_inside text 0 t hmem with hheredoc | hinside
    · exact .inr (.heredoc hmem hheredoc hcontent hpart hfrom hto hspan)
    · rw [hcontent] at hinside
      obtain ⟨hafter, -⟩ : (StringPart.code source offset).Between t.start t.stop := hinside _ hpart
      rw [hspan]
      exact .inl (hout (by omega) (by omega))

end Values

/-! ### Lists that reading comes to -/

theorem Visits.listIn {r : RecipeReader} {all body : List Statement} {around a : Surroundings}
    {e x : Extraction} (h : Visits r all around e body a x) : ∃ inner, ListIn inner all ∧ body <:+ inner := by
  have hmem : ∀ {s : Statement} {rest inner : List Statement}, s :: rest <:+ inner → s ∈ inner :=
    fun hsuffix => hsuffix.subset List.mem_cons_self
  induction h with
  | start => exact ⟨_, .here, List.suffix_rfl⟩
  | next _ ih =>
    obtain ⟨inner, hin, hsuffix⟩ := ih
    exact ⟨inner, hin, (List.suffix_cons _ _).trans hsuffix⟩
  | loop _ _ _ hb _ ih =>
    obtain ⟨inner, hin, hsuffix⟩ := ih
    exact ⟨_, ListIn.trans (.block (hmem hsuffix) hb .here) hin, List.suffix_rfl⟩
  | owner _ _ _ hb _ ih =>
    obtain ⟨inner, hin, hsuffix⟩ := ih
    exact ⟨_, ListIn.trans (.block (hmem hsuffix) hb .here) hin, List.suffix_rfl⟩
  | branch _ hbranches _ ih =>
    obtain ⟨inner, hin, hsuffix⟩ := ih
    refine ⟨_, ListIn.trans (.branch (hmem hsuffix) ?_ .here) hin, List.suffix_rfl⟩
    rw [hbranches]
    exact List.mem_append_right _ List.mem_cons_self
  | body _ _ ih =>
    obtain ⟨inner, hin, hsuffix⟩ := ih
    exact ⟨_, ListIn.trans (.compound (hmem hsuffix) .here) hin, List.suffix_rfl⟩

theorem BodyVisits.listIn {ctx : NormalizeContext} {all body : List Statement} {start b : ResourceBody}
    {inBranch : Bool} (h : BodyVisits ctx all start body inBranch b) :
    ∃ inner, ListIn inner all ∧ body <:+ inner := by
  induction h with
  | start => exact ⟨_, .here, List.suffix_rfl⟩
  | next _ ih =>
    obtain ⟨inner, hin, hsuffix⟩ := ih
    exact ⟨inner, hin, (List.suffix_cons _ _).trans hsuffix⟩
  | branch _ hbranches ih =>
    obtain ⟨inner, hin, hsuffix⟩ := ih
    refine ⟨_, ListIn.trans (.branch (hsuffix.subset List.mem_cons_self) ?_ .here) hin, List.suffix_rfl⟩
    rw [hbranches]
    exact List.mem_cons_self

/-! ### What the block of a resource adds -/

def Command.leftOpen (c : Command) : Bool := c.block.any (·.closer.isNone)

section Block

variable {text : Text} {c : Command} {i j : Nat} (hlies : c.Lies (TokenSource.ofText text) i j)
  (hcovers : c.Covers (TokenSource.ofText text))

include hlies hcovers

/-- What stands in the block of a command, at any depth, lies within the command if the block is closed, and
behind it otherwise. -/
theorem Command.nested_place {b : Block} (hb : c.block = some b) {body : List Statement}
    (hin : ListIn body b.body) {s : Statement} (hs : s ∈ body) :
    (c.leftOpen = false → c.extent.start ≤ s.extent.start ∧ s.extent.stop ≤ c.extent.stop) ∧
      (c.leftOpen = true → c.extent.stop ≤ s.extent.start ∧ s.extent.start < s.extent.stop ∧
        s.extent.start < text.length) := by
  have hsrc := TokenSource.inOrder_ofText text
  obtain ⟨hextent, hblock⟩ := Command.lies_iff.1 hlies
  have hnested := hlies.nested hb hin hs
  obtain ⟨hafter, hbefore⟩ := (hblock b hb).between hsrc hin hs
  have hopen : c.leftOpen = b.closer.isNone := by rw [Command.leftOpen, hb, Option.any_some]
  rw [hopen]
  constructor
  · intro hclosed
    obtain ⟨closer, hcloser⟩ := Option.isSome_iff_exists.1 (by simpa using hclosed)
    have hstop := hcovers.closed b hb closer hcloser
    obtain ⟨k, m, -, -, -, -, hclosers⟩ := Block.lies_iff.1 (hblock b hb)
    obtain ⟨n, -, -, hn⟩ := hclosers closer hcloser
    have hlt := hsrc.start_lt_stop hn
    have hle := hbefore closer hcloser
    exact ⟨(hextent.start_lt_nested hsrc hnested).le, by omega⟩
  · intro hunclosed
    rw [hcovers.unclosed b hb (Option.isNone_iff_eq_none.1 hunclosed)]
    exact ⟨hafter, hnested.nonempty, hnested.start_lt⟩

/-- Each statement that reading the block comes to lies within the command if the block is closed and outside
otherwise, and so does what it reports. -/
theorem Command.bodyReadsInto (hevery : ∀ b, c.block = some b →
      EveryCommand (Command.Covers (TokenSource.ofText text)) b.body) {ctx : NormalizeContext}
    (hlines : ctx.lines = (Program.ofText text).lines) (start : ResourceBody) :
    BodyReadsInto ctx ((c.block.map (·.body)).getD []) start
      (fun span => span.within ((Program.ofText text).spanOf c.extent) = !c.leftOpen) (fun _ => True)
      (fun w => w.span.within ((Program.ofText text).spanOf c.extent) = (!c.leftOpen) ∨
        Astray (Program.ofText text) w.span) where
  forms := .trivial
  values _ := trivial
  steps {s rest inBranch body} hvisits := by
    obtain ⟨inner, hin, hsuffix⟩ := hvisits.listIn
    have hs : s ∈ inner := hsuffix.subset List.mem_cons_self
    cases hb : c.block with
    | none =>
      rw [hb] at hin
      exact absurd (hin.eq_nil ▸ hs) List.not_mem_nil
    | some b =>
      rw [hb] at hin
      obtain ⟨hclosed, hopen⟩ := c.nested_place hlies hcovers hb hin hs
      -- a statement of a block that is never closed starts where the command ends
      have hplace : (ctx.lines.span s.extent.start s.extent.stop).within
          ((Program.ofText text).spanOf c.extent) = !c.leftOpen := by
        rw [hlines]
        cases hleft : c.leftOpen with
        | false => exact LineIndex.span_within (hclosed hleft).1 (hclosed hleft).2
        | true =>
          obtain ⟨hle, hlt, hend⟩ := hopen hleft
          exact LineIndex.span_not_within (by omega) (lt_of_le_of_lt hle hend)
      refine ⟨hplace, fun _ => .inl hplace, fun run hrun d hd => ?_⟩
      cases s with
      | command c' =>
        have hc' := hevery b hb inner hin c' hs
        have hstands := ctx.normalize_stands run d hd
        cases hleft : c.leftOpen with
        | false => exact hc'.stands_within hlines hrun.subset hstands (hclosed hleft).1 (hclosed hleft).2
        | true => exact hc'.stands_after hlines hrun.subset hstands (hopen hleft).1
      -- the values of a conditional are not read
      | conditional _ =>
        obtain rfl := List.sublist_nil.1 hrun
        exact absurd hd List.not_mem_nil
      | compound _ =>
        obtain rfl := List.sublist_nil.1 hrun
        exact absurd hd List.not_mem_nil

end Block

/-! ### Declarations and what is reported of them -/

/-- The stretches of the properties, guards and notifications of a declaration. -/
def Declaration.itemSpans (d : Declaration) : List Span :=
  d.properties.map (·.span) ++ d.guards.map (·.span) ++ d.notifications.map (·.span)

/-- The declaration is the one that is read from a command, which names it by a run, where going through the
statements `all` comes to the command. -/
structure Command.Declares (r : RecipeReader) (all : List Statement) (around : Surroundings) (e : Extraction)
    (c : Command) (a : Surroundings) (x : Extraction) (name : List Token) (d : Declaration) : Prop where
  visited : ∃ rest, Visits r all around e (.command c :: rest) a x
  unassigned : assignedName? c = none
  declared : r.declared? c = some (d.type, name)
  eq : d = r.declarationOf d.type c name (r.modified c.modifier a) x

/-- What reading the block of a resource reports. -/
def RecipeReader.blockReports (r : RecipeReader) (c : Command) (name : List Token) (x : Extraction) :
    List Diagnostic :=
  (r.bodyOf c name x).diagnostics.drop ((r.ctx x).normalize name).diagnostics.length

/-- Every declaration is read from a command that is come to. -/
theorem declares_of_mem {r : RecipeReader} {all : List Statement} {around : Surroundings} {e : Extraction}
    (he : e.declarations = []) : ∀ d ∈ (extractList r around all e).declarations,
      ∃ (c : Command) (a : Surroundings) (x : Extraction) (name : List Token),
        c.Declares r all around e a x name d := by
  have hsteps : StepsKeep r all around e fun x =>
      ∀ d ∈ x.declarations, ∃ (c : Command) (a : Surroundings) (x : Extraction) (name : List Token),
        c.Declares r all around e a x name d := by
    refine ⟨fun _ _ hx => hx, ?_, ?_⟩
    · intro c type name rest a x hvisits ha hd hx d hmem
      rw [RecipeReader.declare_eq] at hmem
      rcases List.mem_append.1 hmem with hmem | hmem
      · exact hx d hmem
      · obtain rfl := List.mem_singleton.1 hmem
        exact ⟨c, a, x, name, ⟨rest, hvisits⟩, ha, hd, rfl⟩
    · intro c name rest a x _ _ hx
      rw [r.declarations_assign]
      exact hx
  refine hsteps.extractList fun d hd => ?_
  rw [he] at hd
  exact absurd hd List.not_mem_nil

theorem RecipeReader.sublist_declared? {r : RecipeReader} {c : Command} {type : Text} {name : List Token}
    (h : r.declared? c = some (type, name)) : List.Sublist name c.head := by
  have hruns : ∀ {word : Text} {args : List Argument}, c.plainCall? = some (word, args) →
      ∀ run ∈ args.filterMap Argument.positional?, List.Sublist run c.head := by
    intro word args hcall run hrun
    obtain ⟨arg, harg, rfl⟩ := Argument.exists_of_mem_positional? hrun
    exact Command.sublist_plainCall? hcall arg harg
  unfold RecipeReader.declared? at h
  obtain ⟨⟨word, args⟩, hcall, h⟩ := Option.bind_eq_some_iff.1 h
  have hruns := hruns hcall
  dsimp only at h
  split at h
  · obtain ⟨first, hfirst, h⟩ := Option.bind_eq_some_iff.1 h
    obtain ⟨-, rfl⟩ := Prod.mk.inj (Option.some.inj h)
    exact hruns first (List.mem_of_mem_head? hfirst)
  · split at h
    · rename_i only honly
      split_ifs at h
      obtain ⟨-, rfl⟩ := Prod.mk.inj (Option.some.inj h)
      exact hruns only (honly ▸ List.mem_cons_self)
    · exact absurd h (by simp)

section Declared

variable {source text : Text} {knownTypes : List Text} {around a : Surroundings} {e x : Extraction}
  {c : Command} {name : List Token} {d : Declaration}

/-- What is said of a declaration and the reports about it, by where they lie. -/
structure Declaration.Covered (p : Program) (d : Declaration) (named read : List Diagnostic) : Prop where
  items : ∀ span ∈ d.itemSpans, span.within d.span = !d.malformed
  named : ∀ w ∈ named, w.span.within d.span = true ∨ Astray p w.span
  read : ∀ w ∈ read, w.span.within d.span = (!d.malformed) ∨ Astray p w.span

/-- A declaration covers its items, and what its block reports, if and only if the block is closed; and what
is reported of its name in any case. -/
theorem Command.Declares.covered
    (h : c.Declares ⟨source, .ofText text, knownTypes⟩ (Program.ofText text).statements around e a x name d) :
    let r : RecipeReader := ⟨source, .ofText text, knownTypes⟩
    d.Covered (.ofText text) ((r.ctx x).normalize name).diagnostics (r.blockReports c name x) ∧
      (r.bodyOf c name x).diagnostics =
        ((r.ctx x).normalize name).diagnostics ++ r.blockReports c name x := by
  intro r
  obtain ⟨rest, hvisits⟩ := h.visited
  obtain ⟨inner, hin, hsuffix⟩ := hvisits.listIn
  have hmem : Statement.command c ∈ inner := hsuffix.subset List.mem_cons_self
  obtain ⟨j, hall⟩ := Program.listLies_ofText text
  have hlies : c.Lies (TokenSource.ofText text) 0 j := (hall.of_listIn hin).mem hmem
  have hevery := Program.everyCommand_covers text
  have hcovers := hevery inner hin c hmem
  have hreads := c.bodyReadsInto hlies hcovers
    (fun b hb => hevery.of_listIn (ListIn.trans (.block hmem hb .here) hin))
    (show (r.ctx x).lines = (Program.ofText text).lines from rfl)
    (.start ((r.ctx x).normalize name).diagnostics)
  -- what the block adds has its place in the command, and what it reports only if it is closed
  have hadds := readBodyList_adds hreads
  have hspan : d.span = (Program.ofText text).spanOf c.extent := by rw [h.eq]; rfl
  have hopen : d.malformed = c.leftOpen := by rw [h.eq]; rfl
  obtain ⟨more, hmore, hplaces⟩ := hadds.diagnostics
  have hblock : r.blockReports c name x = more := by
    show List.drop _ (readBodyList _ _ _ _).diagnostics = more
    rw [hmore]
    exact List.drop_left
  rw [hblock]
  refine ⟨⟨fun span hitem => ?_, fun w hw => ?_, fun w hw => ?_⟩, hmore⟩
  · rw [hspan, hopen]
    unfold Declaration.itemSpans at hitem
    rw [h.eq] at hitem
    rcases List.mem_append.1 hitem with hitem | hitem
    · rcases List.mem_append.1 hitem with hitem | hitem
      · obtain ⟨q, hq, rfl⟩ := List.mem_map.1 hitem
        exact (hadds.properties.forall_mem (fun q hq => absurd hq List.not_mem_nil) q hq).1
      · obtain ⟨g, hg, rfl⟩ := List.mem_map.1 hitem
        exact (hadds.guards.forall_mem (fun g hg => absurd hg List.not_mem_nil) g hg).1
    · obtain ⟨n, hn, rfl⟩ := List.mem_map.1 hitem
      exact (hadds.notifications.forall_mem (fun n hn => absurd hn List.not_mem_nil) n hn).1
  · rw [hspan]
    exact hcovers.stands_within rfl (RecipeReader.sublist_declared? h.declared).subset
      ((r.ctx x).normalize_stands name w hw) le_rfl le_rfl
  · rw [hspan, hopen]
    exact hplaces w hw

/-- What is reported of a resource is about its name, from its block, or about the loop that it stands in. -/
theorem Command.Declares.mem_reports
    (h : c.Declares ⟨source, .ofText text, knownTypes⟩ (Program.ofText text).statements around e a x name d) :
    let r : RecipeReader := ⟨source, .ofText text, knownTypes⟩
    ∀ w, w ∈ r.reportsOf d.type c name (r.modified c.modifier a) x ↔
      ∃ w', w = w'.about d.ref ∧ (w' ∈ ((r.ctx x).normalize name).diagnostics ∨ w' ∈ r.blockReports c name x ∨
        ∃ f ∈ loopFindings d.type (r.modified c.modifier a), w' = ⟨f, source, d.span, none⟩) := by
  intro r w
  have href : (r.declarationOf d.type c name (r.modified c.modifier a) x).ref = d.ref := by rw [← h.eq]
  have hspan : r.program.spanOf c.extent = d.span := by rw [h.eq]; rfl
  rw [RecipeReader.reportsOf, h.covered.2, href, hspan]
  simp only [List.mem_map, List.mem_append]
  constructor
  · rintro ⟨w', (hw' | hw') | ⟨f, hf, rfl⟩, rfl⟩
    · exact ⟨w', rfl, .inl hw'⟩
    · exact ⟨w', rfl, .inr (.inl hw')⟩
    · exact ⟨_, rfl, .inr (.inr ⟨f, hf, rfl⟩)⟩
  · rintro ⟨w', rfl, hw' | hw' | ⟨f, hf, rfl⟩⟩
    · exact ⟨w', .inl (.inl hw'), rfl⟩
    · exact ⟨w', .inl (.inr hw'), rfl⟩
    · exact ⟨_, .inr ⟨f, hf, rfl⟩, rfl⟩

/-- What is reported of a resource whose block is closed lies within its declaration. -/
theorem Command.Declares.reports_within
    (h : c.Declares ⟨source, .ofText text, knownTypes⟩ (Program.ofText text).statements around e a x name d)
    (hclosed : d.malformed = false) :
    ∀ w ∈ (⟨source, .ofText text, knownTypes⟩ : RecipeReader).reportsOf d.type c name
      (RecipeReader.modified ⟨source, .ofText text, knownTypes⟩ c.modifier a) x,
      w.span.within d.span = true ∨ Astray (.ofText text) w.span := by
  intro w hw
  obtain ⟨w, rfl, hw | hw | ⟨f, -, rfl⟩⟩ := (h.mem_reports w).1 hw
  · exact h.covered.1.named w hw
  · have hread := h.covered.1.read w hw
    rwa [hclosed] at hread
  · exact .inl (by simp [Diagnostic.about, Span.within])

end Declared

/-! ### Tasks -/

theorem RecipeEnvironment.span_resolved (env : RecipeEnvironment) (d : Declaration) :
    (env.resolved d).span = d.span := by
  unfold RecipeEnvironment.resolved
  split <;> rfl

/-- The task of a declaration carries the warnings of the extraction that lie within the declaration. -/
theorem RecipeStage.message_mem_rawWarnings (s : RecipeStage) {r : ReadyDeclaration} (own : List Diagnostic)
    {w : Diagnostic} (hw : w ∈ s.extraction.diagnostics) (hwithin : w.span.within r.declaration.span = true)
    (hwarning : w.severity = .warning) : w.message ∈ s.rawWarnings r own := by
  unfold RecipeStage.rawWarnings
  refine List.mem_map_of_mem (List.mem_filter.2 ⟨?_, by simp [hwarning]⟩)
  exact List.mem_append_left _ (List.mem_append_left _ (List.mem_filter.2 ⟨hw, hwithin⟩))

/-- The declarations of a recipe and their tasks. A declaration covers its properties, guards and
notifications, and what is reported in reading its block, if and only if the block is closed, apart from
warnings about nothing and about code in a heredoc; it covers what is reported of its name in any case. When the
recipe is converted, the task carries the warnings about the declaration that the declaration covers. -/
theorem span_covers_iff_closed (env : RecipeEnvironment) (source text : Text) :
    let p := Program.ofText text
    let r : RecipeReader := ⟨source, p, env.knownTypes⟩
    let e : Extraction := ⟨.empty, [], p.problems.map (Diagnostic.ofProblem source p.lines)⟩
    let result := extractDeclarations source text env.knownTypes .empty
    ∀ (i : Nat) (d : Declaration), result.declarations[i]? = some d →
      ∃ (c : Command) (a : Surroundings) (x : Extraction) (name : List Token),
        c.Declares r p.statements ⟨[], false⟩ e a x name d ∧
        d.Covered p ((r.ctx x).normalize name).diagnostics (r.blockReports c name x) ∧
        let reports := r.reportsOf d.type c name (r.modified c.modifier a) x
        (∀ w ∈ r.blockReports c name x, w.about d.ref ∈ reports) ∧
        (d.malformed = false → ∀ w ∈ reports, w.span.within d.span = true ∨ Astray p w.span) ∧
        (∀ w ∈ reports, w ∈ result.diagnostics) ∧
        ∀ run, RecipeRun.ofText env ⟨source, text⟩ = .ok run →
          ∃ task, run.conversion.tasks[i]? = some task ∧
            ∀ w ∈ reports, w.span.within d.span = true → w.severity = .warning →
              w.message ∈ task.rawWarnings := by
  intro p r e result i d hd
  obtain ⟨c, a, x, name, h⟩ := declares_of_mem (e := e) rfl d (List.mem_of_getElem? hd)
  have hreported : ∀ w ∈ r.reportsOf d.type c name (r.modified c.modifier a) x, w ∈ result.diagnostics := by
    obtain ⟨rest, hvisits⟩ := h.visited
    exact (hvisits.leavesDeclaration h.unassigned h.declared).reported
  refine ⟨c, a, x, name, h, h.covered.1, fun w hw => ?_, h.reports_within, hreported, fun run hrun => ?_⟩
  · exact (h.mem_reports _).2 ⟨w, rfl, .inr (.inl hw)⟩
  · obtain ⟨t, ht, htask⟩ := RecipeRun.task_of_declaration hrun hd
    refine ⟨t.result, htask, fun w hw hwithin hwarning => ?_⟩
    obtain ⟨mapped, posts, -, -, rfl⟩ := RecipeStage.task_eq_ok_iff.1 ht
    refine RecipeStage.message_mem_rawWarnings (.ofText env source text) _ (hreported w hw) ?_ hwarning
    rw [env.declaration_ofDeclaration, env.span_resolved]
    exact hwithin

/-- In a block that was never closed, a property lies outside the declaration, and the task lacks the warning
about its value. -/
theorem warning_in_unclosed_block_lost :
    let env : RecipeEnvironment := ⟨.standard, .empty, ⟨[]⟩, .empty⟩
    let text : Text := "package 'x' do\n  version foo(1)\n"
    let result := extractDeclarations "a.rb" text env.knownTypes .empty
    ∃ (d : Declaration) (run : RecipeRun) (task : ConvertedTask),
      result.declarations[0]? = some d ∧ d.malformed = true ∧
      RecipeRun.ofText env ⟨"a.rb", text⟩ = .ok run ∧ run.conversion.tasks[0]? = some task ∧
      (∃ span ∈ d.itemSpans, span.within d.span = false) ∧
      ∃ w ∈ result.diagnostics, w.resourceRef = some d.ref ∧ w.severity = .warning ∧
        w.message ∉ task.rawWarnings := by
  intro env text result
  have hrun : (result.declarations[0]?.any fun d => d.malformed && !d.itemSpans.isEmpty &&
      ((RecipeRun.ofText env ⟨"a.rb", text⟩).toOption.any fun run =>
        run.conversion.tasks[0]?.any fun task =>
          result.diagnostics.any fun w => w.resourceRef == some d.ref && w.severity == .warning &&
            !task.rawWarnings.contains w.message)) = true := by decide +kernel
  obtain ⟨d, hd, hrun⟩ := (Option.any_eq_true _ _).1 hrun
  simp only [Bool.and_eq_true, Bool.not_eq_true', Option.any_eq_true, List.any_eq_true, beq_iff_eq] at hrun
  obtain ⟨⟨hopen, hitems⟩, run, hconverted, task, htask, w, hw, ⟨href, hwarning⟩, hmissing⟩ := hrun
  obtain ⟨span, hspan⟩ := List.exists_mem_of_ne_nil d.itemSpans (by simpa using hitems)
  obtain ⟨c, a, x, name, -, hcovered, -⟩ := span_covers_iff_closed env "a.rb" text 0 d hd
  have hout := hcovered.items span hspan
  rw [hopen] at hout
  exact ⟨d, run, task, hd, hopen, Except.eq_ok_of_toOption hconverted, htask, ⟨span, hspan, hout⟩, w, hw, href,
    hwarning, by simpa using hmissing⟩

end Cookbook
