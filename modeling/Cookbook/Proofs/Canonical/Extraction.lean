import Cookbook.Proofs.Canonical.Items
import Cookbook.Proofs.Canonical.Reading
import Cookbook.Proofs.Declaration.Steps

/-!
A printed recipe declares what it was printed from: each resource once and in order, under the tests
of the choices around it, with nothing to report.

* `Adds` says what extraction adds to what was there;
* `Resource.adds` is one resource, `Item.adds` an item with all that it holds;
* `extractDeclarations_printItems` is the whole recipe.
-/

namespace Cookbook

namespace Canonical

open RecipeReader

/-- The extraction `e'` is `e` with some more declarations, and nothing else. -/
structure Adds (more : List Outline) (e e' : Extraction) : Prop where
  constants : e'.constants = e.constants
  declarations : e'.declarations.map Declaration.outline =
    e.declarations.map Declaration.outline ++ more
  diagnostics : e'.diagnostics = e.diagnostics

theorem Adds.refl (e : Extraction) : Adds [] e e := ⟨rfl, (List.append_nil _).symm, rfl⟩

theorem Adds.trans {more more' : List Outline} {e e' e'' : Extraction} (h : Adds more e e')
    (h' : Adds more' e' e'') : Adds (more ++ more') e e'' where
  constants := h'.constants.trans h.constants
  declarations := by rw [h'.declarations, h.declarations, List.append_assoc]
  diagnostics := h'.diagnostics.trans h.diagnostics

/-! ### Resources -/

section Resource

variable {res : Resource} {c : Command} {pos : Nat} (hhead : c.head = layout pos res.head)

include hhead

theorem assignedName?_head : assignedName? c = none := by
  unfold assignedName?
  rw [hhead]
  rfl

theorem declared?_head (r : RecipeReader) (hblock : c.block.isSome = true) :
    r.declared? c =
      some (res.type.text, [(loose (.string res.name)).token (pos + res.type.text.length)]) := by
  have hcall := plainCall?_text hhead
  have hexpr : c.head.tail.head?.any Token.continuesExpression = false := by
    rw [hhead]
    rfl
  have hdeclares := res.declares
  unfold declared?
  simp only [hcall, Option.bind_eq_bind, Option.bind_some, List.filterMap_cons,
    Argument.positional?, List.filterMap_nil, List.head?_cons, hdeclares, hexpr, hblock]
  split <;> rfl

end Resource

/-- The tests around a statement. -/
def tests (around : Surroundings) : List (ContextForm × Bool) :=
  around.context.map fun c => (c.form, c.negated)

section Items

variable (r : RecipeReader)

theorem Resource.adds (res : Resource) {s : Statement} (hs : res.Spelled s) (e : Extraction)
    {around : Surroundings} (hloop : around.inLoop = false) :
    Adds [res.outline (tests around)] e (s.extract r around e) := by
  obtain ⟨extent, pos, opener, closer, body, rfl, hbody⟩ := hs
  let c : Command :=
    ⟨extent, layout pos res.head, some ⟨.doEnd, opener, some closer, [], body⟩, [], none⟩
  have hhead : c.head = layout pos res.head := rfl
  have hname := normalize_string (r.ctx e) (pos + res.type.text.length) true res.name
  have hholds := holds_readBodyList (r.ctx e) res hbody
  have hstart : (ResourceBody.start ((r.ctx e).normalize
      [(loose (.string res.name)).token (pos + res.type.text.length)]).diagnostics) = .start [] :=
    congrArg (fun n => ResourceBody.start n.diagnostics) hname
  have hfindings : loopFindings res.type.text around = [] := by simp [loopFindings, hloop]
  have hmodified : r.modified c.modifier around = around := rfl
  have hinner : (c.block.map (·.body)).getD [] = body := rfl
  rw [Statement.extract, Command.extract_of_declared around (assignedName?_head hhead)
    (declared?_head hhead r rfl)]
  unfold declare
  simp only [hstart, hmodified, hinner, hfindings]
  refine ⟨rfl, ?_, ?_⟩
  · rw [List.map_append]
    refine congrArg (_ ++ [·]) ?_
    simp only [Declaration.outline, Resource.outline, Outline.mk.injEq, true_and]
    exact ⟨congrArg Normalized.value hname, hholds.actions, hholds.properties, hholds.guards,
      hholds.notifications, rfl, hloop, rfl⟩
  · rw [hholds.diagnostics]
    exact List.append_nil _

theorem tests_ifTrue {condition : List Token} {key : Text} (hsource : sourceOf r.text condition = test key)
    (around : Surroundings) (start : Nat) :
    tests { around with
      context := around.context ++ [] ++
        (r.branchCondition? (r.sourceOf []) .ifTrue condition start).toList } =
      tests around ++ [(.test (test key), false)] := by
  have hcondition : r.sourceOf condition = test key := hsource
  simp [tests, branchCondition?, hcondition]

theorem tests_otherwise {condition : List Token} {key : Text}
    (hsource : sourceOf r.text condition = test key) (around : Surroundings) (start start' : Nat) :
    tests { around with
      context := around.context ++
        ([] ++ ((r.branchCondition? (r.sourceOf []) .ifTrue condition start).map
          ContextCondition.negate).toList) ++
        (r.branchCondition? (r.sourceOf []) .otherwise [] start').toList } =
      tests around ++ [(.test (test key), true)] := by
  have hcondition : r.sourceOf condition = test key := hsource
  simp [tests, branchCondition?, hcondition, ContextCondition.negate]

mutual

theorem Item.adds : ∀ (item : Item) {s : Statement}, item.Spelled r.text s →
    ∀ (e : Extraction) (around : Surroundings), around.inLoop = false →
      Adds (item.outlines (tests around)) e (s.extract r around e)
  | .resource res, s, hs, e, around, hloop => by
    rw [Item.Spelled] at hs
    rw [Item.outlines]
    exact res.adds r hs e hloop
  | .choice key items none, s, hs, e, around, hloop => by
    rw [Item.Spelled] at hs
    obtain ⟨extent, condition, body, start, opener, closer, rfl, hsource, hbody⟩ := hs
    rw [Item.outlines, Statement.extract, ← tests_ifTrue r hsource around start]
    simp only [extractBranches]
    exact adds_items items hbody e _ hloop
  | .choice key items (some others), s, hs, e, around, hloop => by
    rw [Item.Spelled] at hs
    obtain ⟨extent, condition, body, start, body', start', opener, closer, rfl, hsource, hbody,
      hbody'⟩ := hs
    rw [Item.outlines, Statement.extract, ← tests_ifTrue r hsource around start,
      ← tests_otherwise r hsource around start start']
    simp only [extractBranches]
    refine Adds.trans (adds_items items hbody e _ ?_) (adds_items others hbody' _ _ ?_)
    · exact hloop
    · exact hloop

/-- Items declare the resources in them, in order. -/
theorem adds_items : ∀ (items : List Item) {body : List Statement}, itemsSpelled r.text items body →
    ∀ (e : Extraction) (around : Surroundings), around.inLoop = false →
      Adds (outlines (tests around) items) e (extractList r around body e)
  | [], body, hbody, e, around, _ => by
    rw [itemsSpelled] at hbody
    subst hbody
    rw [outlines, extractList]
    exact .refl e
  | item :: rest, body, hbody, e, around, hloop => by
    rw [itemsSpelled] at hbody
    obtain ⟨s, more, rfl, hs, hmore⟩ := hbody
    rw [outlines, extractList]
    exact (Item.adds item hs e around hloop).trans (adds_items rest hmore _ around hloop)

end

end Items

/-! ### Recipes -/

/-- Printing a canonical recipe and extracting its declarations gives back its resources in order,
each under the tests around it, and nothing is reported. -/
theorem extractDeclarations_printItems (items : List Item) (source : Text) (knownTypes : List Text)
    (constants : Bindings Value) :
    let e := extractDeclarations source (printItems items) knownTypes constants
    e.diagnostics = [] ∧ e.declarations.map Declaration.outline = outlines [] items ∧
      e.constants = constants := by
  obtain ⟨hspelled, hproblems⟩ := spelled_ofText items
  let r : RecipeReader := ⟨source, Program.ofText (printItems items), knownTypes⟩
  have hadds := adds_items r items hspelled
    ⟨constants, [], r.program.problems.map (Diagnostic.ofProblem source r.program.lines)⟩ ⟨[], false⟩ rfl
  refine ⟨?_, hadds.declarations, hadds.constants⟩
  have hnone : r.program.problems.map (Diagnostic.ofProblem source r.program.lines) = [] := by
    rw [hproblems]
    rfl
  exact hadds.diagnostics.trans hnone

end Canonical

end Cookbook
