import Cookbook.Declaration.Extract

/-!
What extraction does with each kind of statement, case by case, and with one list after another.
-/

namespace Cookbook

open RecipeReader

section Command

variable {r : RecipeReader} {c : Command} {e : Extraction} (around : Surroundings)

theorem Command.extract_of_assigned {name : Text} (h : assignedName? c = some name) :
    c.extract r around e = r.assign c name e := by
  obtain ⟨extent, head, block, inner, modifier⟩ := c
  rw [Command.extract]
  dsimp only
  rw [h]

theorem Command.extract_of_declared (h : assignedName? c = none) {type : Text} {name : List Token}
    (hd : r.declared? c = some (type, name)) :
    c.extract r around e = r.declare type c name (r.modified c.modifier around) e := by
  obtain ⟨extent, head, block, inner, modifier⟩ := c
  rw [Command.extract]
  dsimp only
  rw [h, hd]

theorem Command.extract_of_block (h : assignedName? c = none) (hd : r.declared? c = none)
    {block : Block} (hblock : c.block = some block) :
    c.extract r around e =
      if isIterator c then
        extractList r { r.modified c.modifier around with inLoop := true } block.body e
      else
        extractList r (r.modified c.modifier around) block.body
          (r.report e (r.program.spanOf c.extent) (.blockOwner (r.sourceOf c.head))) := by
  obtain ⟨extent, head, _, inner, modifier⟩ := c
  obtain rfl : _ = some block := hblock
  obtain ⟨kind, opener, closer, params, body⟩ := block
  rw [Command.extract]
  dsimp only
  rw [h, hd]

theorem Command.extract_of_rest (h : assignedName? c = none) (hd : r.declared? c = none)
    (hblock : c.block = none) :
    c.extract r around e =
      r.report e (r.program.spanOf c.extent) (.statement (r.sourceOf c.head)) := by
  obtain ⟨extent, head, _, inner, modifier⟩ := c
  obtain rfl : _ = none := hblock
  rw [Command.extract]
  dsimp only
  rw [h, hd]

end Command

section Declare

variable (r : RecipeReader) (type : Text) (c : Command) (name : List Token) (a : Surroundings)
  (x : Extraction)

/-- What is read of a resource: the diagnostics about its name, then its block. -/
def RecipeReader.bodyOf : ResourceBody :=
  readBodyList (r.ctx x) false ((c.block.map (·.body)).getD [])
    (.start ((r.ctx x).normalize name).diagnostics)

/-- The declaration of a resource, with what is read of it. -/
def RecipeReader.declarationOf : Declaration :=
  let body := r.bodyOf c name x
  { type, name := ((r.ctx x).normalize name).value, actions := body.actions, properties := body.properties
    guards := body.guards, notifications := body.notifications
    context := a.context, inLoop := a.inLoop
    malformed := c.block.any (·.closer.isNone)
    usesSearch := callsSearch false (r.text.slice c.extent.start c.extent.stop)
    span := r.program.spanOf c.extent, source := r.source }

/-- What is reported of a resource: what reading it reports, then what a loop around it does. -/
def RecipeReader.reportsOf : List Diagnostic :=
  ((r.bodyOf c name x).diagnostics ++ (loopFindings type a).map fun f =>
    (⟨f, r.source, r.program.spanOf c.extent, none⟩ : Diagnostic)).map
      (·.about (r.declarationOf type c name a x).ref)

theorem RecipeReader.declare_eq :
    r.declare type c name a x =
      { x with
        diagnostics := x.diagnostics ++ r.reportsOf type c name a x
        declarations := x.declarations ++ [r.declarationOf type c name a x] } := rfl

theorem RecipeReader.loopFindings_eq_nil_iff {type : Text} {around : Surroundings} :
    loopFindings type around = [] ↔ around.inLoop = false := by
  unfold loopFindings
  cases around.inLoop with
  | false => simp
  | true => cases around.context.isEmpty <;> simp

/-- Nothing is reported of a resource when reading it reports nothing and it stands in no loop. -/
theorem RecipeReader.reportsOf_eq_nil_iff :
    r.reportsOf type c name a x = [] ↔ (r.bodyOf c name x).diagnostics = [] ∧ a.inLoop = false := by
  rw [reportsOf, List.map_eq_nil_iff, List.append_eq_nil_iff, List.map_eq_nil_iff, loopFindings_eq_nil_iff]

end Declare

theorem extractList_append (r : RecipeReader) (around : Surroundings) (body more : List Statement)
    (e : Extraction) :
    extractList r around (body ++ more) e = extractList r around more (extractList r around body e) := by
  induction body generalizing e with
  | nil => simp only [List.nil_append, extractList]
  | cons s rest ih => simp only [List.cons_append, extractList, ih]

end Cookbook
