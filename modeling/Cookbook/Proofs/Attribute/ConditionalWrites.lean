import Cookbook.Conversion.Prepared
import Cookbook.Proofs.Attribute.Lookup
import Cookbook.Proofs.Attribute.Paths

/-!
Conditional writes. The levels and paths that have been given a value are kept as texts, over all files,
and a conditional write looks for the text of its path, of those above it, and of any that continues
with a separator. Where keys are free of the separator this is the order of paths by their keys.

* `AssignedPaths.Records` says that the texts are those of the leaves assigned so far;
* `AttributeStep` is one step in reading a file, `readAttributeList_eq` says that a file is the run of
  its steps, `AttributeReader.Effect` what a command does to the assignments;
* `AttributeReader.records_run` and `AttributeSequence.records_ofNumbered` carry the texts through the
  steps of a file and through the files; their assignments may be numbered from any number, and
  `AttributeSequence.exists_ofNumbered` says that the files of a cookbook are a case of this;
* `conditional_write_iff_nothing_there` is the result for every conditional write of every sequence of
  files.
-/

namespace Cookbook

/-! ### Leaves of assignments -/

namespace Assignment

/-- The paths of the leaves of an assignment. -/
def leafPaths (a : Assignment) : List KeyPath := (a.value.leaves a.keyPath).map Prod.fst

/-- The texts for the level of an assignment and the path of each of its leaves. -/
def ids (a : Assignment) : List Text := a.leafPaths.map (assignedId a.precedence)

/-- The assignment has a leaf at the path, above it or below it, at the level. -/
def Covers (a : Assignment) (precedence : Precedence) (path : KeyPath) : Prop :=
  a.precedence = precedence ∧ ∃ leaf ∈ a.leafPaths, leaf <+: path ∨ path <+: leaf

theorem prefix_of_mem_leafPaths {a : Assignment} {leaf : KeyPath} (h : leaf ∈ a.leafPaths) :
    a.keyPath <+: leaf := by
  obtain ⟨pair, hpair, rfl⟩ := List.mem_map.1 h
  exact (a.value.of_mem_leaves a.keyPath hpair).1

end Assignment

/-! ### Texts of assigned paths -/

namespace AssignedPaths

/-- The texts are those of the leaves of some assignments, in the order in which they first occur, and
each assignment is to a path with a key. -/
structure Records (assigned : AssignedPaths) (assignments : List Assignment) : Prop where
  ids : assigned.ids = (assignments.flatMap Assignment.ids).eraseDups
  paths : ∀ a ∈ assignments, a.keyPath ≠ []

variable {assigned : AssignedPaths} {assignments : List Assignment}

theorem ids_add {l : List Text} (h : assigned.ids = l.eraseDups) (id : Text) :
    (assigned.add id).ids = (l ++ [id]).eraseDups := by
  unfold add
  by_cases hid : id ∈ l
  · have hcontains : assigned.ids.contains id = true := by simpa [h] using hid
    rw [if_pos hcontains, eraseDups_concat_of_mem hid, h]
  · have hcontains : ¬ assigned.ids.contains id = true := by simpa [h] using hid
    rw [if_neg hcontains, eraseDups_concat_of_not_mem hid, h]

theorem ids_foldl_add {l : List Text} (h : assigned.ids = l.eraseDups) (more : List Text) :
    (more.foldl add assigned).ids = (l ++ more).eraseDups := by
  induction more generalizing assigned l with
  | nil => rw [List.foldl_nil, List.append_nil, h]
  | cons id more ih => rw [List.foldl_cons, ih (ids_add h id), List.append_assoc, List.singleton_append]

theorem addLeaves_eq (a : Assignment) :
    assigned.addLeaves a.precedence a.keyPath a.value = a.ids.foldl add assigned := by
  unfold addLeaves Assignment.ids Assignment.leafPaths
  rw [List.map_map, List.foldl_map]
  rfl

theorem records_empty : AssignedPaths.empty.Records [] where
  ids := rfl
  paths _ ha := absurd ha List.not_mem_nil

namespace Records

theorem addLeaves (h : assigned.Records assignments) {a : Assignment} (ha : a.keyPath ≠ []) :
    (assigned.addLeaves a.precedence a.keyPath a.value).Records (assignments ++ [a]) where
  ids := by
    rw [addLeaves_eq, ids_foldl_add h.ids, List.flatMap_append, List.flatMap_singleton]
  paths := by
    intro b hb
    rcases List.mem_append.1 hb with hb | hb
    · exact h.paths b hb
    · rw [List.mem_singleton.1 hb]
      exact ha

theorem mem_ids (h : assigned.Records assignments) {id : Text} :
    id ∈ assigned.ids ↔ ∃ a ∈ assignments, ∃ leaf ∈ a.leafPaths, assignedId a.precedence leaf = id := by
  rw [h.ids, List.mem_eraseDups, List.mem_flatMap]
  simp only [Assignment.ids, List.mem_map]

theorem ne_nil_of_mem_leafPaths (h : assigned.Records assignments) {a : Assignment}
    (ha : a ∈ assignments) {leaf : KeyPath} (hleaf : leaf ∈ a.leafPaths) : leaf ≠ [] := by
  rintro rfl
  exact h.paths a ha (List.prefix_nil.1 (Assignment.prefix_of_mem_leafPaths hleaf))

/-- The check on the texts finds exactly the leaves at the path, above it or below it. -/
theorem covers_iff (h : assigned.Records assignments)
    (hfree : ∀ a ∈ assignments, ∀ leaf ∈ a.leafPaths, leaf.NulFree) (precedence : Precedence)
    {path : KeyPath} (hpath : path.NulFree) (hne : path ≠ []) :
    assigned.covers precedence path = true ↔ ∃ a ∈ assignments, a.Covers precedence path := by
  unfold covers
  simp only [Bool.or_eq_true, List.any_eq_true, List.mem_range, List.contains_iff_mem,
    List.isPrefixOf_iff_prefix]
  constructor
  · rintro (⟨k, hk, hid⟩ | ⟨id, hid, hpre⟩)
    · obtain ⟨a, ha, leaf, hleaf, hid⟩ := h.mem_ids.1 hid
      have htake : path.take (k + 1) ≠ [] := by simp [hne]
      have htakeFree : KeyPath.NulFree (path.take (k + 1)) :=
        fun key hkey => hpath key (List.mem_of_mem_take hkey)
      obtain ⟨hlevel, rfl⟩ := (assignedId_eq_iff (hfree a ha leaf hleaf)
        (h.ne_nil_of_mem_leafPaths ha hleaf) htakeFree htake).1 hid
      exact ⟨a, ha, hlevel, _, hleaf, .inl (List.take_prefix _ _)⟩
    · obtain ⟨a, ha, leaf, hleaf, rfl⟩ := h.mem_ids.1 hid
      obtain ⟨hlevel, hbelow, -⟩ := (assignedId_prefix_iff hpath hne (hfree a ha leaf hleaf)).1 hpre
      exact ⟨a, ha, hlevel.symm, leaf, hleaf, .inr hbelow⟩
  · rintro ⟨a, ha, rfl, leaf, hleaf, hrelated⟩
    have hleafNe := h.ne_nil_of_mem_leafPaths ha hleaf
    have habove : leaf <+: path → ∃ k, k < path.length ∧
        assignedId a.precedence (path.take (k + 1)) ∈ assigned.ids := by
      intro hpre
      have hpos : 0 < leaf.length := List.length_pos_iff.2 hleafNe
      have hle := hpre.length_le
      refine ⟨leaf.length - 1, by omega, ?_⟩
      rw [show leaf.length - 1 + 1 = leaf.length by omega, ← List.prefix_iff_eq_take.1 hpre]
      exact h.mem_ids.2 ⟨a, ha, leaf, hleaf, rfl⟩
    rcases hrelated with hpre | hpre
    · exact .inl (habove hpre)
    · by_cases heq : path = leaf
      · exact .inl (habove (heq ▸ List.prefix_rfl))
      · refine .inr ⟨_, h.mem_ids.2 ⟨a, ha, leaf, hleaf, rfl⟩, ?_⟩
        exact (assignedId_prefix_iff hpath hne (hfree a ha leaf hleaf)).2 ⟨rfl, hpre, heq⟩

end Records

end AssignedPaths

/-! ### Steps of a file -/

/-- One step in reading an attribute file: a command, `conditional` when it stands in a branch, or a
statement that is reported as a whole. -/
inductive AttributeStep where
  | command (conditional : Bool) (c : Command)
  | report (extent : Extent) (finding : Finding)

/-- What one step makes of what has been read. -/
def AttributeStep.run (source : Text) (p : Program) (r : AttributeReader) :
    AttributeStep → AttributeReader
  | .command conditional c => r.command source p conditional c
  | .report extent finding => r.report source (p.spanOf extent) finding

mutual

def Statement.attributeSteps (conditional : Bool) : Statement → List AttributeStep
  | .command c => [.command conditional c]
  | .conditional ⟨extent, word, _, branches, _, _⟩ =>
    (if conditional then [] else [.report extent (.conditionalAssignments word.text)]) ++
      branchSteps branches
  | .compound ⟨extent, _, body, opener, _⟩ =>
    if opener.text = ("begin" : Text) then attributeSteps conditional body
    else [.report extent (.notAssignmentBlock opener.text)]

def attributeSteps (conditional : Bool) : List Statement → List AttributeStep
  | [] => []
  | s :: rest => s.attributeSteps conditional ++ attributeSteps conditional rest

def branchSteps : List Branch → List AttributeStep
  | [] => []
  | ⟨_, _, body, _⟩ :: rest => attributeSteps true body ++ branchSteps rest

end

section Steps

variable (source : Text) (p : Program)

mutual

theorem Statement.readAttributes_eq : ∀ (s : Statement) (conditional : Bool) (r : AttributeReader),
    s.readAttributes source p conditional r =
      (s.attributeSteps conditional).foldl (AttributeStep.run source p) r
  | .command c, conditional, r => rfl
  | .conditional ⟨extent, word, _, branches, _, _⟩, conditional, r => by
    rw [Statement.readAttributes, Statement.attributeSteps, List.foldl_append, readAttributeBranches_eq]
    cases conditional <;> rfl
  | .compound ⟨extent, _, body, opener, _⟩, conditional, r => by
    rw [Statement.readAttributes, Statement.attributeSteps]
    split
    · exact readAttributeList_eq body conditional r
    · rfl

/-- Reading statements is the run of their steps. -/
theorem readAttributeList_eq : ∀ (body : List Statement) (conditional : Bool) (r : AttributeReader),
    readAttributeList source p conditional body r =
      (attributeSteps conditional body).foldl (AttributeStep.run source p) r
  | [], conditional, r => rfl
  | s :: rest, conditional, r => by
    rw [readAttributeList, attributeSteps, List.foldl_append, s.readAttributes_eq,
      readAttributeList_eq rest]

theorem readAttributeBranches_eq : ∀ (branches : List Branch) (r : AttributeReader),
    readAttributeBranches source p branches r =
      (branchSteps branches).foldl (AttributeStep.run source p) r
  | [], r => rfl
  | ⟨_, _, body, _⟩ :: rest, r => by
    rw [readAttributeBranches, branchSteps, List.foldl_append, readAttributeList_eq body,
      readAttributeBranches_eq rest]

end

end Steps

/-! ### Commands -/

theorem keyPath_of_assignmentTarget? {constants : Bindings Value} {left : List Token} {op : Text}
    {target : AssignmentTarget} (h : assignmentTarget? constants left op = some target) :
    target.keyPath ≠ [] := by
  unfold assignmentTarget? at h
  obtain ⟨⟨precedence, ifUnset, lead⟩, -, h⟩ := Option.bind_eq_some_iff.1 h
  obtain ⟨⟨keys, n⟩, -, h⟩ := Option.bind_eq_some_iff.1 h
  dsimp only at h
  split at h
  · exact absurd h (by simp)
  · rename_i hkeys
    obtain rfl := Option.some.inj h
    simp only [Bool.or_eq_true, List.isEmpty_iff, not_or] at hkeys
    exact hkeys.1

def Command.leftSide (c : Command) : List Token := c.head.takeWhile fun t => !t.isPunct ["=", "||="]

def Command.rightSide (c : Command) : List Token := c.head.drop c.leftSide.length

namespace AttributeReader

/-- What a command writes to, if it is an assignment to an attribute. -/
def target? (r : AttributeReader) (c : Command) : Option AssignmentTarget :=
  match c.rightSide with
  | [] => none
  | op :: _ =>
    if c.leftSide.isEmpty || c.block.isSome then none
    else match localName? c.leftSide op.text with
      | some _ => none
      | none => assignmentTarget? r.constants c.leftSide op.text

theorem keyPath_of_target? {r : AttributeReader} {c : Command} {target : AssignmentTarget}
    (h : r.target? c = some target) : target.keyPath ≠ [] := by
  unfold target? at h
  split at h
  · exact absurd h (by simp)
  · split at h
    · exact absurd h (by simp)
    · split at h
      · exact absurd h (by simp)
      · exact keyPath_of_assignmentTarget? h

/-- The reader with what is to be said about the modifier of a command. -/
def warned (r : AttributeReader) (source : Text) (p : Program) (conditional : Bool) (c : Command) :
    AttributeReader :=
  match c.modifier with
  | some m =>
    if conditional then r
    else r.report source (p.spanOf c.extent) (.modifiedAssignment m.word.text)
  | none => r

/-- What a command does to the assignments and their texts: nothing when it is no assignment to an
attribute, nothing when it is a conditional write and something is there, and else one assignment
more. -/
inductive Effect (r : AttributeReader) (c : Command) (r' : AttributeReader) : Prop
  | other (htarget : r.target? c = none) (hassigned : r'.assigned = r.assigned)
      (hassignments : r'.assignments = r.assignments)
  | skipped {target : AssignmentTarget} (htarget : r.target? c = some target)
      (hcovers : (target.ifUnset && r.assigned.covers target.precedence target.keyPath) = true)
      (hassigned : r'.assigned = r.assigned) (hassignments : r'.assignments = r.assignments)
  | written {target : AssignmentTarget} (a : Assignment) (htarget : r.target? c = some target)
      (hcovers : (target.ifUnset && r.assigned.covers target.precedence target.keyPath) = false)
      (hprecedence : a.precedence = target.precedence) (hkeyPath : a.keyPath = target.keyPath)
      (hassigned : r'.assigned = r.assigned.addLeaves a.precedence a.keyPath a.value)
      (hassignments : r'.assignments = r.assignments ++ [a])

section Command

variable (r : AttributeReader) (source : Text) (p : Program) (conditional : Bool) (c : Command)

theorem command_eq : r.command source p conditional c =
    let w := r.warned source p conditional c
    match c.rightSide with
    | [] => w.report source (p.spanOf c.extent) (.notAssignment (p.sourceOf c.head))
    | op :: right =>
      if c.leftSide.isEmpty || c.block.isSome then
        w.report source (p.spanOf c.extent) (.notAssignment (p.sourceOf c.head))
      else match localName? c.leftSide op.text with
        | some name => w.setLocal source p.lines name c.modifier.isSome right
        | none =>
          match assignmentTarget? w.constants c.leftSide op.text with
          | none => w.report source (p.spanOf c.extent) (.notAttribute (p.sourceOf c.leftSide))
          | some target =>
            if target.ifUnset && w.assigned.covers target.precedence target.keyPath then w
            else w.assign source p.lines target (p.spanOf c.extent)
              (conditional || c.modifier.isSome) right := rfl

theorem warned_keeps : (r.warned source p conditional c).constants = r.constants ∧
    (r.warned source p conditional c).assigned = r.assigned ∧
      (r.warned source p conditional c).assignments = r.assignments := by
  unfold warned
  split
  · split <;> exact ⟨rfl, rfl, rfl⟩
  · exact ⟨rfl, rfl, rfl⟩

theorem setLocal_keeps (lines : LineIndex) (name : Text) (isModified : Bool) (right : List Token) :
    (r.setLocal source lines name isModified right).assigned = r.assigned ∧
      (r.setLocal source lines name isModified right).assignments = r.assignments := by
  unfold setLocal
  dsimp only
  split <;> exact ⟨rfl, rfl⟩

theorem assign_adds (lines : LineIndex) (target : AssignmentTarget) (span : Span) (right : List Token) :
    ∃ a : Assignment, a.precedence = target.precedence ∧ a.keyPath = target.keyPath ∧
      (r.assign source lines target span conditional right).assigned =
        r.assigned.addLeaves a.precedence a.keyPath a.value ∧
      (r.assign source lines target span conditional right).assignments = r.assignments ++ [a] :=
  ⟨_, rfl, rfl, rfl, rfl⟩

theorem effect_command : r.Effect c (r.command source p conditional c) := by
  obtain ⟨hconstants, hassigned, hassignments⟩ := r.warned_keeps source p conditional c
  rw [command_eq]
  generalize r.warned source p conditional c = w at hconstants hassigned hassignments ⊢
  simp only [hconstants, hassigned]
  -- the cases of `target?` are those of `command`
  cases hright : c.rightSide with
  | nil => exact .other (by simp only [target?, hright]) hassigned hassignments
  | cons op right =>
    dsimp only
    cases hplain : (c.leftSide.isEmpty || c.block.isSome) with
    | true =>
      have htarget : r.target? c = none := by simp [target?, hright, hplain]
      exact .other htarget hassigned hassignments
    | false =>
      cases hname : localName? c.leftSide op.text with
      | some name =>
        have htarget : r.target? c = none := by simp [target?, hright, hplain, hname]
        obtain ⟨hassigned', hassignments'⟩ := w.setLocal_keeps source p.lines name c.modifier.isSome right
        exact .other htarget (hassigned'.trans hassigned) (hassignments'.trans hassignments)
      | none =>
        have htarget : r.target? c = assignmentTarget? r.constants c.leftSide op.text := by
          simp [target?, hright, hplain, hname]
        cases hsome : assignmentTarget? r.constants c.leftSide op.text with
        | none => exact .other (htarget.trans hsome) hassigned hassignments
        | some target =>
          dsimp only
          cases hcovers : (target.ifUnset && r.assigned.covers target.precedence target.keyPath) with
          | true => exact .skipped (htarget.trans hsome) hcovers hassigned hassignments
          | false =>
            obtain ⟨a, hprecedence, hkeyPath, hassigned', hassignments'⟩ := w.assign_adds source
              (conditional || c.modifier.isSome) p.lines target (p.spanOf c.extent) right
            rw [hassigned] at hassigned'
            rw [hassignments] at hassignments'
            exact .written a (htarget.trans hsome) hcovers hprecedence hkeyPath hassigned' hassignments'

end Command

end AttributeReader

deriving instance DecidableEq for AssignmentTarget

/-- What a step writes to, if it is an assignment to an attribute. -/
def AttributeStep.target? (r : AttributeReader) : AttributeStep → Option AssignmentTarget
  | .command _ c => r.target? c
  | .report _ _ => none

namespace AttributeReader

/-! ### What the steps of a file keep -/

section Run

variable {r : AttributeReader} {earlier : List Assignment} (source : Text) (p : Program)

theorem records_step (h : r.assigned.Records (earlier ++ r.assignments)) (step : AttributeStep) :
    (step.run source p r).assigned.Records (earlier ++ (step.run source p r).assignments) := by
  cases step with
  | report extent finding => exact h
  | command conditional c =>
    show (r.command source p conditional c).assigned.Records
      (earlier ++ (r.command source p conditional c).assignments)
    cases r.effect_command source p conditional c with
    | other _ hassigned hassignments | skipped _ _ hassigned hassignments =>
      rw [hassigned, hassignments]
      exact h
    | written a htarget _ _ hkeyPath hassigned hassignments =>
      rw [hassigned, hassignments, ← List.append_assoc]
      apply h.addLeaves
      rw [hkeyPath]
      exact keyPath_of_target? htarget

theorem prefix_step (r : AttributeReader) (step : AttributeStep) :
    r.assignments <+: (step.run source p r).assignments := by
  cases step with
  | report extent finding => exact List.prefix_rfl
  | command conditional c =>
    show r.assignments <+: (r.command source p conditional c).assignments
    cases r.effect_command source p conditional c with
    | other _ _ hassignments | skipped _ _ _ hassignments => rw [hassignments]
    | written a _ _ _ _ _ hassignments =>
      rw [hassignments]
      exact List.prefix_append _ _

/-- The texts stay those of the leaves assigned so far, in earlier files and in this one. -/
theorem records_run (h : r.assigned.Records (earlier ++ r.assignments)) (steps : List AttributeStep) :
    (steps.foldl (AttributeStep.run source p) r).assigned.Records
      (earlier ++ (steps.foldl (AttributeStep.run source p) r).assignments) := by
  induction steps generalizing r with
  | nil => exact h
  | cons step steps ih =>
    rw [List.foldl_cons]
    exact ih (records_step source p h step)

/-- Assignments that have been made stay. -/
theorem prefix_run (r : AttributeReader) (steps : List AttributeStep) :
    r.assignments <+: (steps.foldl (AttributeStep.run source p) r).assignments := by
  induction steps generalizing r with
  | nil => exact List.prefix_rfl
  | cons step steps ih =>
    rw [List.foldl_cons]
    exact (prefix_step source p r step).trans (ih _)

end Run

end AttributeReader

/-! ### Files -/

def SourceFile.attributeSteps (file : SourceFile) : List AttributeStep :=
  Cookbook.attributeSteps false (Program.ofText file.text).statements

/-- What has been read of a file after some of its steps, where earlier files have given values to the
paths `assigned` and assignments are numbered from `number`. -/
def SourceFile.readerAfter (file : SourceFile) (number : Int) (assigned : AssignedPaths)
    (steps : List AttributeStep) : AttributeReader :=
  let p := Program.ofText file.text
  steps.foldl (AttributeStep.run file.source p)
    ⟨.empty, assigned, [], p.problems.map (Diagnostic.ofProblem file.source p.lines), number⟩

theorem SourceFile.readerAfter_append (file : SourceFile) (number : Int) (assigned : AssignedPaths)
    (steps more : List AttributeStep) : file.readerAfter number assigned (steps ++ more) =
      more.foldl (AttributeStep.run file.source (Program.ofText file.text))
        (file.readerAfter number assigned steps) :=
  List.foldl_append

/-- A file gives what has been read after all of its steps. -/
theorem AttributeFile.ofText_eq (file : SourceFile) (number : Int) (assigned : AssignedPaths) :
    AttributeFile.ofText file.source file.text number assigned =
      let r := file.readerAfter number assigned file.attributeSteps
      ⟨r.assignments, r.diagnostics, r.assigned⟩ := by
  unfold ofText
  simp only [readAttributeList_eq]
  rfl

namespace AttributeSequence

/-- One more file, its assignments numbered from a given number on. -/
def addFrom (s : AttributeSequence) (file : SourceFile) (number : Int) : AttributeSequence :=
  let read := AttributeFile.ofText file.source file.text number s.assigned
  ⟨s.assignments ++ read.assignments, s.diagnostics ++ read.diagnostics, read.assigned⟩

/-- Attribute files with the numbers from which their assignments are numbered, one after another. -/
def ofNumbered (files : List (SourceFile × Int)) : AttributeSequence :=
  files.foldl (fun s file => s.addFrom file.1 file.2) empty

theorem exists_ofNumbered (files : List SourceFile) :
    ∃ numbered : List (SourceFile × Int), numbered.map Prod.fst = files ∧
      ofFiles files = ofNumbered numbered := by
  induction files using List.reverseRecOn with
  | nil => exact ⟨[], rfl, rfl⟩
  | append_singleton files file ih =>
    obtain ⟨numbered, rfl, hsame⟩ := ih
    refine ⟨numbered ++ [(file, ((ofNumbered numbered).assignments.length : Int))], by simp, ?_⟩
    unfold ofFiles ofNumbered at hsame ⊢
    rw [List.foldl_append, List.foldl_append, hsame]
    rfl

/-- At every point of the next file the texts are those of the leaves assigned so far. -/
theorem records_readerAfter {s : AttributeSequence} (h : s.assigned.Records s.assignments)
    (file : SourceFile) (number : Int) (steps : List AttributeStep) :
    (file.readerAfter number s.assigned steps).assigned.Records
      (s.assignments ++ (file.readerAfter number s.assigned steps).assignments) := by
  apply AttributeReader.records_run
  rw [List.append_nil]
  exact h

theorem records_addFrom {s : AttributeSequence} (h : s.assigned.Records s.assignments)
    (file : SourceFile) (number : Int) :
    (s.addFrom file number).assigned.Records (s.addFrom file number).assignments := by
  unfold addFrom
  rw [AttributeFile.ofText_eq]
  exact records_readerAfter h file number file.attributeSteps

/-- What has been assigned at some point of the next file is assigned after it. -/
theorem prefix_addFrom (s : AttributeSequence) {file : SourceFile} (number : Int)
    {steps more : List AttributeStep} (hsteps : file.attributeSteps = steps ++ more) :
    s.assignments ++ (file.readerAfter number s.assigned steps).assignments <+:
      (s.addFrom file number).assignments := by
  unfold addFrom
  rw [AttributeFile.ofText_eq, hsteps, file.readerAfter_append, List.prefix_append_right_inj]
  exact AttributeReader.prefix_run _ _ _ _

/-- After some files the texts are those of the leaves of all their assignments. -/
theorem records_ofNumbered (files : List (SourceFile × Int)) :
    (ofNumbered files).assigned.Records (ofNumbered files).assignments := by
  induction files using List.reverseRecOn with
  | nil => exact AssignedPaths.records_empty
  | append_singleton files file ih =>
    unfold ofNumbered at ih ⊢
    rw [List.foldl_append]
    exact records_addFrom ih file.1 file.2

end AttributeSequence

/-! ### Values in effect at a level -/

def atLevel (precedence : Precedence) (assignments : List Assignment) : List Assignment :=
  assignments.filter (·.precedence = precedence)

theorem exists_of_mem_candidatesOf {assignments : List Assignment} {c : Candidate}
    (h : c ∈ candidatesOf assignments) : ∃ a ∈ assignments, c.keyPath ∈ a.leafPaths := by
  obtain ⟨pair, hpair, hc⟩ := List.mem_flatMap.1 h
  obtain ⟨leaf, hleaf, rfl⟩ := List.mem_map.1 hc
  exact ⟨pair.1, List.fst_mem_of_mem_zipIdx hpair, List.mem_map_of_mem hleaf⟩

/-- An assignment whose leaves have other texts than those of earlier ones leaves their values in
effect. -/
theorem effectiveAttributes_subset_concat {assignments : List Assignment} {a : Assignment}
    (h : ∀ b ∈ assignments, ∀ leaf ∈ b.leafPaths, ∀ leaf' ∈ a.leafPaths,
      keyPathId leaf ≠ keyPathId leaf') :
    effectiveAttributes assignments ⊆ effectiveAttributes (assignments ++ [a]) := by
  intro e he
  obtain ⟨c, hc, rfl⟩ := mem_effectiveAttributes.1 he
  refine mem_effectiveAttributes.2 ⟨c, ?_, rfl⟩
  have hcandidates : candidatesOf (assignments ++ [a]) =
      candidatesOf assignments ++ Candidate.ofAssignment a assignments.length := by
    unfold candidatesOf
    rw [List.zipIdx_append, List.flatMap_append]
    simp
  rw [hcandidates, Candidate.prevails_append]
  refine .inl ⟨hc, ?_⟩
  intro d hd hid
  obtain ⟨b, hb, hleaf⟩ := exists_of_mem_candidatesOf hc.mem
  obtain ⟨leaf, hleaf', rfl⟩ := List.mem_map.1 hd
  exact absurd hid.symm (h b hb _ hleaf _ (List.mem_map_of_mem hleaf'))

/-- What lies at a path or below it has another text than a path that lies neither above, at nor below
the first. -/
theorem keyPathId_ne_of_unrelated {path leaf below : KeyPath} (hpath : path.NulFree) (hne : path ≠ [])
    (hleaf : leaf.NulFree) (hleafNe : leaf ≠ []) (hbelow : path <+: below)
    (hunrelated : ¬ path <+: leaf) : keyPathId leaf ≠ keyPathId below := by
  intro hid
  obtain ⟨more, rfl⟩ := hbelow
  by_cases hmore : more = []
  · rw [hmore, List.append_nil, keyPathId_inj hleaf hleafNe hpath hne] at hid
    exact hunrelated (hid ▸ List.prefix_rfl)
  · rw [keyPathId_append hne hmore] at hid
    have hcontinues : keyPathId path ++ [0] <+: keyPathId leaf := ⟨keyPathId more, by simp [hid]⟩
    exact hunrelated ((keyPathId_prefix_iff hpath hne hleaf).1 hcontinues).1

/-- An assignment to a path where nothing is leaves the values in effect at its level as they are. -/
theorem AssignedPaths.Records.effectiveAttributes_subset {assigned : AssignedPaths}
    {earlier : List Assignment} {a : Assignment} (h : assigned.Records earlier)
    (hfree : ∀ b ∈ earlier, ∀ leaf ∈ b.leafPaths, leaf.NulFree)
    (hne : a.keyPath ≠ []) (hpath : a.keyPath.NulFree)
    (hnot : ¬ ∃ b ∈ earlier, b.Covers a.precedence a.keyPath) :
    effectiveAttributes (atLevel a.precedence earlier) ⊆
      effectiveAttributes (atLevel a.precedence (earlier ++ [a])) := by
  have hconcat : atLevel a.precedence (earlier ++ [a]) = atLevel a.precedence earlier ++ [a] := by
    unfold atLevel
    rw [List.filter_append]
    simp
  rw [hconcat]
  apply effectiveAttributes_subset_concat
  intro b hb leaf hleaf leaf' hleaf'
  obtain ⟨hb, hlevel⟩ := List.mem_filter.1 hb
  refine keyPathId_ne_of_unrelated hpath hne (hfree b hb leaf hleaf) (h.ne_nil_of_mem_leafPaths hb hleaf)
    (Assignment.prefix_of_mem_leafPaths hleaf') ?_
  intro hbelow
  exact hnot ⟨b, hb, by simpa using hlevel, leaf, hleaf, .inr hbelow⟩

namespace AttributeReader

variable {r : AttributeReader} {earlier : List Assignment} {step : AttributeStep}
  {target : AssignmentTarget}

theorem keyPath_of_step_target? (h : step.target? r = some target) : target.keyPath ≠ [] := by
  cases step with
  | command conditional c => exact keyPath_of_target? h
  | report extent finding => exact absurd h (by simp [AttributeStep.target?])

/-- A conditional write is made when nothing is there, and is passed over otherwise. -/
theorem run_conditional (source : Text) (p : Program)
    (h : r.assigned.Records (earlier ++ r.assignments))
    (hfree : ∀ a ∈ earlier ++ r.assignments, ∀ leaf ∈ a.leafPaths, leaf.NulFree)
    (htarget : step.target? r = some target) (hifUnset : target.ifUnset = true)
    (hpath : target.keyPath.NulFree) :
    let r' := step.run source p r
    let there := ∃ a ∈ earlier ++ r.assignments, a.Covers target.precedence target.keyPath
    (there ∧ r'.assignments = r.assignments) ∨
      (¬ there ∧ ∃ a : Assignment, a.precedence = target.precedence ∧ a.keyPath = target.keyPath ∧
        r'.assignments = r.assignments ++ [a]) := by
  intro r' there
  have hcovers := h.covers_iff hfree target.precedence hpath (keyPath_of_step_target? htarget)
  cases step with
  | report extent finding => exact absurd htarget (by simp [AttributeStep.target?])
  | command conditional c =>
    replace htarget : r.target? c = some target := htarget
    cases r.effect_command source p conditional c with
    | other hnone _ _ => exact absurd (htarget.symm.trans hnone) (by simp)
    | skipped hsome hskipped _ hassignments =>
      obtain rfl := Option.some.inj (htarget.symm.trans hsome)
      rw [hifUnset, Bool.true_and] at hskipped
      exact .inl ⟨hcovers.1 hskipped, hassignments⟩
    | written a hsome hwritten hprecedence hkeyPath _ hassignments =>
      obtain rfl := Option.some.inj (htarget.symm.trans hsome)
      rw [hifUnset, Bool.true_and] at hwritten
      refine .inr ⟨fun hthere => ?_, a, hprecedence, hkeyPath, hassignments⟩
      rw [hcovers.2 hthere] at hwritten
      exact absurd hwritten (by simp)

end AttributeReader

/-- After any attribute files, the texts of assigned paths are those of the leaves of all their
assignments. A conditional write in the next file gives an assignment exactly when none before it, in
this file or an earlier one, has a leaf at its path, above it or below it at its level; otherwise it is
passed over. So the values in effect at its level stay as they are. -/
theorem conditional_write_iff_nothing_there (files : List (SourceFile × Int)) :
    let s := AttributeSequence.ofNumbered files
    s.assigned.ids = (s.assignments.flatMap Assignment.ids).eraseDups ∧
    ∀ (file : SourceFile) (number : Int) (before after : List AttributeStep) (write : AttributeStep)
      (target : AssignmentTarget), file.attributeSteps = before ++ write :: after →
      let r := file.readerAfter number s.assigned before
      let r' := file.readerAfter number s.assigned (before ++ [write])
      let earlier := s.assignments ++ r.assignments
      write.target? r = some target → target.ifUnset = true → target.keyPath.NulFree →
      (∀ a ∈ earlier, ∀ leaf ∈ a.leafPaths, leaf.NulFree) →
      ((∃ a : Assignment, a.precedence = target.precedence ∧ a.keyPath = target.keyPath ∧
          r'.assignments = r.assignments ++ [a]) ↔
        ¬ ∃ a ∈ earlier, a.Covers target.precedence target.keyPath) ∧
      (r'.assignments = r.assignments ↔ ∃ a ∈ earlier, a.Covers target.precedence target.keyPath) ∧
      s.assignments ++ r'.assignments <+: (s.addFrom file number).assignments ∧
      effectiveAttributes (atLevel target.precedence earlier) ⊆
        effectiveAttributes (atLevel target.precedence (s.assignments ++ r'.assignments)) := by
  intro s
  have hrecords := AttributeSequence.records_ofNumbered files
  refine ⟨hrecords.ids, ?_⟩
  intro file number before after write target hsteps r r' earlier htarget hifUnset hpath hfree
  have hreader := AttributeSequence.records_readerAfter hrecords file number before
  have hnext : r' = write.run file.source (Program.ofText file.text) r :=
    file.readerAfter_append number s.assigned before _
  have hsplit : file.attributeSteps = before ++ [write] ++ after := by
    rw [hsteps, List.append_assoc, List.singleton_append]
  have hpre := s.prefix_addFrom number hsplit
  have hcases := AttributeReader.run_conditional file.source (Program.ofText file.text) hreader hfree
    htarget hifUnset hpath
  rw [← hnext] at hcases
  -- either something covers the path and nothing is written, or one assignment is
  rcases hcases with ⟨hthere, hsame⟩ | ⟨hnot, a, hprecedence, hkeyPath, hone⟩
  · refine ⟨⟨?_, fun hnot => absurd hthere hnot⟩, ⟨fun _ => hthere, fun _ => hsame⟩, hpre, ?_⟩
    · rintro ⟨a, -, -, hone⟩
      exact absurd (List.self_eq_append_right.1 (hsame.symm.trans hone)) (List.cons_ne_nil _ _)
    · rw [hsame]
      exact List.Subset.refl _
  · refine ⟨⟨fun _ => hnot, fun _ => ⟨a, hprecedence, hkeyPath, hone⟩⟩,
      ⟨?_, fun hthere => absurd hthere hnot⟩, hpre, ?_⟩
    · intro hsame
      exact absurd (List.self_eq_append_right.1 (hsame.symm.trans hone)) (List.cons_ne_nil _ _)
    -- the new assignment covers nothing earlier, so no value in effect goes
    · rw [hone, ← List.append_assoc, ← hprecedence]
      rw [← hprecedence, ← hkeyPath] at hnot
      rw [← hkeyPath] at hpath
      refine hreader.effectiveAttributes_subset hfree ?_ hpath hnot
      rw [hkeyPath]
      exact AttributeReader.keyPath_of_step_target? htarget

/-- A write below a leaf of an earlier file's hash is passed over. -/
theorem conditional_write_below_hash :
    let s := AttributeSequence.ofNumbered [(⟨"a.rb", "default['a'] = \x7b'b' => 1\x7d\n"⟩, 0)]
    let file : SourceFile := ⟨"b.rb", "default['a']['b']['c'] ||= 2\n"⟩
    let target : AssignmentTarget := ⟨.default, true, ["a", "b", "c"]⟩
    ∃ write, file.attributeSteps = [write] ∧
      write.target? (file.readerAfter 1 s.assigned []) = some target ∧
      (∃ a ∈ s.assignments, a.Covers target.precedence target.keyPath) ∧
      (file.readerAfter 1 s.assigned [write]).assignments = [] := by
  -- stated for any files, so that these are evaluated once only, by the kernel
  have hpassed : ∀ (files : List (SourceFile × Int)) (file : SourceFile) (target : AssignmentTarget),
      let s := AttributeSequence.ofNumbered files
      (target.ifUnset = true ∧ target.keyPath.NulFree) ∧
        (∀ a ∈ s.assignments, ∀ leaf ∈ a.leafPaths, leaf.NulFree) ∧
        file.attributeSteps.map (AttributeStep.target? (file.readerAfter 1 s.assigned [])) =
          [some target] ∧
        (file.readerAfter 1 s.assigned file.attributeSteps).assignments.length = 0 →
      ∃ write, file.attributeSteps = [write] ∧
        write.target? (file.readerAfter 1 s.assigned []) = some target ∧
        (∃ a ∈ s.assignments, a.Covers target.precedence target.keyPath) ∧
        (file.readerAfter 1 s.assigned [write]).assignments = [] := by
    rintro files file target s ⟨⟨hifUnset, hpath⟩, hfree, htargets, hnone⟩
    obtain ⟨write, hsteps, htarget⟩ := List.map_eq_singleton_iff.1 htargets
    rw [hsteps, List.length_eq_zero_iff] at hnone
    obtain ⟨-, hiff, -⟩ := (conditional_write_iff_nothing_there files).2 file 1 [] [] write target hsteps
      htarget hifUnset hpath (by rwa [show (file.readerAfter 1 s.assigned []).assignments = [] from rfl,
        List.append_nil])
    refine ⟨write, hsteps, htarget, ?_, hnone⟩
    have hthere := hiff.1 hnone
    rwa [show (file.readerAfter 1 s.assigned []).assignments = [] from rfl, List.append_nil] at hthere
  exact hpassed _ _ _ (by decide +kernel)

end Cookbook
