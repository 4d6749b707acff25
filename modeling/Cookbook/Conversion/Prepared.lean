import Cookbook.Attribute.File
import Cookbook.Attribute.Table
import Cookbook.Conversion.Log
import Cookbook.Schema.Definition

/-!
What the recipes of a cookbook share: the attributes in effect and the custom resources.
-/

namespace Cookbook

/-- A file of a cookbook. -/
structure SourceFile where
  source : Text
  text : Text

/-- A file that defines a custom resource, perhaps with the names it provides besides its own. -/
structure ResourceFile where
  file : SourceFile
  typeNames : Option (List Text)

/-- The files of a cookbook that its recipes share. -/
structure CookbookFiles where
  name : Option Text
  attributes : List SourceFile
  resources : List ResourceFile

/-! ### Attributes -/

/-- What the attribute files so far give. -/
structure AttributeSequence where
  assignments : List Assignment
  diagnostics : List Diagnostic
  assigned : AssignedPaths

namespace AttributeSequence

def empty : AttributeSequence := ⟨[], [], .empty⟩

/-- One more file: its assignments are numbered on, and its conditional writes see the paths
assigned so far. -/
def add (s : AttributeSequence) (file : SourceFile) : AttributeSequence :=
  let read := AttributeFile.ofText file.source file.text s.assignments.length s.assigned
  ⟨s.assignments ++ read.assignments, s.diagnostics ++ read.diagnostics, read.assigned⟩

/-- The attribute files, one after another. -/
def ofFiles (files : List SourceFile) : AttributeSequence := files.foldl add empty

end AttributeSequence

/-! ### Custom resources -/

/-- The type name that the place of a file gives: the cookbook and the name of the file without its
ending. -/
def fileTypeName? (cookbookName source : Text) : Option Text :=
  let file := (Text.split (fun c => c == '/' || c == '\\') source).getLast?.getD []
  let base := (Text.dropTail? file ".rb").getD file
  if base.isEmpty then none else some (cookbookName ++ "_" ++ base)

/-- The names that a file provides besides those it declares: as given, or by its place. -/
def ResourceFile.providedNames (file : ResourceFile) (cookbookName : Option Text) : List Text :=
  file.typeNames.getD (cookbookName.bind (fileTypeName? · file.file.source)).toList

def ResourceFile.definition (file : ResourceFile) (cookbookName : Option Text) :
    ResourceDefinition :=
  .ofText file.file.text file.file.source (file.providedNames cookbookName)

/-- The custom resources by type name, and how many files provide one of them. -/
structure CustomResources where
  definitions : Bindings ResourceDefinition
  files : Nat
  diagnostics : List Diagnostic

namespace CustomResources

def empty : CustomResources := ⟨.empty, 0, []⟩

/-- One more definition: it gets those of its names that no earlier one has. -/
def add (r : CustomResources) (d : ResourceDefinition) : CustomResources :=
  let fresh := d.typeNames.filter fun name => !r.definitions.contains name
  { definitions := fresh.foldl (fun b name => b.set name d) r.definitions
    files := if fresh.isEmpty then r.files else r.files + 1
    diagnostics := r.diagnostics ++ d.diagnostics }

def ofDefinitions (ds : List ResourceDefinition) : CustomResources := ds.foldl add empty

end CustomResources

/-! ### Both -/

/-- What the recipes of a cookbook share. -/
structure PreparedCookbook where
  attributes : AttributeTable
  resources : CustomResources
  diagnostics : List Diagnostic

namespace PreparedCookbook

/-- The shared files read, attribute files first. -/
def ofFiles (files : CookbookFiles) : PreparedCookbook :=
  let attributes := AttributeSequence.ofFiles files.attributes
  let resources := CustomResources.ofDefinitions (files.resources.map (·.definition files.name))
  { attributes := ⟨effectiveAttributes attributes.assignments⟩
    resources
    diagnostics := attributes.diagnostics ++ resources.diagnostics }

def log (p : PreparedCookbook) : List LogLine :=
  LogLine.counts "cookbook prepared"
    [("attributes", p.attributes.effective.length),
     ("customResources", p.resources.definitions.entries.length)] ::
  LogLine.ofErrors p.diagnostics

end PreparedCookbook

end Cookbook
