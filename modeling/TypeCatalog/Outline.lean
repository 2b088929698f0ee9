import TypeCatalog.Assembly
import TypeCatalog.DeclIndex
import TypeCatalog.Diagnostic
import TypeCatalog.Snapshot

/-!
Outlines. The outline of a type is all that its declarations say together, with the base types
still named by their keys. A type in source is merged from its parts; an exported type is taken
from one export. A base type that several parts name is one link, which belongs to the first of
them.
-/

namespace TypeCatalog

/-- Where a type is declared. -/
inductive Site where
  /-- In source: the merged declarations and their files, each file once. -/
  | source (parts : List DeclId) (files : List String)
  | assembly (name : AssemblyName)
  deriving DecidableEq, Repr

/-- A member with the file of the part that declares it. -/
structure SitedMember where
  member : Member
  file : Option String
  deriving DecidableEq, Repr

structure Definition where
  kind : TypeKind
  site : Site
  members : List SitedMember
  deriving DecidableEq, Repr

/-- A base type by name, with the file of the part that names it. -/
structure BaseLink where
  key : TypeKey
  file : Option String
  /-- No declaration names an implicit root. -/
  explicit : Bool
  deriving DecidableEq, Repr

structure Outline where
  definition : Definition
  links : List BaseLink
  reports : List Report

namespace Outline

/-- The links of all bases that the declarations name, each base type once. -/
def explicitLinks (bases : List (Option String × TypeKey)) : List BaseLink :=
  firstBy BaseLink.key (bases.map fun (file, base) => ⟨base, file, true⟩)

/-- A type without links gets the root of its kind, unless the option is off or it is that root. -/
def withRoot (options : Options) (key : TypeKey) (kind : TypeKind) (file : Option String) :
    List BaseLink → List BaseLink
  | [] =>
    if options.implicitRoots then
      (kind.root?.filter (· ≠ key)).toList.map fun root => ⟨root, file, false⟩
    else []
  | links => links

/-- Two declarations are meant to be merged if both are marked as partial. -/
def agree (first part : Part) : Bool :=
  first.declaration.isPartial && part.declaration.isPartial

/-- The merged parts: all of them, or in strict mode the first and those that agree with it. -/
def keptParts (options : Options) (first : Part) (rest : List Part) : List Part :=
  first :: if options.strictPartial then rest.filter (agree first) else rest

def duplicates (key : TypeKey) (first : Part) (rest : List Part) : List Report :=
  (rest.filter (!agree first ·)).map fun part =>
    ⟨some part.file, key, .duplicateDeclaration (some first.file)⟩

def kindConflicts (key : TypeKey) (first : Part) (kept : List Part) : List Report :=
  (kept.filter (·.declaration.kind ≠ first.declaration.kind)).map fun part =>
    ⟨some part.file, key, .conflictingKinds first.declaration.kind part.declaration.kind⟩

def ofParts (options : Options) (key : TypeKey) (first : Part) (rest : List Part) : Outline :=
  let kept := keptParts options first rest
  { definition := {
      kind := first.declaration.kind
      site := .source (kept.map Part.id) (distinct (kept.map Part.file))
      members := kept.flatMap fun part => part.declaration.members.map (⟨·, some part.file⟩) }
    links := withRoot options key first.declaration.kind (some first.file)
      (explicitLinks (kept.flatMap fun part => part.declaration.bases.map (some part.file, ·)))
    reports := duplicates key first rest ++ kindConflicts key first kept }

def ofExport (options : Options) (key : TypeKey) (assembly : AssemblyName) (d : Declaration) :
    Outline where
  definition := {
    kind := d.kind
    site := .assembly assembly
    members := d.members.map (⟨·, none⟩) }
  links := withRoot options key d.kind none (explicitLinks (d.bases.map (none, ·)))
  reports := []

end Outline
end TypeCatalog
