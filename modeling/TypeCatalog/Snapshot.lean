import TypeCatalog.Assembly
import TypeCatalog.Roster

/-!
Snapshots. A project is its source files and assembly references in their order, two names and the
options. A snapshot is one numbered state of a project; an update makes the next one and always
advances the number, also where it changes nothing.
-/

namespace TypeCatalog

instance : Identified SourceFile String := ⟨SourceFile.identity⟩
instance : Identified Assembly AssemblyName := ⟨Assembly.name⟩

structure Options where
  /-- A type that names no base inherits from the root of its kind. -/
  implicitRoots : Bool := false
  /-- Only declarations that are all marked as partial are merged. -/
  strictPartial : Bool := false
  deriving DecidableEq, Repr

structure Project where
  files : Roster SourceFile := ∅
  references : Roster Assembly := ∅
  assemblyName : String := ""
  /-- Path of the project file, if the project was loaded from one. -/
  path : Option String := none
  options : Options := {}

inductive Update where
  | addFile (file : SourceFile)
  | addFiles (files : List SourceFile)
  | removeFile (file : String)
  /-- A file under a new identity gives up its place; under its old one it keeps it. -/
  | changeFile (old : Option String) (new : Option SourceFile)
  | addReferences (assemblies : List Assembly)
  | removeReferences (names : List AssemblyName)
  | setAssemblyName (name : String)
  | setPath (path : String)
  | setOptions (options : Options)

def Project.edit (p : Project) : Update → Project
  | .addFile file => { p with files := p.files.insert file }
  | .addFiles files => { p with files := p.files.insertAll files }
  | .removeFile file => { p with files := p.files.erase file }
  | .changeFile old new => { p with files := p.files.change old new }
  | .addReferences assemblies => { p with references := p.references.insertAll assemblies }
  | .removeReferences names => { p with references := p.references.eraseAll names }
  | .setAssemblyName name => { p with assemblyName := name }
  | .setPath path => { p with path := some path }
  | .setOptions options => { p with options := options }

structure Snapshot where
  project : Project := {}
  /-- The number of the state. It has no bound here; a 64-bit number agrees with it below 2^64. -/
  version : Nat := 0

namespace Snapshot

def initial : Snapshot := {}

def update (s : Snapshot) (u : Update) : Snapshot :=
  ⟨s.project.edit u, s.version + 1⟩

def updateAll (s : Snapshot) (us : List Update) : Snapshot :=
  us.foldl update s

/-- The same project under a number above `floor`; a number that is above it already stays. -/
def after (s : Snapshot) (floor : Nat) : Snapshot :=
  { s with version := max s.version (floor + 1) }

/-- All declarations in file order. -/
def declarations (s : Snapshot) : List Declaration :=
  s.project.files.toList.flatMap SourceFile.declarations

@[simp] theorem version_update (s : Snapshot) (u : Update) :
    (s.update u).version = s.version + 1 := rfl

@[simp] theorem project_update (s : Snapshot) (u : Update) :
    (s.update u).project = s.project.edit u := rfl

@[simp] theorem updateAll_nil (s : Snapshot) : s.updateAll [] = s := rfl

@[simp] theorem updateAll_cons (s : Snapshot) (u : Update) (us : List Update) :
    s.updateAll (u :: us) = (s.update u).updateAll us := rfl

theorem version_updateAll (s : Snapshot) (us : List Update) :
    (s.updateAll us).version = s.version + us.length := by
  induction us generalizing s with
  | nil => rfl
  | cons u us ih =>
    rw [updateAll_cons, ih, version_update, List.length_cons]
    omega

@[simp] theorem project_after (s : Snapshot) (floor : Nat) :
    (s.after floor).project = s.project := rfl

theorem floor_lt_version_after (s : Snapshot) (floor : Nat) : floor < (s.after floor).version := by
  simp only [after]
  omega

end Snapshot
end TypeCatalog
