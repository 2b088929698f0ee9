import TypeCatalog.Compilation

/-!
Workspaces. A workspace holds all compilations that were made, and a number stands for each, so two
compilations of one snapshot are told apart. A host publishes the newest snapshot of a project; it
makes a compilation of it on the first request and shares it until the next snapshot is published.
-/

namespace TypeCatalog

/-- The number of a compilation in its workspace. -/
abbrev CompilationId := Nat

structure Workspace where
  compilations : Array Compilation := #[]

namespace Workspace

def get? (w : Workspace) (id : CompilationId) : Option Compilation :=
  w.compilations[id]?

/-- Adds a fresh compilation of a snapshot. -/
def create (w : Workspace) (s : Snapshot) : CompilationId × Workspace :=
  (w.compilations.size, ⟨w.compilations.push (.create s)⟩)

/-- Puts a compilation back after a query. -/
def set (w : Workspace) (id : CompilationId) (c : Compilation) : Workspace :=
  ⟨w.compilations.setIfInBounds id c⟩

end Workspace

/-- A type with the compilation that handed it out. -/
structure Issued where
  owner : CompilationId
  type : ResolvedType

/-- Whether two types are one object: one compilation and one number in it. -/
def Issued.same (t u : Issued) : Bool :=
  t.owner = u.owner && t.type.id = u.type.id

structure Host where
  snapshot : Snapshot := {}
  /-- The compilation of the snapshot, if one was asked for. -/
  shared : Option CompilationId := none

namespace Host

/-- Publishes a changed project under a number above the current one. -/
def apply (h : Host) (change : Snapshot → Snapshot) : Host :=
  ⟨(change h.snapshot).after h.snapshot.version, none⟩

def update (h : Host) (u : Update) : Host :=
  h.apply (·.update u)

def version (h : Host) : Nat :=
  h.snapshot.version

/-- The shared compilation, made now if there is none. -/
def compilation (h : Host) (w : Workspace) : CompilationId × Host × Workspace :=
  match h.shared with
  | some id => (id, h, w)
  | none =>
    let (id, w) := w.create h.snapshot
    (id, { h with shared := some id }, w)

theorem version_update (h : Host) (u : Update) : (h.update u).version = h.version + 1 := by
  simp only [update, apply, version, Snapshot.after, Snapshot.version_update]
  omega

end Host
end TypeCatalog
