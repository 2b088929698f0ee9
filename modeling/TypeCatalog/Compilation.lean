import TypeCatalog.Inheritance
import TypeCatalog.Resolution

/-!
Compilations. A compilation answers queries about one snapshot and keeps what it has resolved. A
query either leaves the store alone or resolves keys in it; a key that cannot name a type is
refused before anything is looked up.
-/

namespace TypeCatalog

/-- Looks up one more key and adds its type to those found so far. -/
def Resolver.extend (c : Catalog) :
    Array ResolvedType × Resolver → TypeKey → Array ResolvedType × Resolver
  | (found, r), k =>
    let (t, r) := r.resolve c k
    (found.push t, r)

/-- The types of a list of keys, looked up by one resolver one after the other. -/
def Store.resolveAll (c : Catalog) (s : Store) (ks : List TypeKey) :
    Array ResolvedType × Store :=
  let (found, r) := ks.foldl (Resolver.extend c) (#[], ⟨s, ∅⟩)
  (found, r.store)

structure Compilation where
  snapshot : Snapshot
  catalog : Catalog
  store : Store
  catalog_eq : catalog = .ofProject snapshot.project

namespace Compilation

def create (snapshot : Snapshot) : Compilation :=
  ⟨snapshot, .ofProject snapshot.project, {}, rfl⟩

/-- The type of a key that stands in a declaration; an ill-formed one is looked up as it is. -/
def lookup (c : Compilation) (k : TypeKey) : ResolvedType × Compilation :=
  let (t, store) := c.store.resolve c.catalog k
  (t, { c with store })

/-- The type of a key, unless the key has a fault. -/
def resolve (c : Compilation) (k : TypeKey) : Except NameFault (ResolvedType × Compilation) :=
  match k.fault? with
  | some fault => .error fault
  | none => .ok (c.lookup k)

/-- The declared type of a member, if it has one. -/
def memberType (c : Compilation) (m : ResolvedMember) : Option ResolvedType × Compilation :=
  match m.sited.member.returnType with
  | some k =>
    let (t, c) := c.lookup k
    (some t, c)
  | none => (none, c)

/-- The declared types of members, looked up in their order. -/
def memberTypes (c : Compilation) : List ResolvedMember → List (Option ResolvedType) × Compilation
  | [] => ([], c)
  | m :: rest =>
    let (t, c) := c.memberType m
    let (ts, c) := memberTypes c rest
    (t :: ts, c)

/-- Every visible type: source types by first declaration, then exports by reference. -/
def allTypes (c : Compilation) : List ResolvedType × Compilation :=
  let (found, store) := c.store.resolveAll c.catalog c.catalog.visibleKeys
  (found.toList, { c with store })

/-- What was reported so far. -/
def diagnostics (c : Compilation) : DiagnosticLog :=
  ⟨c.store.reports.map Report.diagnostic⟩

/-- What is reported once every visible type is resolved. -/
def checkAll (c : Compilation) : DiagnosticLog × Compilation :=
  let c := c.allTypes.2
  (c.diagnostics, c)

def get? (c : Compilation) (id : TypeId) : Option ResolvedType :=
  c.store.get? id

def version (c : Compilation) : Nat :=
  c.snapshot.version

/-- The referenced assemblies, in the order in which they are searched. -/
def references (c : Compilation) : List AssemblyName :=
  c.catalog.references.map Assembly.name

/-- How many types the store holds, placeholders included. -/
def size (c : Compilation) : Nat :=
  c.store.arena.size

@[simp] theorem snapshot_create (s : Snapshot) : (create s).snapshot = s := rfl
@[simp] theorem snapshot_lookup (c : Compilation) (k : TypeKey) :
    (c.lookup k).2.snapshot = c.snapshot := rfl
@[simp] theorem snapshot_allTypes (c : Compilation) : c.allTypes.2.snapshot = c.snapshot := rfl

theorem resolve_of_fault {c : Compilation} {k : TypeKey} {fault : NameFault}
    (h : k.fault? = some fault) : c.resolve k = .error fault := by
  simp [resolve, h]

theorem resolve_of_sound {c : Compilation} {k : TypeKey} (h : k.fault? = none) :
    c.resolve k = .ok (c.lookup k) := by
  simp [resolve, h]

theorem resolve_eq_error_iff {c : Compilation} {k : TypeKey} {fault : NameFault} :
    c.resolve k = .error fault ↔ k.fault? = some fault := by
  cases hk : k.fault? with
  | none => simp [resolve_of_sound hk]
  | some fault => simp [resolve_of_fault hk]

end Compilation
end TypeCatalog
