import TypeCatalog.Declaration

/-!
Assemblies. A compiled library is identified by its name and version, and exports declarations.
Where it exports one key twice, the first export counts.
-/

namespace TypeCatalog

structure Version where
  major : UInt16
  minor : UInt16
  build : UInt16
  revision : UInt16
  deriving DecidableEq, Repr

namespace Version

instance : Ord Version where
  compare := compareLex (compareOn major)
    (compareLex (compareOn minor) (compareLex (compareOn build) (compareOn revision)))

theorem compare_def (v w : Version) :
    compare v w = (compare v.major w.major).then ((compare v.minor w.minor).then
      ((compare v.build w.build).then (compare v.revision w.revision))) := rfl

instance : Std.TransOrd Version :=
  inferInstanceAs (Std.TransCmp (compareLex (compareOn major)
    (compareLex (compareOn minor) (compareLex (compareOn build) (compareOn revision)))))

instance : Std.LawfulEqOrd Version where
  eq_of_compare {v w} h := by
    simp only [compare_def, Ordering.then_eq_eq, Std.LawfulEqOrd.compare_eq_iff_eq] at h
    cases v
    cases w
    simp_all

def display (v : Version) : String :=
  toString v.major ++ "." ++ toString v.minor ++ "." ++ toString v.build ++ "." ++
    toString v.revision

end Version

structure AssemblyName where
  name : String
  version : Version
  deriving DecidableEq, Repr

namespace AssemblyName

instance : Ord AssemblyName where
  compare := compareLex (compareOn name) (compareOn version)

theorem compare_def (a b : AssemblyName) :
    compare a b = (compare a.name b.name).then (compare a.version b.version) := rfl

instance : Std.TransOrd AssemblyName :=
  inferInstanceAs (Std.TransCmp (compareLex (compareOn name) (compareOn version)))

instance : Std.LawfulEqOrd AssemblyName where
  eq_of_compare {a b} h := by
    simp only [compare_def, Ordering.then_eq_eq, Std.LawfulEqOrd.compare_eq_iff_eq] at h
    cases a
    cases b
    simp_all

def display (a : AssemblyName) : String :=
  a.name ++ ", Version=" ++ a.version.display

end AssemblyName

structure Assembly where
  name : AssemblyName
  exports : List Declaration
  deriving DecidableEq, Repr

/-- The first export with this key. -/
def Assembly.find? (a : Assembly) (k : TypeKey) : Option Declaration :=
  a.exports.find? (·.key = k)

theorem Assembly.key_of_find? {a : Assembly} {k : TypeKey} {d : Declaration}
    (h : a.find? k = some d) : d ∈ a.exports ∧ d.key = k :=
  ⟨List.mem_of_find?_eq_some h, by simpa using List.find?_some h⟩

end TypeCatalog
