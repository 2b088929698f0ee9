import Std.Data.TreeMap
import TypeCatalog.Declaration
import TypeCatalog.FirstOccurrence

/-!
The declaration index. Every declaration of a list of files has a position, and the index groups
the declarations by the key they declare. Main statement: the group of a key is the list of all
declarations of that key, in file order and then in declaration order.
-/

namespace TypeCatalog

/-- The place of a declaration: which file, and which declaration of it. The numbers have no bound
here; 32-bit ones agree with them up to 2^32 files and 2^32 declarations in a file. -/
structure DeclId where
  file : Nat
  index : Nat
  deriving DecidableEq, Repr

instance : Ord DeclId where
  compare := compareLex (compareOn DeclId.file) (compareOn DeclId.index)

theorem DeclId.compare_def (a b : DeclId) :
    compare a b = (compare a.file b.file).then (compare a.index b.index) := rfl

instance : Std.TransOrd DeclId :=
  inferInstanceAs (Std.TransCmp (compareLex (compareOn DeclId.file) (compareOn DeclId.index)))

instance : Std.LawfulEqOrd DeclId where
  eq_of_compare {a b} h := by
    simp only [DeclId.compare_def, Ordering.then_eq_eq, Std.LawfulEqOrd.compare_eq_iff_eq] at h
    cases a
    cases b
    simp_all

/-- A declaration with its place and the identity of its file. -/
structure Part where
  id : DeclId
  file : String
  declaration : Declaration
  deriving DecidableEq, Repr

namespace Part

def key (p : Part) : TypeKey :=
  p.declaration.key

/-- The parts of the file at place `n`. -/
def ofFile (file : SourceFile) (n : Nat) : List Part :=
  file.declarations.mapIdx fun i d => ⟨⟨n, i⟩, file.identity, d⟩

/-- All parts, in file order and then in declaration order. -/
def ofFiles (files : List SourceFile) : List Part :=
  (files.mapIdx fun n file => ofFile file n).flatten

end Part

/-- Parts with a table of their groups. -/
structure DeclIndex where
  parts : List Part
  groups : Std.TreeMap TypeKey (List Part)
  getD_groups : ∀ k, groups.getD k [] = parts.filter (·.key = k)

namespace DeclIndex

/-- Adds a part in front of the group of its key. -/
def prepend (p : Part) (groups : Std.TreeMap TypeKey (List Part)) :
    Std.TreeMap TypeKey (List Part) :=
  groups.insert p.key (p :: groups.getD p.key [])

theorem getD_foldr_prepend (parts : List Part) (k : TypeKey) :
    (parts.foldr prepend ∅).getD k [] = parts.filter (·.key = k) := by
  induction parts with
  | nil => simp
  | cons p parts ih =>
    rw [List.foldr_cons, prepend, Std.TreeMap.getD_insert, List.filter_cons]
    by_cases h : p.key = k
    · subst h
      simp [ih]
    · have hc : compare p.key k ≠ .eq := fun hc => h (Std.LawfulEqOrd.eq_of_compare hc)
      simp [h, hc, ih]

def ofParts (parts : List Part) : DeclIndex :=
  ⟨parts, parts.foldr prepend ∅, getD_foldr_prepend parts⟩

def ofFiles (files : List SourceFile) : DeclIndex :=
  ofParts (Part.ofFiles files)

/-- The group of a key: all parts that declare it, in order. -/
def declarations (x : DeclIndex) (k : TypeKey) : List Part :=
  x.groups.getD k []

/-- The places of the declarations of a key, in order. -/
def places (x : DeclIndex) (k : TypeKey) : List DeclId :=
  (x.declarations k).map Part.id

/-- The declared keys, each once, in the order of their first declarations. -/
def keys (x : DeclIndex) : List TypeKey :=
  distinct (x.parts.map Part.key)

def size (x : DeclIndex) : Nat :=
  x.keys.length

def isEmpty (x : DeclIndex) : Bool :=
  x.keys.isEmpty

@[simp] theorem parts_ofParts (parts : List Part) : (ofParts parts).parts = parts := rfl

theorem declarations_eq (x : DeclIndex) (k : TypeKey) :
    x.declarations k = x.parts.filter (·.key = k) :=
  x.getD_groups k

theorem mem_keys_iff (x : DeclIndex) (k : TypeKey) : k ∈ x.keys ↔ x.declarations k ≠ [] := by
  simp [keys, declarations_eq]

end DeclIndex
end TypeCatalog
