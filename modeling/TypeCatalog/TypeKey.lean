import TypeCatalog.Text.Dotted

/-!
Type keys. A type is known by its namespace path, its simple name and the number of its type
parameters; two declarations with one key declare one type. A reference to a type by name is such
a key too. Keys are ordered by namespace, then name, then arity, texts by code points.
-/

namespace TypeCatalog

structure TypeKey where
  /-- Dotted namespace path, empty for the global namespace. -/
  ns : String
  name : String
  /-- Number of type parameters. It has no bound here; a 32-bit number agrees with it below 2^32. -/
  arity : Nat
  deriving DecidableEq, Repr

namespace TypeKey

instance : Ord TypeKey where
  compare := compareLex (compareOn ns) (compareLex (compareOn name) (compareOn arity))

theorem compare_def (j k : TypeKey) :
    compare j k = ((compare j.ns k.ns).then
      ((compare j.name k.name).then (compare j.arity k.arity))) := rfl

instance : Std.TransOrd TypeKey :=
  inferInstanceAs (Std.TransCmp
    (compareLex (compareOn ns) (compareLex (compareOn name) (compareOn arity))))

instance : Std.LawfulEqOrd TypeKey where
  eq_of_compare {j k} h := by
    simp only [compare_def, Ordering.then_eq_eq, Std.LawfulEqOrd.compare_eq_iff_eq] at h
    cases j
    cases k
    simp_all

/-- The name with its namespace before it, without the arity. -/
def fullName (k : TypeKey) : String :=
  if k.ns = "" then k.name else k.ns ++ "." ++ k.name

/-- The full name, followed by the arity unless that is zero. -/
def reflectionName (k : TypeKey) : String :=
  if k.arity = 0 then k.fullName else k.fullName ++ "`" ++ toString k.arity

instance : ToString TypeKey := ⟨reflectionName⟩

/-- The key of a full name: what stands before the last dot is the namespace. -/
def ofFullName (text : String) (arity : Nat) : TypeKey :=
  ⟨(Dotted.splitLast text).1, (Dotted.splitLast text).2, arity⟩

@[simp] theorem ofFullName_arity (text : String) (arity : Nat) :
    (ofFullName text arity).arity = arity := rfl

theorem fullName_global (name : String) (arity : Nat) : fullName ⟨"", name, arity⟩ = name := rfl

theorem reflectionName_of_arity_zero {k : TypeKey} (h : k.arity = 0) :
    k.reflectionName = k.fullName := if_pos h

end TypeKey

/-- Why a key cannot name a type. -/
inductive NameFault where
  | emptyName
  | qualifiedName (name : String)
  | emptySegment (ns : String)
  deriving DecidableEq, Repr

def NameFault.message : NameFault → String
  | .emptyName => "type name must not be empty"
  | .qualifiedName name =>
    "type name `" ++ name ++ "` must be a simple name; pass its namespace separately"
  | .emptySegment ns => "namespace path `" ++ ns ++ "` contains an empty segment"

/-- The first fault of a key: an empty name, a name with a dot, an ill-formed namespace. -/
def TypeKey.fault? (k : TypeKey) : Option NameFault :=
  if k.name = "" then some .emptyName
  else if '.' ∈ k.name.toList then some (.qualifiedName k.name)
  else if Dotted.isWellFormedNamespace k.ns then none
  else some (.emptySegment k.ns)

theorem TypeKey.fault?_eq_none_iff (k : TypeKey) :
    k.fault? = none ↔
      k.name ≠ "" ∧ '.' ∉ k.name.toList ∧ Dotted.isWellFormedNamespace k.ns = true := by
  unfold TypeKey.fault?
  split
  · simp_all
  · split
    · simp_all
    · split <;> simp_all

end TypeCatalog
