import Std.Data.TreeSet

/-!
Ascending lists. The elements of a list in the order of their type: all of them, or each once.
-/

namespace TypeCatalog

variable {κ : Type} [Ord κ]

/-- All elements in ascending order; equal ones stay side by side. -/
def sorted (elements : List κ) : List κ :=
  elements.mergeSort fun a b => (compare a b).isLE

/-- The different elements in ascending order. -/
def ascending (elements : List κ) : List κ :=
  (Std.TreeSet.ofList elements).toList

end TypeCatalog
