import TypeCatalog.Budget
import TypeCatalog.Store

/-!
Inheritance. The closure of a type is every type that its base links lead to, breadth first and
each once, without the type itself. A number that no type of the store has is passed over. The walk
ends because each type adds its links once, when its number is first met.
-/

namespace TypeCatalog.Store

/-- The base types of a type, in the order of its links. -/
def directBases (s : Store) (t : ResolvedType) : List ResolvedType :=
  t.bases.filterMap s.get?

/-- The links of the type with this number, if there is one. -/
def basesAt (s : Store) (id : TypeId) : List TypeId :=
  ((s.get? id).map ResolvedType.bases).getD []

/-- The links that a walk which has met these numbers can still come upon. -/
def linksAhead (s : Store) (met : Std.TreeSet TypeId) : Nat :=
  budget (fun id => (s.basesAt id).length) met.contains (List.range s.arena.size)

theorem linksAhead_insert_le (s : Store) (met : Std.TreeSet TypeId) (id : TypeId) :
    s.linksAhead (met.insert id) ≤ s.linksAhead met :=
  budget_le _ (fun _ h => by simp [Std.TreeSet.contains_insert, h]) _

theorem linksAhead_insert_add_le {s : Store} {met : Std.TreeSet TypeId} {id : TypeId}
    {t : ResolvedType} (h : met.contains id = false) (ht : s.get? id = some t) :
    s.linksAhead (met.insert id) + t.bases.length ≤ s.linksAhead met := by
  have hb : (s.basesAt id).length = t.bases.length := by simp [basesAt, ht]
  rw [← hb]
  refine budget_add_le (fun id => (s.basesAt id).length)
    (fun _ h => by simp [Std.TreeSet.contains_insert, h]) h (by simp) ?_
  obtain ⟨hlt, _⟩ := Array.getElem?_eq_some_iff.1 ht
  exact List.mem_range.2 hlt

/-- Follows the numbers of a queue; those of a type that is met for the first time join its end. -/
def walk (s : Store) (met : Std.TreeSet TypeId) (found : Array ResolvedType) :
    List TypeId → Array ResolvedType
  | [] => found
  | id :: queue =>
    if met.contains id then walk s met found queue
    else
      match _h : s.get? id with
      | none => walk s (met.insert id) found queue
      | some t => walk s (met.insert id) (found.push t) (queue ++ t.bases)
termination_by queue => s.linksAhead met + queue.length
decreasing_by
  · simp only [List.length_cons]
    omega
  · have := s.linksAhead_insert_le met id
    simp only [List.length_cons]
    omega
  · rename_i hm
    have := linksAhead_insert_add_le (Bool.eq_false_iff.2 hm) ‹s.get? id = some t›
    simp only [List.length_cons, List.length_append]
    omega

theorem walk_of_met {s : Store} {met : Std.TreeSet TypeId} {id : TypeId} (h : met.contains id)
    (found : Array ResolvedType) (queue : List TypeId) :
    s.walk met found (id :: queue) = s.walk met found queue := by
  rw [walk, if_pos h]

theorem walk_of_get? {s : Store} {met : Std.TreeSet TypeId} {id : TypeId} {t : ResolvedType}
    (h : ¬ met.contains id) (ht : s.get? id = some t) (found : Array ResolvedType)
    (queue : List TypeId) :
    s.walk met found (id :: queue) =
      s.walk (met.insert id) (found.push t) (queue ++ t.bases) := by
  rw [walk, if_neg h]
  split <;> simp_all

theorem walk_of_get?_eq_none {s : Store} {met : Std.TreeSet TypeId} {id : TypeId}
    (h : ¬ met.contains id) (ht : s.get? id = none) (found : Array ResolvedType)
    (queue : List TypeId) :
    s.walk met found (id :: queue) = s.walk (met.insert id) found queue := by
  rw [walk, if_neg h]
  split <;> simp_all

/-- All types that a type inherits from, breadth first in the order of the links. -/
def closure (s : Store) (t : ResolvedType) : List ResolvedType :=
  (s.walk (Std.TreeSet.insert ∅ t.id) #[] t.bases).toList

/-- Whether a type is in the closure of another one. -/
def derives (s : Store) (t base : ResolvedType) : Bool :=
  (s.closure t).any (·.id = base.id)

end TypeCatalog.Store
