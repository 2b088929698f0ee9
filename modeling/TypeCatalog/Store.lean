import TypeCatalog.ResolvedType

/-!
The store of a compilation: the arena of all types resolved so far, the table of settled keys, the
reports, and the count of look-ups that found their key settled and of those that did not. Arena,
table and reports only grow.
-/

namespace TypeCatalog

/-- The counts have no bound here; 64-bit numbers agree with them below 2^64 look-ups. -/
structure LookupCount where
  hits : Nat := 0
  misses : Nat := 0
  deriving DecidableEq, Repr

namespace LookupCount

def lookups (n : LookupCount) : Nat :=
  n.hits + n.misses

/-- The share of hits, both numbers rounded before the division; zero if nothing was looked up. -/
def hitRatio (n : LookupCount) : Float :=
  if n.lookups = 0 then 0 else Float.ofNat n.hits / Float.ofNat n.lookups

end LookupCount

structure Store where
  /-- All resolved types; the number of a type is its place here. -/
  arena : Array ResolvedType := #[]
  /-- The type that each settled key stands for. -/
  settled : Std.TreeMap TypeKey ResolvedType := ∅
  reports : Array Report := #[]
  count : LookupCount := {}

namespace Store

def get? (s : Store) (id : TypeId) : Option ResolvedType :=
  s.arena[id]?

def find? (s : Store) (k : TypeKey) : Option ResolvedType :=
  s.settled[k]?

def report (s : Store) (r : Report) : Store :=
  { s with reports := s.reports.push r }

def reportAll (s : Store) (rs : List Report) : Store :=
  rs.foldl report s

def hit (s : Store) : Store :=
  { s with count := { s.count with hits := s.count.hits + 1 } }

def miss (s : Store) : Store :=
  { s with count := { s.count with misses := s.count.misses + 1 } }

/-- The type that the next place of the arena will hold for a key. -/
def next (s : Store) (k : TypeKey) (b : Binding) : ResolvedType :=
  ⟨s.arena.size, k, b⟩

def push (s : Store) (t : ResolvedType) : Store :=
  { s with arena := s.arena.push t }

/-- Records that the key of a type stands for that type from now on. -/
def settle (s : Store) (t : ResolvedType) : Store :=
  { s with settled := s.settled.insert t.key t }

@[simp] theorem find?_report (s : Store) (r : Report) : (s.report r).find? = s.find? := rfl
@[simp] theorem find?_hit (s : Store) : s.hit.find? = s.find? := rfl
@[simp] theorem find?_miss (s : Store) : s.miss.find? = s.find? := rfl
@[simp] theorem find?_push (s : Store) (t : ResolvedType) : (s.push t).find? = s.find? := rfl

@[simp] theorem arena_report (s : Store) (r : Report) : (s.report r).arena = s.arena := rfl
@[simp] theorem arena_hit (s : Store) : s.hit.arena = s.arena := rfl
@[simp] theorem arena_miss (s : Store) : s.miss.arena = s.arena := rfl
@[simp] theorem arena_settle (s : Store) (t : ResolvedType) : (s.settle t).arena = s.arena := rfl
@[simp] theorem arena_push (s : Store) (t : ResolvedType) :
    (s.push t).arena = s.arena.push t := rfl

@[simp] theorem reports_hit (s : Store) : s.hit.reports = s.reports := rfl
@[simp] theorem reports_miss (s : Store) : s.miss.reports = s.reports := rfl
@[simp] theorem reports_push (s : Store) (t : ResolvedType) : (s.push t).reports = s.reports := rfl
@[simp] theorem reports_settle (s : Store) (t : ResolvedType) :
    (s.settle t).reports = s.reports := rfl
@[simp] theorem reports_report (s : Store) (r : Report) :
    (s.report r).reports = s.reports.push r := rfl

@[simp] theorem id_next (s : Store) (k : TypeKey) (b : Binding) :
    (s.next k b).id = s.arena.size := rfl
@[simp] theorem key_next (s : Store) (k : TypeKey) (b : Binding) : (s.next k b).key = k := rfl
@[simp] theorem binding_next (s : Store) (k : TypeKey) (b : Binding) :
    (s.next k b).binding = b := rfl

theorem reportAll_eq (s : Store) (rs : List Report) :
    s.reportAll rs = { s with reports := s.reports ++ rs } := by
  induction rs generalizing s with
  | nil => simp [reportAll]
  | cons r rs ih =>
    have h := ih (s.report r)
    rw [reportAll] at h
    rw [reportAll, List.foldl_cons, h]
    simp [report]

@[simp] theorem find?_reportAll (s : Store) (rs : List Report) :
    (s.reportAll rs).find? = s.find? := by
  rw [reportAll_eq]
  rfl

@[simp] theorem arena_reportAll (s : Store) (rs : List Report) :
    (s.reportAll rs).arena = s.arena := by
  rw [reportAll_eq]

@[simp] theorem reports_reportAll (s : Store) (rs : List Report) :
    (s.reportAll rs).reports = s.reports ++ rs := by
  rw [reportAll_eq]

@[simp] theorem find?_settle (s : Store) (t : ResolvedType) (k : TypeKey) :
    (s.settle t).find? k = if t.key = k then some t else s.find? k := by
  simp only [find?, settle, Std.TreeMap.getElem?_insert, Std.LawfulEqOrd.compare_eq_iff_eq]

/-- What a number stands for hangs on the arena only. -/
theorem get?_congr {s s' : Store} (h : s'.arena = s.arena) (id : TypeId) :
    s'.get? id = s.get? id := by
  simp [get?, h]

@[simp] theorem get?_push (s : Store) (t : ResolvedType) (id : TypeId) :
    (s.push t).get? id = if id = s.arena.size then some t else s.get? id := by
  simp [get?, Array.getElem?_push]

/-- After a push a number stands for the new type or for what it stood for before. -/
theorem eq_or_get?_of_push {s : Store} {u t : ResolvedType} {id : TypeId}
    (h : (s.push u).get? id = some t) : id = s.arena.size ∧ t = u ∨ s.get? id = some t := by
  rw [get?_push] at h
  split at h
  · exact .inl ⟨‹_›, (Option.some.inj h).symm⟩
  · exact .inr h

theorem mem_arena_iff {s : Store} {t : ResolvedType} :
    t ∈ s.arena.toList ↔ ∃ id, s.get? id = some t := by
  simp [get?, List.mem_iff_getElem?]

theorem lt_size_of_get? {s : Store} {id : TypeId} {t : ResolvedType} (h : s.get? id = some t) :
    id < s.arena.size :=
  (Array.getElem?_eq_some_iff.1 h).1

theorem exists_get?_of_lt {s : Store} {id : TypeId} (h : id < s.arena.size) :
    ∃ t, s.get? id = some t :=
  ⟨s.arena[id], Array.getElem?_eq_getElem h⟩

end Store
end TypeCatalog
