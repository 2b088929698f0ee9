import TypeCatalog.Proofs.Permanence
import TypeCatalog.Proofs.Places

/-!
# Readings of a compilation

A look-up that opens its frames by readings of places, and hands out a number, leaves it to the
compilation to read the type at that number. Every such reading could fail. Here a compilation
answers all queries through them, while a number that a query itself brings along is only looked up
where a missing type is an answer. No reading fails in any history, whatever types and numbers the
queries bring along, and the answers are those of the compilation that reads no places.
-/

namespace TypeCatalog

namespace Machine

/-- Opens a frame for a key that is neither open nor settled. -/
def openAt? (p : Project) (s : Store) (opened : Std.TreeSet TypeKey) (k : TypeKey)
    (waiting : List Waiting) : Option Machine := do
  let outline? ← p.outlineAt? k
  return {
    store := s.miss.reportAll ((outline?.map Outline.reports).getD [])
    opened := opened.insert k
    current := .ofOutline? k outline?
    waiting := waiting }

def stepAt? (p : Project) : Machine → Option Outcome
  | ⟨s, opened, ⟨key, definition?, bound, []⟩, waiting⟩ =>
    some (close s opened ⟨key, definition?, bound, []⟩ waiting)
  | ⟨s, opened, ⟨key, definition?, bound, link :: pending⟩, waiting⟩ =>
    if opened.contains link.key then
      some (.running (breakCycle s opened ⟨key, definition?, bound, pending⟩ waiting link))
    else match s.find? link.key with
      | some t => some (.running (reuse s opened ⟨key, definition?, bound, pending⟩ waiting link t))
      | none => do
        let m ← openAt? p s opened link.key (⟨⟨key, definition?, bound, pending⟩, link⟩ :: waiting)
        return .running m

theorem openAt?_eq (p : Project) (s : Store) (opened : Std.TreeSet TypeKey) (k : TypeKey)
    (waiting : List Waiting) :
    openAt? p s opened k waiting = some (openKey (.ofProject p) s opened k waiting) := by
  rw [openAt?, Project.outlineAt?_eq]
  rfl

theorem stepAt?_eq (p : Project) (m : Machine) : stepAt? p m = some (step (.ofProject p) m) := by
  obtain ⟨s, opened, ⟨key, definition?, bound, pending⟩, waiting⟩ := m
  cases pending with
  | nil => rfl
  | cons link pending =>
    rw [stepAt?, step]
    split
    · rfl
    · cases s.find? link.key with
      | some t => rfl
      | none =>
        dsimp only
        rw [openAt?_eq]
        rfl

/-- Runs until the first frame is closed, and hands out the number of its type. -/
def runAt? (p : Project) (m : Machine) : Option (TypeId × Resolver) :=
  match _h : stepAt? p m with
  | none => none
  | some (.running m') => runAt? p m'
  | some (.finished t r) => some (t.id, r)
termination_by work (.ofProject p) m
decreasing_by exact work_step (Option.some.inj ((stepAt?_eq p m).symm.trans ‹_›))

theorem runAt?_eq (p : Project) (m : Machine) :
    runAt? p m = some ((run (.ofProject p) m).1.id, (run (.ofProject p) m).2) := by
  induction m using run.induct (.ofProject p) with
  | case1 m m' hstep ih =>
    have hread := (stepAt?_eq p m).trans (congrArg some hstep)
    rw [run_of_running hstep, ← ih, runAt?]
    split <;> simp_all
  | case2 m t r hstep =>
    have hread := (stepAt?_eq p m).trans (congrArg some hstep)
    rw [run_of_finished hstep, runAt?]
    split <;> simp_all

end Machine

namespace Resolver

def resolveAt? (p : Project) (r : Resolver) (k : TypeKey) : Option (TypeId × Resolver) :=
  match r.store.find? k with
  | some t => some (t.id, { r with store := r.store.hit })
  | none => do
    let m ← Machine.openAt? p r.store r.opened k []
    Machine.runAt? p m

/-- Looks up one more key and adds its number to those found so far. -/
def extendAt? (p : Project) : Array TypeId × Resolver → TypeKey → Option (Array TypeId × Resolver)
  | (found, r), k => do
    let (id, r) ← r.resolveAt? p k
    return (found.push id, r)

theorem resolveAt?_eq (p : Project) (r : Resolver) (k : TypeKey) : r.resolveAt? p k =
    some ((r.resolve (.ofProject p) k).1.id, (r.resolve (.ofProject p) k).2) := by
  rw [resolveAt?, resolve]
  cases r.store.find? k with
  | some t => rfl
  | none =>
    dsimp only
    rw [Machine.openAt?_eq]
    exact Machine.runAt?_eq p _

theorem foldlM_extendAt? (p : Project) (found : Array ResolvedType) (r : Resolver)
    (ks : List TypeKey) : ks.foldlM (extendAt? p) (found.map ResolvedType.id, r) =
      some ((ks.foldl (extend (.ofProject p)) (found, r)).1.map ResolvedType.id,
        (ks.foldl (extend (.ofProject p)) (found, r)).2) := by
  induction ks generalizing found r with
  | nil => rfl
  | cons k ks ih =>
    rw [List.foldlM_cons, extendAt?, resolveAt?_eq, List.foldl_cons, extend, ← ih, Array.map_push]
    rfl

end Resolver

namespace Compilation

/-- The type of a key, read at the number that the look-up hands out. -/
def lookupAt? (c : Compilation) (k : TypeKey) : Option (ResolvedType × Compilation) := do
  let (id, r) ← Resolver.resolveAt? c.snapshot.project ⟨c.store, ∅⟩ k
  let t ← r.store.arena[id]?
  return (t, { c with store := r.store })

/-- Every visible type, read after the last look-up. -/
def allTypesAt? (c : Compilation) : Option (List ResolvedType × Compilation) := do
  let (ids, r) ← c.catalog.visibleKeys.foldlM (Resolver.extendAt? c.snapshot.project)
    (#[], ⟨c.store, ∅⟩)
  let ts ← ids.toList.mapM fun id => r.store.arena[id]?
  return (ts, { c with store := r.store })

/-- The answer to a query through readings that could fail. -/
def askAt? (c : Compilation) : Query → Option (Answer × Compilation)
  | .resolve k =>
    match k.fault? with
    | some fault => some (.refused fault, c)
    | none => do
      let (t, c) ← c.lookupAt? k
      return (.type t, c)
  | .memberType m =>
    match m.sited.member.returnType with
    | some k => do
      let (t, c) ← c.lookupAt? k
      return (.found (some t), c)
    | none => some (.found none, c)
  | .allTypes => do
    let (ts, c) ← c.allTypesAt?
    return (.types ts, c)
  | .checkAll => do
    let (_, c) ← c.allTypesAt?
    return (.log c.diagnostics, c)
  -- what other queries read, they read where a missing type is no error
  | .get id => some (.found (c.get? id), c)
  | .directBases t => some (.types (c.store.directBases t), c)
  | .closure t => some (.types (c.store.closure t), c)
  | .derives t base => some (.truth (c.store.derives t base), c)
  | .diagnostics => some (.log c.diagnostics, c)
  | .counts => some (.counts c.store.count c.size, c)

def afterAt? (c : Compilation) (qs : List Query) : Option Compilation :=
  qs.foldlM (fun c q => (c.askAt? q).map Prod.snd) c

variable {c : Compilation} (h : c.store.Reached c.catalog)
include h

theorem lookupAt?_eq (k : TypeKey) : c.lookupAt? k = some (c.lookup k) := by
  have hget : (c.lookup k).2.store.arena[(c.lookup k).1.id]? = some (c.lookup k).1 :=
    get?_lookup h k
  rw [lookupAt?, Resolver.resolveAt?_eq, ← c.catalog_eq]
  exact congrArg (Option.bind · _) hget

theorem allTypesAt?_eq : c.allTypesAt? = some c.allTypes := by
  let found := (c.catalog.visibleKeys.foldl (Resolver.extend c.catalog) (#[], ⟨c.store, ∅⟩)).1
  have ha := h.consistent.resolveAll c.catalog.visibleKeys
  have hget : ∀ t ∈ found.toList, c.allTypes.2.store.arena[t.id]? = some t :=
    fun t ht => (ha.consistent.settled_iff.1 (ha.find?_of_mem ht)).2.1
  have hread : (found.map ResolvedType.id).toList.mapM
      (fun id => c.allTypes.2.store.arena[id]?) = some found.toList := by
    refine mapM_eq_some_of_map_eq ?_
    rw [Array.toList_map, List.map_map]
    exact List.map_congr_left hget
  have hfold := Resolver.foldlM_extendAt? c.snapshot.project #[] ⟨c.store, ∅⟩ c.catalog.visibleKeys
  rw [Array.map_empty, ← c.catalog_eq] at hfold
  rw [allTypesAt?, hfold]
  exact congrArg (Option.bind · _) hread

theorem askAt?_eq (q : Query) : c.askAt? q = some (c.ask q) := by
  cases q with
  | resolve k =>
    cases hk : k.fault? with
    | some fault => simp [askAt?, ask, hk, resolve_of_fault hk]
    | none => simp [askAt?, ask, hk, resolve_of_sound hk, lookupAt?_eq h]
  | memberType m =>
    cases hm : m.sited.member.returnType with
    | none => simp [askAt?, ask, hm, memberType]
    | some k => simp [askAt?, ask, hm, memberType, lookupAt?_eq h]
  | allTypes =>
    rw [askAt?, allTypesAt?_eq h]
    rfl
  | checkAll =>
    rw [askAt?, allTypesAt?_eq h]
    rfl
  | _ => rfl

theorem afterAt?_eq (qs : List Query) : c.afterAt? qs = some (c.after qs) := by
  induction qs generalizing c with
  | nil => rfl
  | cons q qs ih =>
    rw [afterAt?, List.foldlM_cons, askAt?_eq h]
    exact ih (reached_ask h q)

end Compilation

/-- The parts of a type of a store are places of declarations of its key. -/
theorem Store.Consistent.exists_partAt?_of_mem_parts {p : Project} {s : Store}
    {o : Std.TreeSet TypeKey} (h : s.Consistent (.ofProject p) o) {t : ResolvedType}
    (ht : t ∈ s.arena.toList) {id : DeclId} (hid : id ∈ t.parts) :
    ∃ part, p.partAt? id = some part ∧ part.key = t.key := by
  have hne : t.binding ≠ .unknown .cycle := by
    intro hcycle
    simp [ResolvedType.parts, ResolvedType.definition?, hcycle] at hid
  obtain ⟨-, hd⟩ := h.depicts (h.find?_of_mem_arena ht hne)
  exact Project.exists_partAt?_of_mem_parts (hd.parts ▸ hid)

/-- No reading fails. In every history the places of an index are those of the indexed declarations,
the places that a type was merged from are those of declarations of its key, the selection among the
places of a declared key is not empty, and the places in the table of an assembly are places of its
exports. Outlines and steps of a look-up that are made through readings are those that are made
without, and so is a whole history and the answer to the next query, whatever types and numbers the
queries bring along. -/
theorem no_reading_fails (s : Snapshot) (qs : List Query) :
    let c := (Compilation.create s).after qs
    let p := s.project
    (∀ part ∈ c.catalog.index.parts, p.partAt? part.id = some part) ∧
    (∀ t ∈ c.store.arena.toList, ∀ id ∈ t.parts,
      ∃ part, p.partAt? id = some part ∧ part.key = t.key) ∧
    (∀ k, c.catalog.index.declarations k ≠ [] → ∃ id ids reports,
      p.selectAt? k ((c.catalog.index.declarations k).map Part.id) = some (id :: ids, reports)) ∧
    (∀ a ∈ p.references.toList, ∀ k : TypeKey, ∀ i ∈ a.table[k]?, i < a.exports.length) ∧
    (∀ k, p.outlineAt? k = some (c.catalog.outline? k)) ∧
    (∀ m, Machine.stepAt? p m = some (Machine.step c.catalog m)) ∧
    (Compilation.create s).afterAt? qs = some c ∧
    ∀ q, c.askAt? q = some (c.ask q) := by
  intro c p
  have hcatalog : c.catalog = .ofProject p := Compilation.catalog_after s qs
  rw [hcatalog]
  have hindex : ∀ k, (Catalog.ofProject p).index.declarations k = p.partsOf k :=
    DeclIndex.declarations_eq _
  refine ⟨fun part hp => Project.partAt?_of_mem hp, fun t ht id hid => ?_, fun k hk => ?_,
    fun a _ k i hi => Assembly.lt_length_of_mem_table hi, fun k => Project.outlineAt?_eq k,
    fun m => Machine.stepAt?_eq p m, ?_, fun q => ?_⟩
  · exact (Compilation.reached_after s qs).consistent.exists_partAt?_of_mem_parts ht hid
  · rw [hindex] at hk ⊢
    exact Project.exists_selectAt?_eq hk
  · exact Compilation.afterAt?_eq .empty qs
  · exact Compilation.askAt?_eq (Compilation.reached_after_own s qs) q

/-- A strict project. Of the three declarations of a class in two files, one is not partial. The
reference exports a key twice. -/
def Snapshot.scattered : Snapshot :=
  initial.updateAll [.setOptions ⟨false, true⟩,
    .addFile ⟨"a.cs", [⟨"", "A", .classType, [], [⟨"", "Lib", 0⟩], [], true⟩]⟩,
    .addFile ⟨"b.cs", [⟨"", "A", .classType, [], [], [], false⟩,
      ⟨"", "A", .classType, [], [], [], true⟩]⟩,
    .addReferences [⟨⟨"First", ⟨1, 0, 0, 0⟩⟩, [⟨"", "Extra", .classType, [], [], [], false⟩,
      ⟨"", "Lib", .classType, [], [], [], false⟩, ⟨"", "Lib", .structType, [], [], [], false⟩]⟩]]

/-- A type of another compilation has places and numbers that are none here. -/
theorem no_reading_fails_scattered :
    let p := Snapshot.scattered.project
    let other : ResolvedType :=
      ⟨7, ⟨"", "B", 0⟩, .declared ⟨.classType, .source [⟨5, 5⟩] ["c.cs"], []⟩ [0, 9]⟩
    let qs := [.resolve ⟨"", "A", 0⟩, .closure other, .derives other other, .get 9]
    let c := (Compilation.create .scattered).after qs
    p.partAt? ⟨5, 5⟩ = none ∧ c.get? 9 = none ∧
    (∃ part ∈ c.catalog.index.parts, p.partAt? part.id = some part) ∧
    (∃ t ∈ c.store.arena.toList, ⟨1, 1⟩ ∈ t.parts ∧
      ∃ part, p.partAt? ⟨1, 1⟩ = some part ∧ part.key = t.key) ∧
    (∃ id ids reports, p.selectAt? ⟨"", "A", 0⟩ [⟨0, 0⟩, ⟨1, 0⟩, ⟨1, 1⟩] =
      some (id :: ids, reports)) ∧
    (∃ a ∈ p.references.toList, a.table[(⟨"", "Lib", 0⟩ : TypeKey)]? = some 1 ∧
      1 < a.exports.length) ∧
    (Compilation.create .scattered).afterAt? qs = some c := by
  intro p other qs c
  obtain ⟨hindex, hparts, hselect, htable, -, -, hafter, -⟩ := no_reading_fails .scattered qs
  let part : Part := ⟨⟨0, 0⟩, "a.cs", ⟨"", "A", .classType, [], [⟨"", "Lib", 0⟩], [], true⟩⟩
  let t : ResolvedType := ⟨1, ⟨"", "A", 0⟩,
    .declared ⟨.classType, .source [⟨0, 0⟩, ⟨1, 1⟩] ["a.cs", "b.cs"], []⟩ [0]⟩
  let a : Assembly := ⟨⟨"First", ⟨1, 0, 0, 0⟩⟩, [⟨"", "Extra", .classType, [], [], [], false⟩,
    ⟨"", "Lib", .classType, [], [], [], false⟩, ⟨"", "Lib", .structType, [], [], [], false⟩]⟩
  have hpart : part ∈ c.catalog.index.parts := by decide +kernel
  have ht : t ∈ c.store.arena.toList := by decide +kernel
  have hplaces : (c.catalog.index.declarations ⟨"", "A", 0⟩).map Part.id =
      [⟨0, 0⟩, ⟨1, 0⟩, ⟨1, 1⟩] := by decide +kernel
  have hdeclared : c.catalog.index.declarations ⟨"", "A", 0⟩ ≠ [] := by
    intro hnil
    simp [hnil] at hplaces
  have ha : a ∈ p.references.toList := by decide +kernel
  have hi : a.table[(⟨"", "Lib", 0⟩ : TypeKey)]? = some 1 := by decide +kernel
  exact ⟨by decide +kernel, by decide +kernel, ⟨part, hpart, hindex part hpart⟩,
    ⟨t, ht, by decide, hparts t ht ⟨1, 1⟩ (by decide)⟩, hplaces ▸ hselect _ hdeclared,
    ⟨a, ha, hi, htable a ha _ 1 hi⟩, hafter⟩

end TypeCatalog
