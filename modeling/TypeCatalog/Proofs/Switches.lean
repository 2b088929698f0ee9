import TypeCatalog.Proofs.Independence
import TypeCatalog.Proofs.Places

/-!
# What the options do not change

After a check a log has all that is due on the visible keys, whatever was asked before. Strict mode
decides which declarations of a key are merged, but the others are due to be reported in either
mode. An implied root is a link like others, and it may lead to new cycles, but nothing that is due
on the declarations or on the named base types of a key hangs on it.
-/

namespace TypeCatalog

namespace Snapshot

def withStrictPartial (s : Snapshot) (on : Bool) : Snapshot :=
  s.update (.setOptions { s.project.options with strictPartial := on })

def withImplicitRoots (s : Snapshot) (on : Bool) : Snapshot :=
  s.update (.setOptions { s.project.options with implicitRoots := on })

end Snapshot

namespace Project

variable (p : Project)

theorem dueDuplicates_setOptions (options : Options) :
    (p.edit (.setOptions options)).dueDuplicates = p.dueDuplicates := rfl

/-- What is due on a key hangs on the options only by the declarations that are merged. -/
theorem dueAnyway_setOptions (options : Options)
    (h : options.strictPartial = p.options.strictPartial) :
    (p.edit (.setOptions options)).dueAnyway = p.dueAnyway := by
  obtain ⟨roots, strict⟩ := options
  cases h
  rfl

/-- The reports on the declarations of a key that are not meant to be merged with the first, found
in the way of the mode that the project is in. -/
def duplicatesAt? (k : TypeKey) : Option (List Report) :=
  (p.selectAt? k ((p.partsOf k).map Part.id)).map Prod.snd

/-- Each mode goes through the declarations of a key in a way of its own, and they find the same. -/
theorem duplicatesAt?_setOptions (options : Options) (k : TypeKey) :
    (p.edit (.setOptions options)).duplicatesAt? k = p.duplicatesAt? k := by
  have hparts' : (p.edit (.setOptions options)).partsOf k = p.partsOf k := rfl
  rw [duplicatesAt?, duplicatesAt?, hparts']
  cases hparts : p.partsOf k with
  | nil => rfl
  | cons first rest =>
    have hread : ∀ part ∈ first :: rest, p.partAt? part.id = some part :=
      fun part hp => partAt?_of_mem_partsOf (hparts ▸ hp)
    have hread' : ∀ part ∈ first :: rest,
        (p.edit (.setOptions options)).partAt? part.id = some part := hread
    rw [selectAt?_eq hread, selectAt?_eq hread']
    rfl

end Project

theorem Catalog.visibleKeys_setOptions (p : Project) (options : Options) :
    (ofProject (p.edit (.setOptions options))).visibleKeys = (ofProject p).visibleKeys := rfl

/-- What is reported of declarations that are not meant to be merged. -/
theorem Compilation.perm_duplicates_checked (s : Snapshot) (qs later : List Query) :
    (((create s).after (qs ++ .checkAll :: later)).diagnostics.withCode "W0103").Perm
      ((Catalog.ofProject s.project).visibleKeys.flatMap s.project.dueDuplicates) := by
  have hlog := perm_withCode_checked s qs later (show "W0103" ≠ "W0102" by decide)
  simpa [List.filter_flatMap, Project.filter_dueAnyway] using hlog

/-- Whatever is asked before and after a check, strict mode changes nothing in what is reported of
declarations that are not meant to be merged, and implied roots change nothing in what is reported
but for the cycles. Key by key both modes report the same declarations, in the same order. -/
theorem switches_keep_reports (s : Snapshot) (on : Bool) (qs later qs' later' : List Query) :
    let log := ((Compilation.create s).after (qs ++ .checkAll :: later)).diagnostics
    let strict := ((Compilation.create (s.withStrictPartial on)).after
      (qs' ++ .checkAll :: later')).diagnostics
    let rooted := ((Compilation.create (s.withImplicitRoots on)).after
      (qs' ++ .checkAll :: later')).diagnostics
    (strict.withCode "W0103").Perm (log.withCode "W0103") ∧
    (rooted.withCode "W0101").Perm (log.withCode "W0101") ∧
    (rooted.withCode "W0103").Perm (log.withCode "W0103") ∧
    (rooted.withCode "W0104").Perm (log.withCode "W0104") ∧
    ∀ k, (s.withStrictPartial on).project.duplicatesAt? k = s.project.duplicatesAt? k := by
  intro log strict rooted
  have hrooted : ∀ code, code ≠ "W0102" → (rooted.withCode code).Perm (log.withCode code) := by
    intro code hcode
    have hafter := Compilation.perm_withCode_checked (s.withImplicitRoots on) qs' later' hcode
    rw [Snapshot.withImplicitRoots, Snapshot.project_update, Catalog.visibleKeys_setOptions,
      s.project.dueAnyway_setOptions { s.project.options with implicitRoots := on } rfl] at hafter
    exact hafter.trans (Compilation.perm_withCode_checked s qs later hcode).symm
  refine ⟨?_, hrooted _ (by decide), hrooted _ (by decide), hrooted _ (by decide),
    s.project.duplicatesAt?_setOptions _⟩
  have hafter := Compilation.perm_duplicates_checked (s.withStrictPartial on) qs' later'
  rw [Snapshot.withStrictPartial, Snapshot.project_update, Catalog.visibleKeys_setOptions,
    Project.dueDuplicates_setOptions] at hafter
  exact hafter.trans (Compilation.perm_duplicates_checked s qs later).symm

/-- An implied root that nothing declares is looked up and not reported. -/
example : let c := (Compilation.create ((Snapshot.initial.update (.addFile
      ⟨"a.cs", [⟨"", "A", .classType, [], [], [], false⟩]⟩)).withImplicitRoots true)).checkAll.2
    (c.store.find? ⟨"System", "Object", 0⟩).isSome ∧ c.diagnostics.size = 0 := by
  decide +kernel

end TypeCatalog
