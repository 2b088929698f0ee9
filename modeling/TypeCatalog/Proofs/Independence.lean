import TypeCatalog.Proofs.Agreement
import TypeCatalog.Proofs.Cycles
import TypeCatalog.Proofs.Diagnostics

/-!
# Two histories of one snapshot

Two histories number types in different orders, and they break cycles at different links. Apart from
cycles they agree: the types of a key that leads to no cycle have the same closures but for their
numbers, since their base links are bound to the types of the same keys. After a check the two logs
have the same entries but for those on cycles, and both show a cycle or none does.
-/

namespace TypeCatalog

namespace Catalog

/-- No key that links lead to from this one is on a cycle of links. -/
def AvoidsCycles (c : Catalog) (k : TypeKey) : Prop :=
  ∀ j, c.Reaches k j → ¬ Relation.TransGen c.LinksTo j j

variable {c : Catalog} {k base : TypeKey}

theorem AvoidsCycles.of_linksTo (h : c.AvoidsCycles k) (hl : c.LinksTo k base) :
    c.AvoidsCycles base :=
  fun j hj => h j (.head hl hj)

/-- A key on a cycle has a link to a key on it. -/
theorem avoidsCycles_of_linksTo (h : ∀ base, c.LinksTo k base → c.AvoidsCycles base) :
    c.AvoidsCycles k := by
  intro j hj hcycle
  rcases Relation.ReflTransGen.cases_head hj with rfl | ⟨base, hl, hr⟩
  · obtain ⟨base, hl, hr⟩ := Relation.TransGen.head'_iff.1 hcycle
    exact h base hl k hr hcycle
  · exact h base hl j hr hcycle

/-- Away from its cycles, a catalog agrees with itself. -/
theorem agreeOn_avoidsCycles : AgreeOn c.AvoidsCycles c c where
  closed hk hl := hk.of_linksTo hl
  links _ := rfl
  acyclic hk := hk _ .refl

end Catalog

namespace Store

variable {c : Catalog} {s s' : Store}

/-- Two types of one key, which leads to no cycle. -/
structure Twins (c : Catalog) (s s' : Store) (k : TypeKey) (t u : ResolvedType) : Prop where
  avoids : c.AvoidsCycles k
  left : s.find? k = some t
  right : s'.find? k = some u

theorem Twins.counterparts {k : TypeKey} {t u : ResolvedType} (htwins : Twins c s s' k t u) :
    Counterparts c.AvoidsCycles s s' k t u :=
  ⟨htwins.avoids, htwins.left, htwins.right⟩

theorem Twins.lineage_eq {p : Project} (h : s.Consistent (.ofProject p) ∅)
    (h' : s'.Consistent (.ofProject p) ∅) {k : TypeKey} {t u : ResolvedType}
    (htwins : Twins (.ofProject p) s s' k t u) : s.lineage t = s'.lineage u :=
  htwins.counterparts.lineage_eq Catalog.agreeOn_avoidsCycles h h' fun _ _ => ⟨rfl, rfl⟩

/-- Twins derive from types of the same keys. -/
theorem Twins.derives_eq (h : s.Consistent c ∅) (h' : s'.Consistent c ∅) {k : TypeKey}
    {t u : ResolvedType} (htwins : Twins c s s' k t u) {j : TypeKey} {a b : ResolvedType}
    (ha : s.find? j = some a) (hb : s'.find? j = some b) : s.derives t a = s'.derives u b :=
  htwins.counterparts.derives_eq Catalog.agreeOn_avoidsCycles h h' ha hb

end Store

/-- Of diagnostics with one code, a code tells all or none. -/
theorem filter_code_eq_ite {ds : List Diagnostic} {own : String}
    (h : ∀ d ∈ ds, d.code = some own) (code : String) :
    ds.filter (·.code = some code) = if own = code then ds else [] := by
  split
  · rename_i hcode
    exact List.filter_eq_self.2 fun d hd => by simp [h d hd, hcode]
  · rename_i hcode
    exact List.filter_eq_nil_iff.2 fun d hd => by simp [h d hd, hcode]

namespace Project

variable (p : Project)

/-- What is due on a key whatever its base links are bound to. -/
def dueAnyway (k : TypeKey) : List Diagnostic :=
  p.dueDuplicates k ++ p.dueConflicts k ++ p.dueMissing k

theorem filter_dueAnyway (k : TypeKey) (code : String) :
    (p.dueAnyway k).filter (·.code = some code) =
      (if "W0103" = code then p.dueDuplicates k else []) ++
      (if "W0104" = code then p.dueConflicts k else []) ++
      (if "W0101" = code then p.dueMissing k else []) := by
  rw [dueAnyway, List.filter_append, List.filter_append,
    filter_code_eq_ite (fun _ hd => (of_mem_dueDuplicates hd).1),
    filter_code_eq_ite (fun _ hd => (of_mem_dueConflicts hd).1),
    filter_code_eq_ite (fun _ hd => (of_mem_dueMissing hd).1)]

theorem filter_code_due {code : String} (hcode : code ≠ "W0102") (s : Store) (t : ResolvedType) :
    (p.due s t).filter (·.code = some code) = (p.dueAnyway t.key).filter (·.code = some code) := by
  have hcycles : (p.dueCycles s t).filter (·.code = some code) = [] := by
    rw [filter_code_eq_ite (fun _ hd => (of_mem_dueCycles hd).1), if_neg hcode.symm]
  rw [due, List.filter_append, hcycles, List.append_nil, dueAnyway]

end Project

/-- Once all visible keys are settled, the log has of every code but that of cycles what is due on
the visible keys. -/
theorem Store.Consistent.perm_withCode {p : Project} {s : Store}
    (h : s.Consistent (.ofProject p) ∅) (ha : s.Accounted (.ofProject p))
    (hs : ∀ k ∈ (Catalog.ofProject p).visibleKeys, (s.find? k).isSome) {code : String}
    (hcode : code ≠ "W0102") :
    ((DiagnosticLog.mk (s.reports.map Report.diagnostic)).withCode code).Perm
      (((Catalog.ofProject p).visibleKeys.flatMap p.dueAnyway).filter (·.code = some code)) := by
  have hlog := (h.perm_log ha).filter (·.code = some code)
  have hdue : (s.declaredTypes.flatMap (p.due s)).filter (·.code = some code) =
      ((s.declaredTypes.map ResolvedType.key).flatMap p.dueAnyway).filter (·.code = some code) := by
    rw [List.filter_flatMap, List.flatMap_map, List.filter_flatMap]
    exact List.flatMap_congr fun t _ => p.filter_code_due hcode s t
  rw [hdue] at hlog
  have hkeys := (h.perm_map_key_declaredTypes hs).flatMap_right p.dueAnyway
  simpa [DiagnosticLog.withCode] using hlog.trans (hkeys.filter _)

/-- A log that shows the cycles shows none only if there is none. -/
theorem DiagnosticLog.ShowsCycles.withCode_eq_nil_iff {c : Catalog} {log : DiagnosticLog}
    (h : log.ShowsCycles c) :
    log.withCode "W0102" = [] ↔ ∀ k, ¬ Relation.TransGen c.LinksTo k k := by
  rw [DiagnosticLog.withCode, List.filter_eq_nil_iff]
  constructor
  · intro hnone k hk
    obtain ⟨file, subject, base, hmem, -⟩ := h.complete k hk
    exact hnone _ (Array.mem_def.1 hmem) (by simp [Diagnostic.circularBase])
  · intro hn d hd hcode
    obtain ⟨file, subject, base, -, hl, hr⟩ := h.sound d (Array.mem_def.2 hd) (by simpa using hcode)
    exact hn subject (.head' hl hr)

namespace Compilation

variable (s : Snapshot) (qs later : List Query)

/-- What a log has of the codes other than that of cycles after a check. -/
theorem perm_withCode_checked {code : String} (hcode : code ≠ "W0102") :
    (((create s).after (qs ++ .checkAll :: later)).diagnostics.withCode code).Perm
      (((Catalog.ofProject s.project).visibleKeys.flatMap s.project.dueAnyway).filter
        (·.code = some code)) := by
  have h := reached_after s (qs ++ .checkAll :: later)
  exact h.consistent.perm_withCode h.accounted (isSome_of_checked s qs later) hcode

theorem withCode_checked_eq_nil_iff :
    ((create s).after (qs ++ .checkAll :: later)).diagnostics.withCode "W0102" = [] ↔
      ∀ k, ¬ Relation.TransGen (Catalog.ofProject s.project).LinksTo k k :=
  ((reached_after s _).showsCycles (isSome_of_checked s qs later)).withCode_eq_nil_iff

end Compilation

/-- Two histories of one snapshot agree on every key that leads to no cycle: its types have the same
closures, but for the numbers, and derive from types of the same keys. After a check they have
reported the same, but for the cycles, and both have reported a cycle or neither has. -/
theorem history_independent (s : Snapshot) (qs qs' : List Query) :
    let c := (Compilation.create s).after qs
    let c' := (Compilation.create s).after qs'
    (∀ k t t', (Catalog.ofProject s.project).AvoidsCycles k →
      c.store.find? k = some t → c'.store.find? k = some t' →
        c.store.lineage t = c'.store.lineage t' ∧
        ∀ j u u', c.store.find? j = some u → c'.store.find? j = some u' →
          c.store.derives t u = c'.store.derives t' u') ∧
    ∀ later later',
      let log := ((Compilation.create s).after (qs ++ .checkAll :: later)).diagnostics
      let log' := ((Compilation.create s).after (qs' ++ .checkAll :: later')).diagnostics
      (∀ code, code ≠ "W0102" → (log.withCode code).Perm (log'.withCode code)) ∧
        (log.withCode "W0102" = [] ↔ log'.withCode "W0102" = []) := by
  intro c c'
  have hc := (Compilation.reached_after s qs).consistent
  have hc' := (Compilation.reached_after s qs').consistent
  refine ⟨fun k t t' hk ht ht' => ?_, fun later later' => ⟨fun code hcode => ?_, ?_⟩⟩
  · have htwins : Store.Twins (.ofProject s.project) c.store c'.store k t t' := ⟨hk, ht, ht'⟩
    exact ⟨htwins.lineage_eq hc hc', fun j u u' hu hu' => htwins.derives_eq hc hc' hu hu'⟩
  · have hleft := Compilation.perm_withCode_checked s qs later hcode
    exact hleft.trans (Compilation.perm_withCode_checked s qs' later' hcode).symm
  · have hleft := Compilation.withCode_checked_eq_nil_iff s qs later
    exact hleft.trans (Compilation.withCode_checked_eq_nil_iff s qs' later').symm

/-- A class with a base type of its own, beside two classes that inherit from each other. -/
def Snapshot.apart : Snapshot :=
  initial.update (.addFile ⟨"a.cs", [⟨"", "A", .classType, [], [⟨"", "Base", 0⟩], [], false⟩,
    ⟨"", "X", .classType, [], [⟨"", "Y", 0⟩], [], false⟩,
    ⟨"", "Y", .classType, [], [⟨"", "X", 0⟩], [], false⟩]⟩)

/-- The class has another number if a class of the cycle is looked up before it. -/
theorem history_independent_apart :
    let qs := [.resolve ⟨"", "X", 0⟩, .resolve ⟨"", "A", 0⟩]
    let qs' := [.resolve ⟨"", "A", 0⟩]
    let c := (Compilation.create .apart).after qs
    let c' := (Compilation.create .apart).after qs'
    (Catalog.ofProject Snapshot.apart.project).AvoidsCycles ⟨"", "A", 0⟩ ∧
    (∃ t t' u u', c.store.find? ⟨"", "A", 0⟩ = some t ∧ c'.store.find? ⟨"", "A", 0⟩ = some t' ∧
      c.store.find? ⟨"", "Base", 0⟩ = some u ∧ c'.store.find? ⟨"", "Base", 0⟩ = some u' ∧
      t.id ≠ t'.id ∧ c.store.lineage t = c'.store.lineage t' ∧
      c.store.derives t u = c'.store.derives t' u') ∧
    (((Compilation.create .apart).after (qs ++ [.checkAll])).diagnostics.withCode "W0101").Perm
      (((Compilation.create .apart).after (qs' ++ [.checkAll])).diagnostics.withCode "W0101") := by
  intro qs qs' c c'
  obtain ⟨hsettled, hchecked⟩ := history_independent .apart qs qs'
  have havoids : (Catalog.ofProject Snapshot.apart.project).AvoidsCycles ⟨"", "A", 0⟩ := by
    have hlinks : (Snapshot.apart.project.content ⟨"", "A", 0⟩).bases = [⟨"", "Base", 0⟩] := by
      decide +kernel
    have hnone : (Snapshot.apart.project.content ⟨"", "Base", 0⟩).bases = [] := by decide +kernel
    refine Catalog.avoidsCycles_of_linksTo fun base hl => ?_
    rw [Catalog.linksTo_iff, hlinks, List.mem_singleton] at hl
    subst hl
    exact Catalog.avoidsCycles_of_linksTo fun base hl => by simp [Catalog.linksTo_iff, hnone] at hl
  let t (id base : TypeId) : ResolvedType :=
    ⟨id, ⟨"", "A", 0⟩, .declared ⟨.classType, .source [⟨0, 0⟩] ["a.cs"], []⟩ [base]⟩
  let u (id : TypeId) : ResolvedType := ⟨id, ⟨"", "Base", 0⟩, .unknown .unresolved⟩
  have ht : c.store.find? ⟨"", "A", 0⟩ = some (t 4 3) := by decide +kernel
  have ht' : c'.store.find? ⟨"", "A", 0⟩ = some (t 1 0) := by decide +kernel
  have hu : c.store.find? ⟨"", "Base", 0⟩ = some (u 3) := by decide +kernel
  have hu' : c'.store.find? ⟨"", "Base", 0⟩ = some (u 0) := by decide +kernel
  obtain ⟨hlineage, hderives⟩ := hsettled _ _ _ havoids ht ht'
  exact ⟨havoids, ⟨_, _, _, _, ht, ht', hu, hu', by decide, hlineage, hderives _ _ _ hu hu'⟩,
    (hchecked [] []).1 "W0101" (by decide)⟩

/-- The cycle is reported at the class that is looked up second. -/
example :
    (((Compilation.create .apart).after [.resolve ⟨"", "X", 0⟩, .checkAll]).diagnostics.withCode
      "W0102").map Diagnostic.subject = [⟨"", "Y", 0⟩] ∧
    (((Compilation.create .apart).after [.resolve ⟨"", "Y", 0⟩, .checkAll]).diagnostics.withCode
      "W0102").map Diagnostic.subject = [⟨"", "X", 0⟩] := by
  decide +kernel

end TypeCatalog
