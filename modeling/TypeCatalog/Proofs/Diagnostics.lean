import Mathlib.Data.List.Perm.Basic
import TypeCatalog.Proofs.Due
import TypeCatalog.Proofs.Reports
import TypeCatalog.Proofs.WellFormed

/-!
# What a log says

In every history the log is what is due on the declared types that are settled, each diagnostic as
often as it is due. What is reported on a link depends on the type it is bound to, and not on when
that type was found. A query that looks up nothing but settled or undeclared keys reports nothing.
-/

namespace TypeCatalog

/-- Elements that are mapped to nothing may be left out. -/
theorem flatMap_filter_of_nil {α β : Type} {f : α → List β} {keep : α → Bool} {l : List α}
    (h : ∀ a ∈ l, keep a = false → f a = []) : (l.filter keep).flatMap f = l.flatMap f := by
  induction l with
  | nil => rfl
  | cons a l ih =>
    have hrest := ih fun b hb => h b (List.mem_cons_of_mem _ hb)
    cases ha : keep a with
    | true => rw [List.filter_cons_of_pos ha, List.flatMap_cons, List.flatMap_cons, hrest]
    | false => simp [ha, hrest, h a List.mem_cons_self ha]

namespace Store

/-- The settled types that are no placeholders. -/
def declaredTypes (s : Store) : List ResolvedType :=
  (s.settled.keys.filterMap s.find?).filter (!·.isUnknown)

variable {p : Project} {o : Std.TreeSet TypeKey} {s : Store}

theorem Consistent.binding_eq_unresolved_iff (h : s.Consistent (.ofProject p) o) {k : TypeKey}
    {t : ResolvedType} (ht : s.find? k = some t) :
    t.binding = .unknown .unresolved ↔ p.declares k = false := by
  rw [(h.bound ht).1, ← Catalog.outline?_ofProject_eq_none_iff, Catalog.binding]
  cases (Catalog.ofProject p).outline? k <;> simp

/-- A key that leads to a key with links is declared. -/
theorem declares_of_reaches {k base : TypeKey} (hl : (Catalog.ofProject p).LinksTo k base)
    (hr : (Catalog.ofProject p).Reaches base k) : p.declares base = true := by
  rw [← Catalog.mem_visibleKeys_ofProject]
  rcases Relation.ReflTransGen.cases_head hr with rfl | ⟨j, hj, -⟩
  · exact Catalog.mem_visibleKeys_of_linksTo hl
  · exact Catalog.mem_visibleKeys_of_linksTo hj

/-- What is reported on a link is what is due on it and on the type it is bound to. -/
theorem Consistent.map_linkReports (h : s.Consistent (.ofProject p) o) {k : TypeKey}
    {t : ResolvedType} (ht : s.find? k = some t) {link : BaseLink} {id : TypeId}
    (hmem : (link, id) ∈ ((Catalog.ofProject p).links k).zip t.bases) :
    (s.linkReports k (link, id)).map Report.diagnostic =
      p.missingOn k link ++ p.cycleOn k s id := by
  obtain ⟨u, hu, hkey, hbind⟩ := (List.forall₂_iff_zip.1 (h.bound ht).2).2 hmem
  have hlink := (List.of_mem_zip hmem).1
  rcases hbind with hfind | ⟨hcycle, hreaches⟩
  · have hne := (h.settled_iff.1 hfind).2.2
    have hnone : p.cycleOn k s id = [] := by
      simp [Project.cycleOn, hu, mt u.origin_eq_cycle_iff.1 hne]
    have hmissing := h.binding_eq_unresolved_iff hfind
    rw [hnone, linkReports, hu, Project.missingOn]
    cases hb : u.binding with
    | declared d bases =>
      have hdeclared : p.declares link.key = true := by simpa [hb] using hmissing
      simp [BaseLink.reports, ResolvedType.unknownReason?, hb, hdeclared]
    | unknown reason =>
      cases reason with
      | cycle => exact absurd hb hne
      | unresolved =>
        have hdeclared : p.declares link.key = false := hmissing.1 hb
        cases he : link.explicit <;>
          simp [BaseLink.reports, ResolvedType.unknownReason?, hb, he, hdeclared, Report.diagnostic]
  · have hdeclared := declares_of_reaches (List.mem_map_of_mem hlink) hreaches
    have ho := u.origin_eq_cycle_iff.2 hcycle
    have hfile := p.file_of_mem_links k hlink
    simp [Project.missingOn, Project.cycleOn, linkReports, hu, ho, hdeclared, BaseLink.reports,
      ResolvedType.unknownReason?, hcycle, hkey, Report.diagnostic, hfile]

/-- What a store accounts for on a settled key is due on its type. -/
theorem Consistent.perm_due (h : s.Consistent (.ofProject p) o) {k : TypeKey} {t : ResolvedType}
    (ht : s.find? k = some t) : ((s.account (.ofProject p) k t.bases).map Report.diagnostic).Perm
      (p.due s t) := by
  obtain ⟨rfl, -, -⟩ := h.settled_iff.1 ht
  have hbound := (h.bound ht).2
  have hlinks : ((((Catalog.ofProject p).links t.key).zip t.bases).flatMap
      (s.linkReports t.key)).map Report.diagnostic =
        (((Catalog.ofProject p).links t.key).zip t.bases).flatMap fun pair =>
          p.missingOn t.key pair.1 ++ p.cycleOn t.key s pair.2 := by
    rw [List.map_flatMap]
    exact List.flatMap_congr fun pair hpair => h.map_linkReports ht hpair
  have hfst : (((Catalog.ofProject p).links t.key).zip t.bases).flatMap
      (fun pair => p.missingOn t.key pair.1) = p.dueMissing t.key := by
    rw [p.dueMissing_eq, ← List.flatMap_map, List.map_fst_zip (Nat.le_of_eq hbound.length_eq)]
  have hsnd : (((Catalog.ofProject p).links t.key).zip t.bases).flatMap
      (fun pair => p.cycleOn t.key s pair.2) = p.dueCycles s t := by
    rw [p.dueCycles_eq, ← List.flatMap_map, List.map_snd_zip (Nat.le_of_eq hbound.length_eq.symm)]
  rw [account, List.map_append, Project.map_diagnostic_reports, hlinks, Project.due,
    List.append_assoc _ (p.dueMissing t.key)]
  refine List.Perm.append_left _ ?_
  rw [← hfst, ← hsnd]
  exact (List.flatMap_append_perm _ _ _).symm

theorem Consistent.mem_declaredTypes {c : Catalog} (h : s.Consistent c o) {t : ResolvedType} :
    t ∈ s.declaredTypes ↔ s.find? t.key = some t ∧ ¬ t.isUnknown := by
  have hkeys : ∀ {k t}, s.find? k = some t → k ∈ s.settled.keys := by
    intro k t ht
    rw [Std.TreeMap.mem_keys, Std.TreeMap.mem_iff_isSome_getElem?]
    exact Option.isSome_iff_exists.2 ⟨t, ht⟩
  rw [declaredTypes, List.mem_filter, List.mem_filterMap, Bool.not_eq_eq_eq_not, Bool.not_true,
    Bool.not_eq_true]
  refine and_congr_left fun _ => ⟨fun ⟨k, _, hk⟩ => ?_, fun ht => ⟨t.key, hkeys ht, ht⟩⟩
  rwa [(h.settled_iff.1 hk).1]

theorem Consistent.nodup_declaredTypes {c : Catalog} (h : s.Consistent c o) :
    s.declaredTypes.Nodup := by
  refine List.Nodup.filter _ (List.Nodup.filterMap ?_ Std.TreeMap.nodup_keys)
  intro j k t hj hk
  exact (h.settled_iff.1 hj).1.symm.trans (h.settled_iff.1 hk).1

/-- The declared types of the arena are those that are settled. -/
theorem Consistent.perm_declaredTypes {c : Catalog} (h : s.Consistent c o) :
    (s.arena.toList.filter (!·.isUnknown)).Perm s.declaredTypes := by
  have harena : s.arena.toList.Nodup := h.nodup_ids.of_map _
  rw [List.perm_ext_iff_of_nodup (harena.filter _) h.nodup_declaredTypes]
  intro t
  rw [h.mem_declaredTypes, List.mem_filter, Bool.not_eq_eq_eq_not, Bool.not_true,
    Bool.not_eq_true]
  refine and_congr_left fun hu => ⟨fun ht => ?_, fun ht => ?_⟩
  · refine h.find?_of_mem_arena ht fun hcycle => ?_
    simp [ResolvedType.isUnknown_iff.2 ⟨_, hcycle⟩] at hu
  · exact mem_arena_iff.2 ⟨t.id, (h.settled_iff.1 ht).2.1⟩

/-- A settled type is declared exactly if its key is. -/
theorem Consistent.isUnknown_iff (h : s.Consistent (.ofProject p) o) {k : TypeKey}
    {t : ResolvedType} (ht : s.find? k = some t) : t.isUnknown ↔ p.declares k = false := by
  rw [ResolvedType.isUnknown_iff, ← h.binding_eq_unresolved_iff ht]
  refine ⟨fun ⟨reason, hb⟩ => ?_, fun hb => ⟨_, hb⟩⟩
  cases reason with
  | unresolved => exact hb
  | cycle => exact absurd hb (h.settled_iff.1 ht).2.2

/-- Once all visible keys are settled, they are the keys of the declared types. -/
theorem Consistent.perm_map_key_declaredTypes (h : s.Consistent (.ofProject p) o)
    (hs : ∀ k ∈ (Catalog.ofProject p).visibleKeys, (s.find? k).isSome) :
    (s.declaredTypes.map ResolvedType.key).Perm (Catalog.ofProject p).visibleKeys := by
  have hnodup : (s.declaredTypes.map ResolvedType.key).Nodup := by
    refine h.nodup_declaredTypes.map_on fun t ht u hu hkey => ?_
    have htf := (h.mem_declaredTypes.1 ht).1
    rw [hkey, (h.mem_declaredTypes.1 hu).1] at htf
    exact (Option.some.inj htf).symm
  rw [List.perm_ext_iff_of_nodup hnodup (Catalog.nodup_visibleKeys _)]
  intro k
  rw [List.mem_map]
  constructor
  · rintro ⟨t, ht, rfl⟩
    obtain ⟨hfind, hu⟩ := h.mem_declaredTypes.1 ht
    rwa [h.isUnknown_iff hfind, Bool.not_eq_false, ← Catalog.mem_visibleKeys_ofProject] at hu
  · intro hk
    obtain ⟨t, ht⟩ := Option.isSome_iff_exists.1 (hs k hk)
    obtain ⟨rfl, -, -⟩ := h.settled_iff.1 ht
    rw [Catalog.mem_visibleKeys_ofProject] at hk
    exact ⟨t, h.mem_declaredTypes.2 ⟨ht, by simp [h.isUnknown_iff ht, hk]⟩, rfl⟩

/-- A placeholder of either kind has an empty account. -/
theorem Consistent.accountOf_eq_nil (h : s.Consistent (.ofProject p) o) {t : ResolvedType}
    (ht : t ∈ s.arena.toList) (hu : t.isUnknown) : s.accountOf (.ofProject p) t = [] := by
  rw [accountOf]
  split
  · rfl
  · rename_i hne
    have hnone := Catalog.outline?_ofProject_eq_none_iff.2
      ((h.isUnknown_iff (h.find?_of_mem_arena ht hne)).1 hu)
    obtain ⟨reason, hb⟩ := ResolvedType.isUnknown_iff.1 hu
    simp [account, Catalog.reports, hnone, ResolvedType.bases, hb]

/-- The log is what is due on the declared types that are settled. -/
theorem Consistent.perm_log (h : s.Consistent (.ofProject p) o) (ha : s.Accounted (.ofProject p)) :
    (s.reports.toList.map Report.diagnostic).Perm (s.declaredTypes.flatMap (p.due s)) := by
  have hfilter : s.accounts (.ofProject p) =
      (s.arena.toList.filter (!·.isUnknown)).flatMap (s.accountOf (.ofProject p)) := by
    rw [accounts, flatMap_filter_of_nil]
    intro t ht hu
    exact h.accountOf_eq_nil ht (by simpa using hu)
  have hlog := ha.map Report.diagnostic
  rw [hfilter, List.map_flatMap] at hlog
  refine hlog.trans ((h.perm_declaredTypes.flatMap_right _).trans ?_)
  refine List.Perm.flatMap_left _ fun t ht => ?_
  have hfind := (h.mem_declaredTypes.1 ht).1
  rw [accountOf, if_neg (h.settled_iff.1 hfind).2.2]
  exact h.perm_due hfind

/-- Nothing is reported on a key that is settled or that nothing declares. -/
theorem reports_resolve_of_quiet {c : Catalog} {k : TypeKey}
    (hk : (s.find? k).isSome ∨ c.outline? k = none) : (s.resolve c k).2.reports = s.reports := by
  cases hs : s.find? k with
  | some t => rw [resolve_of_settled c hs, reports_hit]
  | none =>
    have ho : c.outline? k = none := hk.resolve_left (by simp [hs])
    have hlinks := Catalog.links_of_outline?_eq_none ho
    have hreports : c.reports k = [] := by simp [Catalog.reports, ho]
    rw [Store.resolve, Resolver.resolve_of_unsettled c hs, Machine.openKey_eq, hreports,
      Machine.run_of_last hlinks]
    simp

theorem Consistent.reports_resolveAll {c : Catalog} (h : s.Consistent c ∅) {ks : List TypeKey}
    (hks : ∀ k ∈ ks, (s.find? k).isSome ∨ c.outline? k = none) :
    (s.resolveAll c ks).2.reports = s.reports := by
  induction ks generalizing s with
  | nil => rw [resolveAll_nil]
  | cons k ks ih =>
    have ha := h.resolve k
    have hrest : ∀ j ∈ ks, ((s.resolve c k).2.find? j).isSome ∨ c.outline? j = none :=
      fun j hj => (hks j (List.mem_cons_of_mem _ hj)).imp_left ha.grows.isSome_find?
    rw [resolveAll_cons, ih ha.consistent hrest,
      reports_resolve_of_quiet (hks k List.mem_cons_self)]

end Store

namespace Compilation

theorem diagnostics_ask_of_quiet {c : Compilation} (h : c.store.Reached c.catalog) {q : Query}
    (hq : ∀ k ∈ c.lookedUp q, (c.store.find? k).isSome ∨ c.catalog.outline? k = none) :
    (c.ask q).2.diagnostics = c.diagnostics := by
  rw [ask_eq, diagnostics, diagnostics, h.consistent.reports_resolveAll hq]

/-- Once all visible keys are settled, no query adds to the log. -/
theorem diagnostics_after_of_settled {c : Compilation} (h : c.store.Reached c.catalog)
    (hs : ∀ k ∈ c.catalog.visibleKeys, (c.store.find? k).isSome) (qs : List Query) :
    (c.after qs).diagnostics = c.diagnostics := by
  induction qs generalizing c with
  | nil => rfl
  | cons q qs ih =>
    have hquiet : (c.ask q).2.diagnostics = c.diagnostics := by
      refine diagnostics_ask_of_quiet h fun k _ => ?_
      by_cases hk : k ∈ c.catalog.visibleKeys
      · exact .inl (hs k hk)
      · exact .inr ((c.catalog.outline?_eq_none_iff k).2 hk)
    have hsettled : ∀ k ∈ (c.ask q).2.catalog.visibleKeys, ((c.ask q).2.store.find? k).isSome := by
      rw [catalog_ask]
      exact fun k hk => (grows_ask h q).isSome_find? (hs k hk)
    exact (ih (reached_ask h q) hsettled).trans hquiet

end Compilation

/-- In every history the log is what is due on the declared types that are settled, each diagnostic
as often as it is due. A query that only looks up keys which are settled, or which nothing declares,
adds nothing to it, and after a check no query does. -/
theorem diagnostics_exact (s : Snapshot) (qs later : List Query) :
    let c := (Compilation.create s).after qs
    c.diagnostics.entries.toList.Perm (c.store.declaredTypes.flatMap (s.project.due c.store)) ∧
    (∀ q, (∀ k ∈ c.lookedUp q, (c.store.find? k).isSome ∨ s.project.declares k = false) →
      (c.ask q).2.diagnostics = c.diagnostics) ∧
    ((Compilation.create s).after (qs ++ .checkAll :: later)).diagnostics = c.checkAll.1 := by
  intro c
  have hreached := Compilation.reached_after s qs
  refine ⟨?_, fun q hq => ?_, ?_⟩
  · simpa [c, Compilation.diagnostics] using hreached.consistent.perm_log hreached.accounted
  · refine Compilation.diagnostics_ask_of_quiet (Compilation.reached_after_own s qs) fun k hk => ?_
    rw [Compilation.catalog_after, Catalog.outline?_ofProject_eq_none_iff]
    exact hq k hk
  · have hown := Compilation.reached_after_own s qs
    rw [Compilation.after_append]
    have hchecked := Compilation.reached_ask hown .checkAll
    refine Compilation.diagnostics_after_of_settled hchecked ?_ later
    rw [Compilation.catalog_ask]
    exact fun k hk => Compilation.isSome_of_ask_checkAll hown hk

/-- A class that is declared once more as a struct, names a base type that nothing declares, and
inherits from itself by way of another class. -/
def Snapshot.conflicting : Snapshot :=
  initial.updateAll [
    .addFile ⟨"a.cs", [⟨"", "A", .classType, [], [⟨"", "Base", 0⟩, ⟨"", "B", 0⟩], [], true⟩]⟩,
    .addFile ⟨"b.cs", [⟨"", "A", .structType, [], [⟨"", "Base", 0⟩], [], false⟩,
      ⟨"", "B", .classType, [], [⟨"", "A", 0⟩], [], false⟩]⟩]

theorem diagnostics_exact_conflicting :
    let asked := (Compilation.create .conflicting).after [.resolve ⟨"", "A", 0⟩]
    let checked := (Compilation.create .conflicting).after [.checkAll]
    let due := [.duplicateDeclaration (some "b.cs") ⟨"", "A", 0⟩ (some "a.cs"),
      .conflictingKinds (some "b.cs") ⟨"", "A", 0⟩ "class" "struct",
      .unresolvedBase (some "a.cs") ⟨"", "A", 0⟩ ⟨"", "Base", 0⟩,
      .circularBase (some "b.cs") ⟨"", "B", 0⟩ ⟨"", "A", 0⟩]
    checked.diagnostics.entries.toList = due ∧
    due.Perm (checked.store.declaredTypes.flatMap
      (Snapshot.conflicting.project.due checked.store)) ∧
    (checked.ask (.resolve ⟨"", "B", 0⟩)).2.diagnostics.entries.toList = due ∧
    (∀ k ∈ asked.lookedUp (.resolve ⟨"", "Other", 0⟩),
      (asked.store.find? k).isSome ∨ Snapshot.conflicting.project.declares k = false) ∧
    (asked.ask (.resolve ⟨"", "Other", 0⟩)).2.diagnostics = asked.diagnostics := by
  intro asked checked due
  have hlog : checked.diagnostics.entries.toList = due := by decide +kernel
  have hquiet : ∀ k ∈ asked.lookedUp (.resolve ⟨"", "Other", 0⟩),
      (asked.store.find? k).isSome ∨ Snapshot.conflicting.project.declares k = false := by
    intro k hk
    have hlooked : asked.lookedUp (.resolve ⟨"", "Other", 0⟩) = [⟨"", "Other", 0⟩] := by
      decide +kernel
    rw [hlooked, List.mem_singleton] at hk
    rw [hk]
    exact .inr (by decide +kernel)
  have hlater : (checked.ask (.resolve ⟨"", "B", 0⟩)).2.diagnostics = checked.diagnostics :=
    (diagnostics_exact .conflicting [] [.resolve ⟨"", "B", 0⟩]).2.2
  exact ⟨hlog, hlog ▸ (diagnostics_exact .conflicting [.checkAll] []).1, hlater ▸ hlog, hquiet,
    (diagnostics_exact .conflicting [.resolve ⟨"", "A", 0⟩] []).2.1 _ hquiet⟩

end TypeCatalog
