import TypeCatalog.Proofs.History
import TypeCatalog.Proofs.Pruning

/-!
# Strict mode and pruned projects

A project in strict mode answers every history of queries as the pruned project does, which has
strict mode off. Look-ups in the two go through the same moves, and all that they find is the same,
numbers and counts included, but for the places of the parts. Only the project in strict mode
reports the declarations that are left out.
-/

namespace TypeCatalog

def DiagnosticLog.withoutCode (log : DiagnosticLog) (code : String) : DiagnosticLog :=
  ⟨log.entries.filter (·.code ≠ some code)⟩

theorem Report.isDuplicate_eq_decide (r : Report) :
    r.isDuplicate = decide (r.diagnostic.code = some "W0103") := by
  obtain ⟨file, subject, condition⟩ := r
  cases condition <;> rfl

/-- The places in the types that a query names do not matter to the answer. -/
def Query.relocate (f : DeclId → DeclId) : Query → Query
  | .directBases t => .directBases (t.relocate f)
  | .closure t => .closure (t.relocate f)
  | .derives t base => .derives (t.relocate f) (base.relocate f)
  | q => q

namespace Answer

def relocate (f : DeclId → DeclId) : Answer → Answer
  | .type t => .type (t.relocate f)
  | .found t => .found (t.map (·.relocate f))
  | .types ts => .types (ts.map (·.relocate f))
  | a => a

/-- An answer that says nothing of declarations which are not meant to be merged. -/
def muted : Answer → Answer
  | .log l => .log (l.withoutCode "W0103")
  | a => a

end Answer

/-- The answers to a sequence of queries, each put to the compilation that the one before left. -/
def Compilation.answers (c : Compilation) : List Query → List Answer
  | [] => []
  | q :: qs => (c.ask q).1 :: answers (c.ask q).2 qs

/-- Two catalogs that say the same, but for the places of declarations and for the reports on
declarations that are not meant to be merged, of which only the first may have any. -/
structure Catalog.Mirrors (f : DeclId → DeclId) (c c' : Catalog) : Prop where
  outline? : ∀ k, (c.outline? k).map Outline.muted = (c'.outline? k).map (Outline.relocate f)
  visibleKeys : c.visibleKeys = c'.visibleKeys

structure Store.Mirrors (f : DeclId → DeclId) (s s' : Store) : Prop where
  arena : s.arena = s'.arena.map (ResolvedType.relocate f)
  find? : ∀ k, s.find? k = (s'.find? k).map (ResolvedType.relocate f)
  reports : s.reports.toList.filter (!·.isDuplicate) = s'.reports.toList
  count : s.count = s'.count

variable {f : DeclId → DeclId}

namespace Catalog.Mirrors

variable {c c' : Catalog}

theorem links (h : c.Mirrors f c') (k : TypeKey) : c.links k = c'.links k := by
  have hlinks := congrArg (Option.map Outline.links) (h.outline? k)
  rw [Option.map_map, Option.map_map] at hlinks
  exact congrArg (Option.getD · []) hlinks

theorem reports (h : c.Mirrors f c') (k : TypeKey) :
    (c.reports k).filter (!·.isDuplicate) = c'.reports k := by
  have hreports := congrArg (fun o => (o.map Outline.reports).getD []) (h.outline? k)
  simp only [Option.map_map] at hreports
  rw [Catalog.reports, Catalog.reports]
  cases ho : c.outline? k <;> simp_all [Function.comp_def, Outline.muted, Outline.relocate]

theorem definition (h : c.Mirrors f c') (k : TypeKey) : (c.outline? k).map Outline.definition =
    ((c'.outline? k).map Outline.definition).map (Definition.relocate f) := by
  have hdefinition := congrArg (Option.map Outline.definition) (h.outline? k)
  rw [Option.map_map, Option.map_map] at hdefinition
  rw [Option.map_map]
  exact hdefinition

end Catalog.Mirrors

namespace Store

theorem Mirrors.empty (f : DeclId → DeclId) : Mirrors f {} {} where
  arena := by simp
  find? k := by simp [Store.find?]
  reports := rfl
  count := rfl

variable {s s' : Store}

namespace Mirrors

theorem get? (h : s.Mirrors f s') (id : TypeId) :
    s.get? id = (s'.get? id).map (ResolvedType.relocate f) := by
  simp [Store.get?, h.arena]

theorem next (h : s.Mirrors f s') (k : TypeKey) (b : Binding) :
    s.next k (b.relocate f) = (s'.next k b).relocate f := by
  simp [Store.next, ResolvedType.relocate, h.arena]

theorem id_next (h : s.Mirrors f s') (j k : TypeKey) (a b : Binding) :
    (s.next j a).id = (s'.next k b).id := by
  simp [h.arena]

theorem hit (h : s.Mirrors f s') : s.hit.Mirrors f s'.hit :=
  ⟨h.arena, h.find?, h.reports, by simp [Store.hit, h.count]⟩

theorem miss (h : s.Mirrors f s') : s.miss.Mirrors f s'.miss :=
  ⟨h.arena, h.find?, h.reports, by simp [Store.miss, h.count]⟩

theorem report (h : s.Mirrors f s') {r : Report} (hr : r.isDuplicate = false) :
    (s.report r).Mirrors f (s'.report r) :=
  ⟨h.arena, h.find?, by simp [h.reports, hr], h.count⟩

theorem reportAll (h : s.Mirrors f s') {rs rs' : List Report}
    (hrs : rs.filter (!·.isDuplicate) = rs') : (s.reportAll rs).Mirrors f (s'.reportAll rs') where
  arena := by simpa using h.arena
  find? k := by simpa using h.find? k
  reports := by simp [h.reports, hrs]
  count := by
    rw [reportAll_eq, reportAll_eq]
    exact h.count

theorem push (h : s.Mirrors f s') (t : ResolvedType) :
    (s.push (t.relocate f)).Mirrors f (s'.push t) :=
  ⟨by simp [h.arena], h.find?, h.reports, h.count⟩

theorem push_next (h : s.Mirrors f s') (k : TypeKey) (b : Binding) :
    (s.push (s.next k (b.relocate f))).Mirrors f (s'.push (s'.next k b)) := by
  rw [h.next]
  exact h.push _

theorem settle (h : s.Mirrors f s') (t : ResolvedType) :
    (s.settle (t.relocate f)).Mirrors f (s'.settle t) where
  arena := h.arena
  find? k := by
    rw [find?_settle, find?_settle, ResolvedType.key_relocate]
    split
    · rfl
    · exact h.find? k
  reports := h.reports
  count := h.count

/-- Closing a frame in both stores. -/
theorem settle_next (h : s.Mirrors f s') (k : TypeKey) (b : Binding) :
    ((s.push (s.next k (b.relocate f))).settle (s.next k (b.relocate f))).Mirrors f
      ((s'.push (s'.next k b)).settle (s'.next k b)) := by
  rw [h.next]
  exact (h.push _).settle _

theorem reportMissing (h : s.Mirrors f s') (subject : TypeKey) (link : BaseLink)
    (t : ResolvedType) :
    (s.reportMissing subject link (t.relocate f)).Mirrors f (s'.reportMissing subject link t) := by
  unfold Store.reportMissing
  rw [ResolvedType.unknownReason?_relocate]
  split
  · exact h.report rfl
  · exact h

end Mirrors
end Store

namespace Frame

def relocate (f : DeclId → DeclId) (fr : Frame) : Frame :=
  { fr with definition? := fr.definition?.map (Definition.relocate f) }

theorem binding_relocate (fr : Frame) : (fr.relocate f).binding = fr.binding.relocate f := by
  obtain ⟨k, definition?, bound, links⟩ := fr
  cases definition? <;> rfl

theorem bind_relocate (fr : Frame) {t u : ResolvedType} (h : t.id = u.id) :
    (fr.relocate f).bind t = (fr.bind u).relocate f := by
  simp [bind, relocate, h]

end Frame

def Waiting.relocate (f : DeclId → DeclId) (w : Waiting) : Waiting :=
  { w with frame := w.frame.relocate f }

namespace Machine

/-- Two look-ups that stand at the same point. -/
structure Mirrors (f : DeclId → DeclId) (m m' : Machine) : Prop where
  store : m.store.Mirrors f m'.store
  opened : m.opened = m'.opened
  current : m.current = m'.current.relocate f
  waiting : m.waiting = m'.waiting.map (Waiting.relocate f)

variable {c c' : Catalog}

theorem openKey_mirrors (hc : c.Mirrors f c') {s s' : Store} (h : s.Mirrors f s')
    (o : Std.TreeSet TypeKey) (k : TypeKey) (waiting : List Waiting) :
    (openKey c s o k (waiting.map (Waiting.relocate f))).Mirrors f (openKey c' s' o k waiting) := by
  rw [openKey_eq, openKey_eq, hc.links, hc.definition]
  exact ⟨h.miss.reportAll (hc.reports k), rfl, rfl, rfl⟩

/-- Each move of one look-up is a move of the other. -/
theorem exists_move_of_mirrors (hc : c.Mirrors f c') {m n n' : Machine} (h : Move c' n n')
    (hm : m.Mirrors f n) : ∃ m', Move c m m' ∧ m'.Mirrors f n' := by
  obtain ⟨s, o, current, waiting⟩ := m
  obtain ⟨hs, rfl, rfl, rfl⟩ := hm
  cases h with
  | resume s' o fr parent link waiting hf =>
    have ht := hs.next fr.key fr.binding
    have hstore := (hs.settle_next fr.key fr.binding).reportMissing parent.key link
      (s'.next fr.key fr.binding)
    rw [← ht, ← Frame.binding_relocate] at hstore
    exact ⟨_, .resume s o _ (parent.relocate f) link _ hf, hstore, rfl,
      parent.bind_relocate (hs.id_next _ _ _ _), rfl⟩
  | cycle s' o k d bound link links waiting ho =>
    have hreport := hs.report (r := ⟨link.file, k, .circularBase link.key⟩) rfl
    exact ⟨_, .cycle s o k _ bound link links _ ho, hreport.push_next link.key (.unknown .cycle),
      rfl, Frame.bind_relocate ⟨k, d, bound, links⟩ (hs.id_next _ _ _ _), rfl⟩
  | reuse s' o k d bound link links waiting t ho hfind =>
    have hfind' : s.find? link.key = some (t.relocate f) := by rw [hs.find?, hfind]; rfl
    exact ⟨_, .reuse s o k _ bound link links _ _ ho hfind',
      hs.hit.reportMissing k link t, rfl, rfl, rfl⟩
  | enter s' o k d bound link links waiting ho hnone =>
    have hnone' : s.find? link.key = none := by rw [hs.find?, hnone]; rfl
    exact ⟨_, .enter s o k _ bound link links _ ho hnone',
      openKey_mirrors hc hs o link.key (⟨⟨k, d, bound, links⟩, link⟩ :: waiting)⟩

theorem run_mirrors (hc : c.Mirrors f c') {m n : Machine} (h : m.Mirrors f n) :
    (run c m).1 = (run c' n).1.relocate f ∧
      (run c m).2.store.Mirrors f (run c' n).2.store := by
  -- the first run is always at a machine that mirrors the one of the second, with the same end
  have hmove : ∀ {n₁ n₂}, Move c' n₁ n₂ → (∃ m', m'.Mirrors f n₁ ∧ run c m = run c m') →
      ∃ m', m'.Mirrors f n₂ ∧ run c m = run c m' := by
    rintro n₁ n₂ hn ⟨m', hm', hrun⟩
    obtain ⟨m'', hm, hm''⟩ := exists_move_of_mirrors hc hn hm'
    exact ⟨m'', hm'', hrun.trans (run_of_move hm)⟩
  obtain ⟨s', o, fr, hf, ⟨m', hm, hrun⟩, hrun'⟩ := run_ends hmove ⟨m, h, rfl⟩
  have hlast : m' = ⟨m'.store, o, fr.relocate f, []⟩ := by
    obtain ⟨s, o', current, waiting⟩ := m'
    exact congr (congrArg₂ (Machine.mk s) hm.opened hm.current) hm.waiting
  have hpending : (fr.relocate f).pending = [] := hf
  rw [hrun, hrun', hlast, run_of_last hpending, fr.binding_relocate]
  exact ⟨hm.store.next fr.key fr.binding, hm.store.settle_next fr.key fr.binding⟩

end Machine

namespace Store.Mirrors

variable {c c' : Catalog} {s s' : Store}

theorem resolve (hc : c.Mirrors f c') (h : s.Mirrors f s') (k : TypeKey) :
    (s.resolve c k).1 = (s'.resolve c' k).1.relocate f ∧
      (s.resolve c k).2.Mirrors f (s'.resolve c' k).2 := by
  cases hs' : s'.find? k with
  | some t =>
    have hs : s.find? k = some (t.relocate f) := by rw [h.find?, hs']; rfl
    rw [resolve_of_settled c hs, resolve_of_settled c' hs']
    exact ⟨rfl, h.hit⟩
  | none =>
    have hs : s.find? k = none := by rw [h.find?, hs']; rfl
    rw [Store.resolve, Store.resolve, Resolver.resolve_of_unsettled c hs,
      Resolver.resolve_of_unsettled c' hs']
    exact Machine.run_mirrors hc (Machine.openKey_mirrors hc h ∅ k [])

theorem resolveAll (hc : c.Mirrors f c') (h : s.Mirrors f s') (ks : List TypeKey) :
    (s.resolveAll c ks).1 = (s'.resolveAll c' ks).1.map (ResolvedType.relocate f) ∧
      (s.resolveAll c ks).2.Mirrors f (s'.resolveAll c' ks).2 := by
  induction ks generalizing s s' with
  | nil => exact ⟨by simp [resolveAll_nil], h⟩
  | cons k ks ih =>
    obtain ⟨ht, hs⟩ := h.resolve hc k
    obtain ⟨hts, hrest⟩ := ih hs
    rw [resolveAll_cons, resolveAll_cons]
    exact ⟨by simp [ht, hts], hrest⟩

theorem walk (h : s.Mirrors f s') (met : Std.TreeSet TypeId) (found : Array ResolvedType)
    (queue : List TypeId) : s.walk met (found.map (ResolvedType.relocate f)) queue =
      (s'.walk met found queue).map (ResolvedType.relocate f) := by
  induction met, found, queue using Store.walk.induct s' with
  | case1 met found => simp [Store.walk]
  | case2 met found id queue hmet ih => rw [walk_of_met hmet, walk_of_met hmet, ih]
  | case3 met found id queue hmet hnone ih =>
    have hnone' : s.get? id = none := by rw [h.get?, hnone]; rfl
    rw [walk_of_get?_eq_none hmet hnone, walk_of_get?_eq_none hmet hnone', ih]
  | case4 met found id queue hmet t ht ih =>
    have ht' : s.get? id = some (t.relocate f) := by rw [h.get?, ht]; rfl
    rw [walk_of_get? hmet ht, walk_of_get? hmet ht', ← ih]
    simp

variable (g : DeclId → DeclId)

theorem closure (h : s.Mirrors f s') (t : ResolvedType) :
    s.closure (t.relocate g) = (s'.closure t).map (ResolvedType.relocate f) := by
  have hwalk := h.walk (Std.TreeSet.insert ∅ t.id) #[] t.bases
  simp only [Array.map_empty] at hwalk
  simp [Store.closure, hwalk]

theorem derives (h : s.Mirrors f s') (t base : ResolvedType) :
    s.derives (t.relocate g) (base.relocate g) = s'.derives t base := by
  rw [Store.derives, Store.derives, h.closure, List.any_map]
  rfl

theorem directBases (h : s.Mirrors f s') (t : ResolvedType) :
    s.directBases (t.relocate g) = (s'.directBases t).map (ResolvedType.relocate f) := by
  have hget : s.get? = fun id => (s'.get? id).map (ResolvedType.relocate f) := funext h.get?
  rw [Store.directBases, Store.directBases, ResolvedType.bases_relocate, hget, List.map_filterMap]

end Store.Mirrors

namespace Compilation

structure Mirrors (f : DeclId → DeclId) (c c' : Compilation) : Prop where
  catalog : c.catalog.Mirrors f c'.catalog
  store : c.store.Mirrors f c'.store

namespace Mirrors

variable {c c' : Compilation}

theorem diagnostics (h : c.Mirrors f c') :
    c.diagnostics.withoutCode "W0103" = c'.diagnostics := by
  have hcode : (fun r : Report => decide (r.diagnostic.code ≠ some "W0103")) =
      (!·.isDuplicate) := by
    funext r
    rw [r.isDuplicate_eq_decide, decide_not]
  have hentries := congrArg (List.map Report.diagnostic) h.store.reports
  rw [DiagnosticLog.withoutCode, Compilation.diagnostics, Compilation.diagnostics]
  congr 1
  rw [← Array.toList_inj, Array.toList_filter, Array.toList_map, List.filter_map, Array.toList_map,
    ← hentries]
  exact congrArg (fun keep => (c.store.reports.toList.filter keep).map Report.diagnostic) hcode

theorem lookup (h : c.Mirrors f c') (k : TypeKey) :
    (c.lookup k).1 = (c'.lookup k).1.relocate f ∧ (c.lookup k).2.Mirrors f (c'.lookup k).2 := by
  obtain ⟨ht, hs⟩ := h.store.resolve h.catalog k
  exact ⟨ht, h.catalog, hs⟩

theorem allTypes (h : c.Mirrors f c') :
    c.allTypes.1 = c'.allTypes.1.map (ResolvedType.relocate f) ∧
      c.allTypes.2.Mirrors f c'.allTypes.2 := by
  obtain ⟨hts, hs⟩ := h.store.resolveAll h.catalog c'.catalog.visibleKeys
  rw [Compilation.allTypes, Compilation.allTypes, h.catalog.visibleKeys]
  exact ⟨by simp [hts], h.catalog, hs⟩

/-- Whatever is asked, the two answers say the same, and so will all that come later. -/
theorem ask (h : c.Mirrors f c') (g : DeclId → DeclId) (q : Query) :
    (c.ask (q.relocate g)).1.muted = (c'.ask q).1.relocate f ∧
      (c.ask (q.relocate g)).2.Mirrors f (c'.ask q).2 := by
  cases q with
  | resolve k =>
    cases hk : k.fault? with
    | some fault =>
      simp only [Query.relocate, Compilation.ask, resolve_of_fault hk]
      exact ⟨rfl, h⟩
    | none =>
      obtain ⟨ht, hl⟩ := h.lookup k
      simp only [Query.relocate, Compilation.ask, resolve_of_sound hk]
      exact ⟨congrArg Answer.type ht, hl⟩
  | memberType m =>
    cases hm : m.sited.member.returnType with
    | none =>
      simp only [Query.relocate, Compilation.ask, memberType, hm]
      exact ⟨rfl, h⟩
    | some k =>
      obtain ⟨ht, hl⟩ := h.lookup k
      simp only [Query.relocate, Compilation.ask, memberType, hm]
      exact ⟨congrArg (Answer.found ∘ some) ht, hl⟩
  | allTypes => exact ⟨congrArg Answer.types h.allTypes.1, h.allTypes.2⟩
  | checkAll => exact ⟨congrArg Answer.log h.allTypes.2.diagnostics, h.allTypes.2⟩
  | get id => exact ⟨congrArg Answer.found (h.store.get? id), h⟩
  | directBases t => exact ⟨congrArg Answer.types (h.store.directBases g t), h⟩
  | closure t => exact ⟨congrArg Answer.types (h.store.closure g t), h⟩
  | derives t base => exact ⟨congrArg Answer.truth (h.store.derives g t base), h⟩
  | diagnostics => exact ⟨congrArg Answer.log h.diagnostics, h⟩
  | counts =>
    have hsize : c.size = c'.size := by simp [size, h.store.arena]
    exact ⟨congrArg₂ Answer.counts h.store.count hsize, h⟩

theorem after (h : c.Mirrors f c') (g : DeclId → DeclId) (qs : List Query) :
    (c.after (qs.map (Query.relocate g))).Mirrors f (c'.after qs) := by
  induction qs generalizing c c' with
  | nil => exact h
  | cons q qs ih => exact ih (h.ask g q).2

theorem answers (h : c.Mirrors f c') (g : DeclId → DeclId) (qs : List Query) :
    (c.answers (qs.map (Query.relocate g))).map Answer.muted =
      (c'.answers qs).map (Answer.relocate f) := by
  induction qs generalizing c c' with
  | nil => rfl
  | cons q qs ih =>
    obtain ⟨hanswer, hnext⟩ := h.ask g q
    simp only [List.map_cons, Compilation.answers, hanswer, ih hnext]

end Mirrors
end Compilation

/-- The snapshot without the declarations that strict mode leaves out, and with strict mode off. -/
def Snapshot.pruned (s : Snapshot) : Snapshot :=
  { s with project := s.project.pruned }

theorem Compilation.mirrors_pruned {s : Snapshot} (h : s.project.options.strictPartial = true) :
    (create s).Mirrors s.project.original (create s.pruned) where
  catalog := ⟨Catalog.muted_outline? h, Catalog.visibleKeys_pruned.symm⟩
  store := .empty _

/-- In strict mode every history has the answers that it has for the pruned snapshot, but for the
reports on the declarations that are left out: the pruned snapshot has none. The parts are at the
places where their declarations stood before the others were left out. Whatever places the types
have which a query names, the answer is the same. -/
theorem strict_eq_pruned (s : Snapshot) (h : s.project.options.strictPartial = true)
    (g : DeclId → DeclId) (qs : List Query) :
    let c := Compilation.create s
    let c' := Compilation.create s.pruned
    (c.answers (qs.map (Query.relocate g))).map Answer.muted =
      (c'.answers qs).map (Answer.relocate s.project.original) ∧
    (c.after (qs.map (Query.relocate g))).diagnostics.withoutCode "W0103" =
      (c'.after qs).diagnostics ∧
    (c'.after qs).diagnostics.withCode "W0103" = [] ∧
    (Part.ofFiles s.pruned.project.files.toList).map (Part.relocate s.project.original) =
      (Part.ofFiles s.project.files.toList).filter (!s.project.excludes ·) := by
  intro c c'
  have hc : c.Mirrors s.project.original c' := Compilation.mirrors_pruned h
  have hlog := (hc.after g qs).diagnostics
  refine ⟨hc.answers g qs, hlog, ?_, s.project.map_relocate_ofFiles_pruned⟩
  rw [← hlog, DiagnosticLog.withCode, DiagnosticLog.withoutCode, List.filter_eq_nil_iff]
  intro d hd hcode
  rw [Array.toList_filter, List.mem_filter] at hd
  simp [of_decide_eq_true hcode] at hd

/-- Strict mode leaves out the second declaration of one class, which is not partial, and that of
another, whose first declaration is not partial. The two classes inherit from each other. -/
def Snapshot.mixed : Snapshot :=
  initial.updateAll [
    .setOptions { strictPartial := true },
    .addFile ⟨"a.cs", [⟨"", "A", .classType, [], [⟨"", "B", 0⟩], [], true⟩,
      ⟨"", "A", .classType, [], [⟨"", "Other", 0⟩], [], false⟩,
      ⟨"", "B", .classType, [], [⟨"", "A", 0⟩], [], false⟩]⟩,
    .addFile ⟨"b.cs", [⟨"", "B", .classType, [], [], [], true⟩,
      ⟨"", "A", .structType, [], [⟨"", "Base", 0⟩], [], true⟩]⟩]

theorem strict_eq_pruned_mixed :
    let qs := [.resolve ⟨"", "A", 0⟩, .checkAll, .counts]
    let c := Compilation.create .mixed
    let c' := Compilation.create Snapshot.mixed.pruned
    Snapshot.mixed.project.options.strictPartial = true ∧
    (c.answers qs).map Answer.muted =
      (c'.answers qs).map (Answer.relocate Snapshot.mixed.project.original) ∧
    Snapshot.mixed.project.original ⟨1, 0⟩ = ⟨1, 1⟩ ∧
    ((c.after qs).diagnostics.withCode "W0103").map Diagnostic.subject =
      [⟨"", "A", 0⟩, ⟨"", "B", 0⟩] ∧
    (c.after qs).diagnostics.withoutCode "W0103" = (c'.after qs).diagnostics := by
  intro qs c c'
  have h : Snapshot.mixed.project.options.strictPartial = true := by decide
  obtain ⟨hanswers, hlog, -, -⟩ := strict_eq_pruned .mixed h id qs
  exact ⟨h, hanswers, by decide +kernel, by decide +kernel, hlog⟩

end TypeCatalog
