import Mathlib.Data.List.Chain
import TypeCatalog.Proofs.Reports
import TypeCatalog.Proofs.WellFormed

/-!
# Broken cycles

A link that would close a cycle is bound to a placeholder. Only a link whose base type leads back
to its subject is bound so, each such link has one report, and no other link has one. Conversely
the keys of a cycle are settled together, and one link of the cycle at least is bound to a
placeholder: numbers decrease along all other links, and they cannot decrease all the way round.
-/

namespace TypeCatalog

/-- The keys in `k :: ks` have links each to the next one, and the last has a link to `k`. -/
def Catalog.IsCycle (c : Catalog) (k : TypeKey) (ks : List TypeKey) : Prop :=
  (k :: ks ++ [k]).IsChain c.LinksTo

namespace Store

/-- A link from one key to another is bound to a cycle placeholder. -/
def Breaks (s : Store) (subject base : TypeKey) : Prop :=
  ∃ t id, s.find? subject = some t ∧ id ∈ t.bases ∧ s.get? id = some ⟨id, base, .unknown .cycle⟩

/-- The reports on a key that a base type of it leads back to the key. -/
def circularReports (s : Store) (subject base : TypeKey) : List Report :=
  (s.reports.toList.filter (·.subject = subject)).filter (·.condition = .circularBase base)

structure CyclesBroken (c : Catalog) (s : Store) : Prop where
  sound : ∀ subject base, s.Breaks subject base →
    c.LinksTo subject base ∧ c.Reaches base subject
  reported : ∀ subject base, s.Breaks subject base → ∃ link ∈ c.links subject,
    link.key = base ∧ s.circularReports subject base = [⟨link.file, subject, .circularBase base⟩]
  unreported : ∀ subject base, ¬ s.Breaks subject base → s.circularReports subject base = []
  settled : ∀ k ks, c.IsCycle k ks → (∃ j ∈ k :: ks, (s.find? j).isSome) →
    ∀ j ∈ k :: ks, (s.find? j).isSome
  broken : ∀ k ks, c.IsCycle k ks → (∃ j ∈ k :: ks, (s.find? j).isSome) →
    ∃ subject base, [subject, base] <:+: k :: ks ++ [k] ∧ s.Breaks subject base
  /-- Without cycles of links there are no placeholders for them. -/
  acyclic : (∀ k, ¬ Relation.TransGen c.LinksTo k k) →
    ∀ i t, s.get? i = some t → t.origin ≠ .unknown .cycle

end Store

/-- A log names links on cycles as such and no other links, and it names one for each key that is on
a cycle, among the keys that lead to it and back. -/
structure DiagnosticLog.ShowsCycles (c : Catalog) (log : DiagnosticLog) : Prop where
  sound : ∀ d ∈ log.entries, d.code = some "W0102" → ∃ file subject base,
    d = .circularBase file subject base ∧ c.LinksTo subject base ∧ c.Reaches base subject
  complete : ∀ k, Relation.TransGen c.LinksTo k k → ∃ file subject base,
    .circularBase file subject base ∈ log.entries ∧
      c.LinksTo subject base ∧ c.Reaches base k ∧ c.Reaches k subject

theorem transGen_of_isChain {α : Type} {R : α → α → Prop} {a b : α} {l : List α}
    (h : (a :: l ++ [b]).IsChain R) : Relation.TransGen R a b := by
  induction l generalizing a with
  | nil => exact .single (List.isChain_pair.1 h)
  | cons x l ih =>
    obtain ⟨hx, hl⟩ := List.isChain_cons_cons.1 h
    exact .head hx (ih hl)

theorem Report.exists_circularBase {r : Report} (h : r.diagnostic.code = some "W0102") :
    ∃ base, r.condition = .circularBase base := by
  obtain ⟨file, subject, condition⟩ := r
  cases condition with
  | circularBase base => exact ⟨base, rfl⟩
  | unresolvedBase base => exact absurd h (by simp [diagnostic, Diagnostic.unresolvedBase])
  | duplicateDeclaration first =>
    exact absurd h (by simp [diagnostic, Diagnostic.duplicateDeclaration])
  | conflictingKinds expected found =>
    exact absurd h (by simp [diagnostic, Diagnostic.conflictingKinds])

namespace Store.Consistent

variable {c : Catalog} {s : Store}

/-- The link that is bound to a placeholder, and where it stands among the links of its subject. -/
theorem exists_link_of_breaks {o : Std.TreeSet TypeKey} (h : s.Consistent c o)
    {subject base : TypeKey} (hb : s.Breaks subject base) : ∃ t link id,
      s.find? subject = some t ∧ (link, id) ∈ (c.links subject).zip t.bases ∧ link.key = base ∧
      s.get? id = some ⟨id, base, .unknown .cycle⟩ ∧ c.Reaches base subject := by
  obtain ⟨t, id, ht, hid, hget⟩ := hb
  obtain ⟨link, hp, u, hu, hk, hbind⟩ := exists_bound_of_mem (h.bound ht).2 hid
  cases hget.symm.trans hu
  subst hk
  refine ⟨t, link, id, ht, hp, rfl, hget, ?_⟩
  rcases hbind with hfind | ⟨-, hr⟩
  · exact absurd rfl (h.settled_iff.1 hfind).2.2
  · exact hr

theorem breaks_of_mem_zip {o : Std.TreeSet TypeKey} (h : s.Consistent c o) {k : TypeKey}
    {t u : ResolvedType} (ht : s.find? k = some t) {link : BaseLink} {id : TypeId}
    (hp : (link, id) ∈ (c.links k).zip t.bases) (hu : s.get? id = some u)
    (hb : u.binding = .unknown .cycle) : s.Breaks k link.key := by
  obtain ⟨v, hv, hk, -⟩ := (List.forall₂_iff_zip.1 (h.bound ht).2).2 hp
  cases hu.symm.trans hv
  have hid := h.id_eq hu
  obtain ⟨id', key, binding⟩ := u
  subst hid hk hb
  exact ⟨t, _, ht, (List.of_mem_zip hp).2, hu⟩

/-- A link of a settled key is bound to a placeholder or leads to a type with a smaller number. -/
theorem breaks_or_lt (h : s.Consistent c ∅) {j k : TypeKey} {t : ResolvedType}
    (ht : s.find? j = some t) (hl : c.LinksTo j k) :
    s.Breaks j k ∨ ∃ u, s.find? k = some u ∧ u.id < t.id := by
  obtain ⟨link, hmem, rfl⟩ := List.mem_map.1 hl
  obtain ⟨id, hp, u, hu, hk, hbind⟩ := exists_bound_of_mem_links (h.bound ht).2 hmem
  rcases hbind with hfind | ⟨hcycle, -⟩
  · have hget : s.get? t.id = some t := (h.settled_iff.1 ht).2.1
    have hlt := h.base_lt hget id (List.of_mem_zip hp).2
    exact .inr ⟨u, hfind, (h.id_eq hu).symm ▸ hlt⟩
  · exact .inl (h.breaks_of_mem_zip ht hp hu hcycle)

/-- Along some of the links, numbers decrease until a link is bound to a placeholder. -/
theorem exists_breaks_or_lt (h : s.Consistent c ∅) {R : TypeKey → TypeKey → Prop}
    (hR : ∀ {a b}, R a b → c.LinksTo a b) {j k : TypeKey} {t : ResolvedType}
    (ht : s.find? j = some t) (hp : Relation.TransGen R j k) :
    (∃ a b, R a b ∧ s.Breaks a b ∧ Relation.ReflTransGen R j a ∧ Relation.ReflTransGen R b k) ∨
      ∃ u, s.find? k = some u ∧ u.id < t.id := by
  induction hp with
  | single hr => exact (h.breaks_or_lt ht (hR hr)).imp_left fun hb => ⟨_, _, hr, hb, .refl, .refl⟩
  | tail hp hr ih =>
    rcases ih with ⟨a, b, hab, hb, hja, hbm⟩ | ⟨u, hu, hlt⟩
    · exact .inl ⟨a, b, hab, hb, hja, hbm.tail hr⟩
    · rcases h.breaks_or_lt hu (hR hr) with hb | ⟨v, hv, hvu⟩
      · exact .inl ⟨_, _, hr, hb, hp.to_reflTransGen, .refl⟩
      · exact .inr ⟨v, hv, Nat.lt_trans hvu hlt⟩

/-- Numbers cannot decrease all the way round, so that some link on the way is bound to a
placeholder. -/
theorem exists_breaks (h : s.Consistent c ∅) {R : TypeKey → TypeKey → Prop}
    (hR : ∀ {a b}, R a b → c.LinksTo a b) {k : TypeKey} (hs : (s.find? k).isSome)
    (hp : Relation.TransGen R k k) :
    ∃ a b, R a b ∧ s.Breaks a b ∧ Relation.ReflTransGen R k a ∧ Relation.ReflTransGen R b k := by
  obtain ⟨t, ht⟩ := Option.isSome_iff_exists.1 hs
  rcases h.exists_breaks_or_lt hR ht hp with hb | ⟨u, hu, hlt⟩
  · exact hb
  · cases ht.symm.trans hu
    exact absurd hlt (Nat.lt_irrefl _)

theorem isSome_of_isCycle (h : s.Consistent c ∅) {k : TypeKey} {ks : List TypeKey}
    (hc : c.IsCycle k ks) (hs : ∃ j ∈ k :: ks, (s.find? j).isSome) :
    ∀ j ∈ k :: ks, (s.find? j).isSome := by
  have hstep : ∀ ⦃a b⦄, c.LinksTo a b → (s.find? a).isSome → (s.find? b).isSome :=
    fun _ _ hl ha => h.isSome_of_linksTo ha hl
  obtain ⟨j, hj, hs⟩ := hs
  obtain ⟨l₁, l₂, hl⟩ := List.append_of_mem hj
  have hlast : (s.find? k).isSome := by
    have hsuffix : (j :: (l₂ ++ [k])).IsChain c.LinksTo := by
      refine List.IsChain.suffix hc ⟨l₁, ?_⟩
      rw [hl, List.append_assoc]
      rfl
    exact hsuffix.induction (fun a => (s.find? a).isSome) _ hstep (fun _ => hs) k (by simp)
  intro i hi
  exact List.IsChain.induction (fun a => (s.find? a).isSome) _ hc hstep (fun _ => hlast) i
    (List.mem_append_left _ hi)

/-- A report on a cycle belongs to a link that is bound to a placeholder. -/
theorem breaks_of_mem_reports (h : s.Consistent c ∅) (ha : s.Accounted c) {r : Report}
    (hr : r ∈ s.reports.toList) {base : TypeKey} (hb : r.condition = .circularBase base) :
    s.Breaks r.subject base := by
  obtain ⟨t, ht, hr⟩ := (h.mem_reports_iff ha).1 hr
  rcases mem_account_iff.1 hr with hr | ⟨link, id, u, hp, hu, hr⟩
  · exact absurd hb ((Catalog.subject_of_mem_reports hr).2 base)
  · obtain ⟨hcycle, rfl⟩ := ((BaseLink.subject_of_mem_reports hr).2 base).1 hb
    exact h.breaks_of_mem_zip ht hp hu hcycle

/-- In the account of a settled key, a link that is bound to a placeholder has one report. -/
theorem circular_account (h : s.Consistent c ∅) {k : TypeKey} {t : ResolvedType}
    (ht : s.find? k = some t) {link : BaseLink} {id : TypeId}
    (hp : (link, id) ∈ (c.links k).zip t.bases)
    (hid : s.get? id = some ⟨id, link.key, .unknown .cycle⟩) :
    (s.account c k t.bases).filter (·.condition = .circularBase link.key) =
      [⟨link.file, k, .circularBase link.key⟩] := by
  have hbound := List.forall₂_iff_zip.1 (h.bound ht).2
  have hown : (c.reports k).filter (·.condition = .circularBase link.key) = [] := by
    rw [List.filter_eq_nil_iff]
    intro r hr hcond
    exact (Catalog.subject_of_mem_reports hr).2 link.key (of_decide_eq_true hcond)
  have hnodup : (((c.links k).zip t.bases).map fun p => p.1.key).Nodup := by
    have hkeys := congrArg (List.map BaseLink.key) (List.map_fst_zip (Nat.le_of_eq hbound.1))
    rw [List.map_map] at hkeys
    exact hkeys ▸ c.nodup_links k
  have hothers : ∀ p ∈ (c.links k).zip t.bases, p.1.key ≠ link.key →
      (s.linkReports k p).filter (·.condition = .circularBase link.key) = [] := by
    rintro ⟨link', id'⟩ hp' hne
    obtain ⟨u, hu, -⟩ := hbound.2 hp'
    rw [List.filter_eq_nil_iff]
    intro r hr hcond
    rw [linkReports, hu] at hr
    have hiff := (BaseLink.subject_of_mem_reports hr).2 link.key
    exact hne (hiff.1 (of_decide_eq_true hcond)).2
  have hthis : (s.linkReports k (link, id)).filter (·.condition = .circularBase link.key) =
      [⟨link.file, k, .circularBase link.key⟩] := by
    simp [linkReports, hid, BaseLink.reports, ResolvedType.unknownReason?]
  rw [account, List.filter_append, hown, List.filter_flatMap, flatMap_eq_of_mem hnodup hp hothers,
    hthis, List.nil_append]

/-- A link that is bound to a placeholder has one report, with the file of the link. -/
theorem circularReports_of_breaks (h : s.Consistent c ∅) (ha : s.Accounted c)
    {subject base : TypeKey} (hb : s.Breaks subject base) : ∃ link ∈ c.links subject,
      link.key = base ∧
      s.circularReports subject base = [⟨link.file, subject, .circularBase base⟩] := by
  obtain ⟨t, link, id, ht, hp, rfl, hid, -⟩ := h.exists_link_of_breaks hb
  have hperm := (h.perm_account ha ht).filter (·.condition = .circularBase link.key)
  rw [h.circular_account ht hp hid] at hperm
  exact ⟨link, (List.of_mem_zip hp).1, rfl, List.perm_singleton.1 hperm⟩

theorem cyclesBroken (h : s.Consistent c ∅) (ha : s.Accounted c) : s.CyclesBroken c where
  sound subject base hb := by
    obtain ⟨t, link, id, -, hp, rfl, -, hr⟩ := h.exists_link_of_breaks hb
    exact ⟨List.mem_map_of_mem (List.of_mem_zip hp).1, hr⟩
  reported subject base hb := h.circularReports_of_breaks ha hb
  unreported subject base hb := by
    rw [circularReports, List.filter_eq_nil_iff]
    intro r hr hp
    obtain ⟨hmem, hsubject⟩ := List.mem_filter.1 hr
    obtain rfl := of_decide_eq_true hsubject
    exact hb (h.breaks_of_mem_reports ha hmem (of_decide_eq_true hp))
  settled k ks hc hs := h.isSome_of_isCycle hc hs
  broken k ks hc hs := by
    -- only the links of this cycle are followed, so that the broken one is among them
    have hwalk : (k :: ks ++ [k]).IsChain fun a b => [a, b] <:+: k :: ks ++ [k] := by
      rw [List.isChain_iff_forall_rel_of_append_cons_cons]
      rintro a b l₁ l₂ hl
      exact ⟨l₁, l₂, by rw [hl]; simp⟩
    have hR : ∀ {a b}, [a, b] <:+: k :: ks ++ [k] → c.LinksTo a b :=
      fun hab => List.isChain_pair.1 <| List.IsChain.infix hc hab
    obtain ⟨a, b, hab, hb, -, -⟩ := h.exists_breaks hR
      (h.isSome_of_isCycle hc hs k List.mem_cons_self) (transGen_of_isChain hwalk)
    exact ⟨a, b, hab, hb⟩
  acyclic hn i t ht ho := by
    obtain ⟨-, k, hl, hr⟩ := h.placeholder ht (t.origin_eq_cycle_iff.1 ho)
    exact hn k (Relation.TransGen.head' hl hr)

end Store.Consistent

theorem Store.Reached.cyclesBroken {c : Catalog} {s : Store} (h : s.Reached c) :
    s.CyclesBroken c :=
  h.consistent.cyclesBroken h.accounted

/-- Every report on a cycle names a link on a cycle. Once every visible key is settled, there is a
report for each cycle. -/
theorem Store.Reached.showsCycles {c : Catalog} {s : Store} (h : s.Reached c)
    (hs : ∀ k ∈ c.visibleKeys, (s.find? k).isSome) :
    (DiagnosticLog.mk (s.reports.map Report.diagnostic)).ShowsCycles c := by
  have hb := h.cyclesBroken
  constructor
  · intro d hd hcode
    obtain ⟨r, hmem, rfl⟩ := Array.mem_map.1 hd
    obtain ⟨base, hcond⟩ := r.exists_circularBase hcode
    have hbreaks := h.consistent.breaks_of_mem_reports h.accounted hmem.val hcond
    refine ⟨r.file, r.subject, base, ?_, hb.sound _ _ hbreaks⟩
    rw [Report.diagnostic, hcond]
  · intro k hk
    have hvisible : k ∈ c.visibleKeys := by
      obtain ⟨j, hl, -⟩ := Relation.TransGen.head'_iff.1 hk
      exact Catalog.mem_visibleKeys_of_linksTo hl
    obtain ⟨a, b, hl, hbreaks, hka, hbk⟩ := h.consistent.exists_breaks id (hs k hvisible) hk
    obtain ⟨link, -, -, hreport⟩ := hb.reported a b hbreaks
    refine ⟨link.file, a, b, ?_, hl, hbk, hka⟩
    have hmem : (⟨link.file, a, .circularBase b⟩ : Report) ∈ s.circularReports a b := by
      rw [hreport]
      exact List.mem_cons_self
    have hreports := (List.mem_filter.1 (List.mem_filter.1 hmem).1).1
    exact Array.mem_map.2 ⟨_, Array.mem_def.2 hreports, rfl⟩

/-- In every history the links that are bound to placeholders break all cycles, and no other links
are. Every log after a check shows all cycles and nothing else. -/
theorem cycles_broken_after (s : Snapshot) (qs later : List Query) :
    ((Compilation.create s).after qs).store.CyclesBroken (.ofProject s.project) ∧
      ((Compilation.create s).after (qs ++ .checkAll :: later)).diagnostics.ShowsCycles
        (.ofProject s.project) :=
  ⟨(Compilation.reached_after s qs).cyclesBroken,
    (Compilation.reached_after s _).showsCycles (Compilation.isSome_of_checked s qs later)⟩

/-- Of two classes that inherit from each other, the second is reported. -/
example : ((Compilation.create (Snapshot.initial.update (.addFile ⟨"a.cs",
    [⟨"", "A", .classType, [], [⟨"", "B", 0⟩], [], false⟩,
      ⟨"", "B", .classType, [], [⟨"", "A", 0⟩], [], false⟩]⟩))).checkAll.1.withCode "W0102").map
        Diagnostic.subject = [⟨"", "B", 0⟩] := by
  decide +kernel

end TypeCatalog
