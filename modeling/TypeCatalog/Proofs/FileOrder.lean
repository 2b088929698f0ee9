import TypeCatalog.Proofs.Events
import TypeCatalog.Proofs.Locality
import TypeCatalog.Proofs.References

/-!
# The order of files

Where all declarations of a key are merged, the order of the files shows in the kind of the type,
which is that of the first declaration, and in the order of its files, members and base types, but
in nothing else. Which base types a check reports as missing hangs on no order at all, and a key
that a single file declares is the same in every order.
-/

namespace TypeCatalog

/-- Two rosters hold the same values under the same identities if one rearranges the other. -/
theorem Roster.find?_eq_iff_perm {α ι : Type} [Identified α ι] [DecidableEq ι] {r r' : Roster α} :
    (∀ i, r'.find? i = r.find? i) ↔ r'.toList.Perm r.toList := by
  rw [List.perm_ext_iff_of_nodup (r'.distinct.of_map _) (r.distinct.of_map _)]
  constructor
  · intro h a
    have ha : r'.find? (identity a) = some a ↔ r.find? (identity a) = some a := by rw [h]
    simpa [find?_eq_some_iff] using ha
  · intro h i
    refine Option.ext fun a => ?_
    rw [find?_eq_some_iff, find?_eq_some_iff, h]

theorem perm_eraseDups {κ : Type} [Ord κ] [Std.TransOrd κ] [Std.LawfulEqOrd κ] [DecidableEq κ]
    {l l' : List κ} (h : l'.Perm l) : l'.eraseDups.Perm l.eraseDups := by
  rw [← distinct_eq_eraseDups, ← distinct_eq_eraseDups,
    List.perm_ext_iff_of_nodup (nodup_distinct _) (nodup_distinct _)]
  simp [h.mem_iff]

/-- The same origin, but for the order of files. -/
def Origin.Alike : Origin → Origin → Prop
  | .source files, .source files' => files.Perm files'
  | origin, origin' => origin = origin'

theorem Origin.Alike.refl : (origin : Origin) → origin.Alike origin
  | .source files => List.Perm.refl files
  | .assembly _ | .unknown _ => rfl

/-- The same files, members and base types in another order. The kind may differ. -/
structure Content.Rearranges (content' content : Content) : Prop where
  origin : content'.origin.Alike content.origin
  members : content'.members.Perm content.members
  bases : content'.bases.Perm content.bases

theorem Content.rearranges_of_unplaced_eq {content content' : Content}
    (h : content'.unplaced = content.unplaced) : content'.Rearranges content := by
  obtain ⟨-, horigin, hmembers, hbases⟩ := unplaced_eq_iff.1 h
  exact ⟨horigin ▸ .refl _, .of_eq hmembers, .of_eq hbases⟩

namespace Project

variable {p p' : Project} {k : TypeKey}

theorem rooted_default (k : TypeKey) (kind : TypeKind) (bases : List TypeKey) :
    rooted {} k kind bases = bases.eraseDups := by
  cases bases <;> rfl

/-- Where no root is implied, the base types of a key are those that are named for it. -/
theorem bases_content (h : p.options = {}) : (p.content k).bases = p.named k := by
  rw [content, named, kept, h]
  cases p.partsOf k with
  | cons first rest => exact rooted_default ..
  | nil =>
    cases p.exporter? k with
    | none => rfl
    | some a =>
      cases hd : a.find? k with
      | none => simp [hd]
      | some d => simp [hd, rooted_default]

/-- Where all declarations are merged, they are what the content of the key is made of. -/
theorem content_of_declared (h : p.options = {}) (hp : p.partsOf k ≠ []) :
    (p.content k).origin = .source ((p.partsOf k).map Part.file).eraseDups ∧
    (p.content k).members = (p.partsOf k).flatMap (fun part =>
      part.declaration.members.map (⟨·, some part.file⟩)) ∧
    (p.content k).bases = ((p.partsOf k).flatMap (·.declaration.bases)).eraseDups := by
  obtain ⟨first, rest, hparts⟩ := List.exists_cons_of_ne_nil hp
  rw [content, hparts, h]
  exact ⟨rfl, rfl, rooted_default ..⟩

section Order

variable (hfiles : p'.files.toList.Perm p.files.toList)
include hfiles

theorem perm_map_unplaced_partsOf (k : TypeKey) :
    ((p'.partsOf k).map Part.unplaced).Perm ((p.partsOf k).map Part.unplaced) := by
  rw [map_unplaced_partsOf, map_unplaced_partsOf]
  exact (hfiles.filter _).flatMap_right _

/-- What does not tell places is the same for the declarations of a key, but for their order. -/
theorem perm_flatMap_partsOf {β : Type} {f : Part → List β} (hf : ∀ part, f part.unplaced = f part)
    (k : TypeKey) : ((p'.partsOf k).flatMap f).Perm ((p.partsOf k).flatMap f) := by
  have hperm := (perm_map_unplaced_partsOf hfiles k).flatMap_right f
  simpa [List.flatMap_map, hf] using hperm

theorem declares_eq_of_perm (hreferences : p'.references = p.references) (k : TypeKey) :
    p'.declares k = p.declares k := by
  rw [declares, declares, hreferences, hfiles.any_eq]

variable (hreferences : p'.references = p.references) (hoptions : p.options = {})
  (hoptions' : p'.options = {})
include hreferences hoptions hoptions'

theorem rearranges_content (k : TypeKey) : (p'.content k).Rearranges (p.content k) := by
  have hparts := perm_map_unplaced_partsOf hfiles k
  by_cases hp : p.partsOf k = []
  · have hp' : p'.partsOf k = [] := by simpa [hp] using hparts
    exact Content.rearranges_of_unplaced_eq
      (unplaced_content_eq (hoptions'.trans hoptions.symm) hreferences (by rw [hp, hp']))
  · have hp' : p'.partsOf k ≠ [] := fun hnil => hp (by simpa [hnil] using hparts)
    obtain ⟨horigin, hmembers, hbases⟩ := content_of_declared hoptions hp
    obtain ⟨horigin', hmembers', hbases'⟩ := content_of_declared hoptions' hp'
    constructor
    · rw [horigin, horigin', List.map_eq_flatMap, List.map_eq_flatMap]
      exact perm_eraseDups (perm_flatMap_partsOf hfiles (fun _ => rfl) k)
    · rw [hmembers, hmembers']
      exact perm_flatMap_partsOf hfiles (fun _ => rfl) k
    · rw [hbases, hbases']
      exact perm_eraseDups (perm_flatMap_partsOf hfiles (fun _ => rfl) k)

/-- The files that declare a key have one order only if there is at most one of them. -/
theorem unplaced_content_of_length_le_one
    (hk : (p.files.toList.filter (·.declares k)).length ≤ 1) :
    (p'.content k).unplaced = (p.content k).unplaced := by
  have hperm := hfiles.filter (·.declares k)
  have hsame : p'.files.toList.filter (·.declares k) = p.files.toList.filter (·.declares k) := by
    cases hl : p.files.toList.filter (·.declares k) with
    | nil =>
      rw [hl] at hperm
      exact hperm.eq_nil
    | cons file rest =>
      rw [hl, List.length_cons] at hk
      obtain rfl : rest = [] := List.length_eq_zero_iff.1 (by omega)
      rw [hl] at hperm
      exact List.perm_singleton.1 hperm
  refine unplaced_content_eq (hoptions'.trans hoptions.symm) hreferences ?_
  rw [map_unplaced_partsOf, map_unplaced_partsOf, hsame]

end Order
end Project

namespace Store

/-- A base type of a key was reported as missing, which is the condition of the code W0101. -/
def ReportsMissing (s : Store) (k base : TypeKey) : Prop :=
  ∃ file, ⟨file, k, .unresolvedBase base⟩ ∈ s.reports.toList

variable {p : Project} {o : Std.TreeSet TypeKey} {s : Store} {k base : TypeKey}

theorem mem_reports_unresolvedBase {link : BaseLink} {u : ResolvedType} {file : Option String} :
    ⟨file, k, .unresolvedBase base⟩ ∈ link.reports k u ↔
      u.binding = .unknown .unresolved ∧ link.explicit ∧ link.file = file ∧ link.key = base := by
  obtain ⟨id, key, binding⟩ := u
  unfold BaseLink.reports ResolvedType.unknownReason?
  cases binding with
  | declared d bases => simp
  | unknown reason =>
    cases reason with
    | cycle => simp
    | unresolved => cases he : link.explicit <;> simp [eq_comm]

/-- A link leads to a type that is missing exactly if nothing declares the key that it names. -/
theorem Consistent.exists_binding_of_mem_zip (h : s.Consistent (.ofProject p) o)
    {t : ResolvedType} (ht : s.find? k = some t) {link : BaseLink} {id : TypeId}
    (hp : (link, id) ∈ ((Catalog.ofProject p).links k).zip t.bases) :
    ∃ u, s.get? id = some u ∧
      (u.binding = .unknown .unresolved ↔ p.declares link.key = false) := by
  obtain ⟨u, hu, -, hbind⟩ := (List.forall₂_iff_zip.1 (h.bound ht).2).2 hp
  refine ⟨u, hu, ?_⟩
  rcases hbind with hfind | ⟨hcycle, hreaches⟩
  · exact h.binding_eq_unresolved_iff hfind
  · have hdeclared := declares_of_reaches (List.mem_map_of_mem (List.of_mem_zip hp).1) hreaches
    simp [hcycle, hdeclared]

/-- Of a settled key the named base types that nothing declares are reported, and no others. -/
theorem Consistent.reportsMissing_iff (h : s.Consistent (.ofProject p) o)
    (ha : s.Accounted (.ofProject p)) {t : ResolvedType} (ht : s.find? k = some t) :
    s.ReportsMissing k base ↔ base ∈ p.named k ∧ p.declares base = false := by
  rw [← p.map_filter_explicit_links]
  constructor
  · rintro ⟨file, hr⟩
    obtain ⟨t', ht', hr⟩ := (h.mem_reports_iff ha).1 hr
    obtain rfl : t = t' := Option.some.inj (ht.symm.trans ht')
    rcases mem_account_iff.1 hr with hr | ⟨link, id, u, hp, hu, hr⟩
    · have hdue := List.mem_map_of_mem (f := Report.diagnostic) hr
      rw [p.map_diagnostic_reports] at hdue
      rcases List.mem_append.1 hdue with hdue | hdue
      · exact absurd (Project.of_mem_dueDuplicates hdue).1
          (by simp [Report.diagnostic, Diagnostic.unresolvedBase])
      · exact absurd (Project.of_mem_dueConflicts hdue).1
          (by simp [Report.diagnostic, Diagnostic.unresolvedBase])
    · obtain ⟨hb, he, -, rfl⟩ := mem_reports_unresolvedBase.1 hr
      obtain ⟨u', hu', hmissing⟩ := h.exists_binding_of_mem_zip ht hp
      obtain rfl : u = u' := Option.some.inj (hu.symm.trans hu')
      exact ⟨List.mem_map_of_mem (List.mem_filter.2 ⟨(List.of_mem_zip hp).1, he⟩), hmissing.1 hb⟩
  · rintro ⟨hnamed, hdeclared⟩
    obtain ⟨link, hlink, rfl⟩ := List.mem_map.1 hnamed
    obtain ⟨hmem, he⟩ := List.mem_filter.1 hlink
    obtain ⟨id, hp, -⟩ := exists_bound_of_mem_links (h.bound ht).2 hmem
    obtain ⟨u, hu, hmissing⟩ := h.exists_binding_of_mem_zip ht hp
    have hr : ⟨link.file, k, .unresolvedBase link.key⟩ ∈ link.reports k u :=
      mem_reports_unresolvedBase.2 ⟨hmissing.2 hdeclared, he, rfl, rfl⟩
    exact ⟨link.file, (h.mem_reports_iff ha).2
      ⟨t, ht, mem_account_iff.2 (.inr ⟨link, id, u, hp, hu, hr⟩)⟩⟩

end Store

/-- A check reports the named base types that nothing declares, whatever it is asked before and
after. -/
theorem Compilation.reportsMissing_checked (s : Snapshot) (qs later : List Query)
    (k base : TypeKey) :
    ((create s).after (qs ++ .checkAll :: later)).store.ReportsMissing k base ↔
      base ∈ s.project.named k ∧ s.project.declares base = false := by
  have hreached := reached_after s (qs ++ .checkAll :: later)
  cases ht : ((create s).after (qs ++ .checkAll :: later)).store.find? k with
  | some t => exact hreached.consistent.reportsMissing_iff hreached.accounted ht
  | none =>
    -- a key that is not settled by a check is not visible, so that nothing is named for it
    constructor
    · rintro ⟨file, hr⟩
      obtain ⟨t, ht', -⟩ := (hreached.consistent.mem_reports_iff hreached.accounted).1 hr
      cases ht.symm.trans ht'
    · rintro ⟨hnamed, -⟩
      rw [← Project.map_filter_explicit_links] at hnamed
      obtain ⟨link, hlink, rfl⟩ := List.mem_map.1 hnamed
      have hvisible := Catalog.mem_visibleKeys_of_linksTo
        (List.mem_map_of_mem (List.mem_filter.1 hlink).1)
      have hsome := isSome_of_checked s qs later k hvisible
      rw [ht] at hsome
      cases hsome

/-- The order of the files affects orders only. Let two snapshots with both options off hold the
same files and the same references, and let them be asked whatever they are asked. Every key has the
same origin, members and base types in both, but for the order of each, and a check reports the same
missing base types. A key that no two files declare has them in the same order, too, and is of the
same kind. -/
theorem file_order_affects_orders_only (s s' : Snapshot)
    (hfiles : ∀ i, s'.project.files.find? i = s.project.files.find? i)
    (hreferences : s'.project.references = s.project.references)
    (hoptions : s.project.options = {}) (hoptions' : s'.project.options = {})
    (qs qs' later later' : List Query) :
    let c := (Compilation.create s).after qs
    let c' := (Compilation.create s').after qs'
    let checked := (Compilation.create s).after (qs ++ .checkAll :: later)
    let checked' := (Compilation.create s').after (qs' ++ .checkAll :: later')
    (∀ k, (c'.describe k).Rearranges (c.describe k)) ∧
    (∀ k base, checked'.store.ReportsMissing k base ↔ checked.store.ReportsMissing k base) ∧
    ∀ k, (s.project.files.toList.filter (·.declares k)).length ≤ 1 →
      (c'.describe k).unplaced = (c.describe k).unplaced := by
  intro c c' checked checked'
  have hperm := Roster.find?_eq_iff_perm.1 hfiles
  refine ⟨fun k => ?_, fun k base => ?_, fun k hk => ?_⟩
  · rw [Compilation.describe_after, Compilation.describe_after]
    exact Project.rearranges_content hperm hreferences hoptions hoptions' k
  · have hbases := (Project.rearranges_content hperm hreferences hoptions hoptions' k).bases
    rw [Project.bases_content hoptions, Project.bases_content hoptions'] at hbases
    rw [Compilation.reportsMissing_checked, Compilation.reportsMissing_checked, hbases.mem_iff,
      Project.declares_eq_of_perm hperm hreferences]
  · rw [Compilation.describe_after, Compilation.describe_after]
    exact Project.unplaced_content_of_length_le_one hperm hreferences hoptions hoptions' hk

/-- A class in one file and a struct of the same name in another, with one base type in common. The
files are listed in the given order. -/
def Snapshot.listed (names : List String) : Snapshot :=
  initial.updateAll (names.map fun name => .addFile ⟨name,
    if name = "a.cs" then [⟨"", "A", .classType, [], [⟨"", "B", 0⟩, ⟨"", "Base", 0⟩], [], true⟩]
    else [⟨"", "A", .structType, [], [⟨"", "Base", 0⟩], [], true⟩,
      ⟨"", "B", .classType, [], [], [], false⟩]⟩)

/-- The kind is that of the first declaration, so the other order makes it another one. -/
theorem file_order_affects_orders_only_swapped :
    let s := Snapshot.listed ["a.cs", "b.cs"]
    let s' := Snapshot.listed ["b.cs", "a.cs"]
    let c := (Compilation.create s).after []
    let c' := (Compilation.create s').after [.resolve ⟨"", "B", 0⟩]
    let checked' := (Compilation.create s').after [.resolve ⟨"", "B", 0⟩, .checkAll]
    (∀ i, s'.project.files.find? i = s.project.files.find? i) ∧
    s'.project.references = s.project.references ∧
    s.project.options = {} ∧ s'.project.options = {} ∧
    (c'.describe ⟨"", "A", 0⟩).Rearranges (c.describe ⟨"", "A", 0⟩) ∧
    (c'.describe ⟨"", "A", 0⟩).kind? ≠ (c.describe ⟨"", "A", 0⟩).kind? ∧
    checked'.store.ReportsMissing ⟨"", "A", 0⟩ ⟨"", "Base", 0⟩ ∧
    (s.project.files.toList.filter (·.declares ⟨"", "B", 0⟩)).length ≤ 1 ∧
    (c'.describe ⟨"", "B", 0⟩).unplaced = (c.describe ⟨"", "B", 0⟩).unplaced := by
  intro s s' c c' checked'
  have hperm : s'.project.files.toList.Perm s.project.files.toList := by decide +kernel
  have hfiles := Roster.find?_eq_iff_perm.2 hperm
  have hreferences : s'.project.references = s.project.references := Roster.ext rfl
  have hone : (s.project.files.toList.filter (·.declares ⟨"", "B", 0⟩)).length ≤ 1 := by
    decide +kernel
  have hmissing : ((Compilation.create s).after [.checkAll]).store.ReportsMissing
      ⟨"", "A", 0⟩ ⟨"", "Base", 0⟩ := ⟨some "a.cs", by decide +kernel⟩
  obtain ⟨hrearranges, hchecked, hsame⟩ :=
    file_order_affects_orders_only s s' hfiles hreferences rfl rfl [] [.resolve ⟨"", "B", 0⟩] [] []
  exact ⟨hfiles, hreferences, rfl, rfl, hrearranges _, by decide +kernel,
    (hchecked _ _).2 hmissing, hone, hsame _ hone⟩

end TypeCatalog
