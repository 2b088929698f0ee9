import TypeCatalog.Proofs.Independence

/-!
# Updates of references

Source declarations come before exports, so an update of references changes nothing for a key that
is declared in source. References of new identities go behind all others, where they are searched
last: they leave what is declared as it is, and only give a meaning to keys that had none.
-/

namespace TypeCatalog

def Update.onReferences : Update → Bool
  | .addReferences _ | .removeReferences _ => true
  | _ => false

namespace Project

variable {p : Project} {k : TypeKey}

/-- The declarations in source decide what a key is, whatever the references are. -/
theorem content_edit_of_declared {u : Update} (hu : u.onReferences)
    (hk : k ∈ (Catalog.ofProject p).index.keys) : (p.edit u).content k = p.content k := by
  have hedit : (p.edit u).files = p.files ∧ (p.edit u).options = p.options := by
    cases u <;> first | exact ⟨rfl, rfl⟩ | cases hu
  have hparts : (p.edit u).partsOf k = p.partsOf k := by rw [partsOf, hedit.1, partsOf]
  rw [DeclIndex.mem_keys_iff, DeclIndex.declarations_eq] at hk
  obtain ⟨first, rest, hp⟩ := List.exists_cons_of_ne_nil (show p.partsOf k ≠ [] from hk)
  unfold content
  rw [hparts, hp, hedit.2]

/-- A key is unresolved exactly if nothing declares it. -/
theorem origin_content_eq_unresolved_iff :
    (p.content k).origin = .unknown .unresolved ↔ p.declares k = false := by
  rw [← Catalog.outline?_ofProject_eq_none_iff, Catalog.outline?_eq, content]
  cases p.partsOf k with
  | cons first rest => simp
  | nil => cases (p.exporter? k).bind fun a => (a.find? k).map (a, ·) <;> simp

theorem exporter?_eq_none (hk : p.declares k = false) : p.exporter? k = none := by
  rw [declares, Bool.or_eq_false_iff] at hk
  exact List.find?_eq_none.2 (List.any_eq_false.1 hk.2)

section Added

variable {refs : List Assembly} (h : ∀ a ∈ refs, a.name ∉ p.references.identities)
include h

/-- An added reference is searched after those that were there before. -/
theorem exporter?_addReferences : (p.edit (.addReferences refs)).exporter? k =
    (p.exporter? k).or ((Roster.insertAll ∅ refs).toList.find? (·.exports.any (·.key = k))) := by
  rw [exporter?, edit, Roster.toList_insertAll h, List.find?_append, exporter?]

theorem exporter?_addReferences_of_declares (hk : p.declares k = true) (hp : p.partsOf k = []) :
    (p.edit (.addReferences refs)).exporter? k = p.exporter? k := by
  rw [exporter?_addReferences h]
  cases hx : p.exporter? k with
  | some a => rfl
  | none =>
    have hnone : (Catalog.ofProject p).outline? k = none := by rw [Catalog.outline?_eq, hp, hx]; rfl
    rw [Catalog.outline?_ofProject_eq_none_iff, hk] at hnone
    cases hnone

/-- What is declared stays as it is. Nothing but a key that was not declared can get a meaning, and
then it is an export of an added reference. -/
theorem content_addReferences (k : TypeKey) :
    (p.edit (.addReferences refs)).content k = p.content k ∨
      p.declares k = false ∧ ∃ a ∈ refs, (a.find? k).isSome ∧
        ((p.edit (.addReferences refs)).content k).origin = .assembly a.name := by
  have hparts : (p.edit (.addReferences refs)).partsOf k = p.partsOf k := rfl
  unfold content
  rw [hparts]
  cases hp : p.partsOf k with
  | cons first rest => exact .inl rfl
  | nil =>
    cases hk : p.declares k with
    | true =>
      rw [exporter?_addReferences_of_declares h hk hp]
      exact .inl rfl
    | false =>
      -- only now are the added references searched
      rw [exporter?_addReferences h, exporter?_eq_none hk, Option.none_or]
      cases ha : (Roster.insertAll ∅ refs).toList.find? (·.exports.any (·.key = k)) with
      | none => exact .inl rfl
      | some a =>
        have hmem : a ∈ refs :=
          (Roster.of_mem_insertAll (List.mem_of_find?_eq_some ha)).resolve_right (by simp)
        have hexports : a.exports.any (·.key = k) = true := by simpa using List.find?_some ha
        have hsome : (a.find? k).isSome := List.find?_isSome.2 (List.any_eq_true.1 hexports)
        obtain ⟨d, hd⟩ := Option.isSome_iff_exists.1 hsome
        exact .inr ⟨rfl, a, hmem, hsome, by simp [hd]⟩

theorem declares_addReferences {base : TypeKey} (hb : p.declares base = true) :
    (p.edit (.addReferences refs)).declares base = true := by
  rw [declares, Bool.or_eq_true] at hb ⊢
  refine hb.imp_right fun hany => ?_
  rw [edit, Roster.toList_insertAll h, List.any_append, hany, Bool.true_or]

theorem named_addReferences (hk : p.declares k = true) :
    (p.edit (.addReferences refs)).named k = p.named k := by
  have hparts : (p.edit (.addReferences refs)).partsOf k = p.partsOf k := rfl
  unfold named
  rw [hparts]
  cases hp : p.partsOf k with
  | cons first rest => rfl
  | nil => rw [exporter?_addReferences_of_declares h hk hp]

/-- A named base type that was declared is still declared. -/
theorem dueMissing_addReferences_sublist (hk : p.declares k = true) :
    ((p.edit (.addReferences refs)).dueMissing k).Sublist (p.dueMissing k) := by
  rw [dueMissing, named_addReferences h hk]
  refine (List.monotone_filter_right _ fun base hb => ?_).map _
  cases hd : p.declares base with
  | false => rfl
  | true => rwa [declares_addReferences h hd] at hb

end Added

theorem subject_of_mem_dueAnyway {d : Diagnostic} (h : d ∈ p.dueAnyway k) : d.subject = k := by
  rw [dueAnyway, List.mem_append, List.mem_append] at h
  rcases h with (h | h) | h
  · exact (of_mem_dueDuplicates h).2
  · exact (of_mem_dueConflicts h).2
  · exact (of_mem_dueMissing h).2

end Project

/-- What a log has on a visible key after a check, but for cycles, is what is due on it. -/
theorem Compilation.perm_withCode_subject (s : Snapshot) (qs later : List Query) {code : String}
    (hcode : code ≠ "W0102") {k : TypeKey} (hk : k ∈ (Catalog.ofProject s.project).visibleKeys) :
    ((((create s).after (qs ++ .checkAll :: later)).diagnostics.withCode code).filter
      (·.subject = k)).Perm ((s.project.dueAnyway k).filter (·.code = some code)) := by
  have hlog := (perm_withCode_checked s qs later hcode).filter (·.subject = k)
  have hothers : ∀ j ∈ (Catalog.ofProject s.project).visibleKeys, id j ≠ id k →
      (s.project.dueAnyway j).filter (·.subject = k) = [] := fun j _ hj =>
    List.filter_eq_nil_iff.2 fun d hd => by simpa [Project.subject_of_mem_dueAnyway hd] using hj
  have hown : (s.project.dueAnyway k).filter (·.subject = k) = s.project.dueAnyway k :=
    List.filter_eq_self.2 fun d hd => by simp [Project.subject_of_mem_dueAnyway hd]
  have hkeys : ((Catalog.ofProject s.project).visibleKeys.map id).Nodup := by
    simpa using Catalog.nodup_visibleKeys _
  rwa [List.filter_comm, List.filter_flatMap, flatMap_eq_of_mem hkeys hk hothers, hown] at hlog

/-- References extend a project conservatively. Whatever an update does to them, a key that is
declared in source stays what it is. References of new identities change nothing that was declared
before: if a key changes, it was unresolved and is now an export of one of them. On a key that was
visible before, a check reports no missing base type that it did not report before. -/
theorem references_extend (s : Snapshot) (qs qs' later later' : List Query) :
    let c := (Compilation.create s).after qs
    let log := ((Compilation.create s).after (qs ++ .checkAll :: later)).diagnostics
    (∀ u : Update, u.onReferences → ∀ k ∈ (Catalog.ofProject s.project).index.keys,
      ((Compilation.create (s.update u)).after qs').describe k = c.describe k) ∧
    ∀ refs : List Assembly, (∀ a ∈ refs, a.name ∉ s.project.references.identities) →
      let s' := s.update (.addReferences refs)
      let c' := (Compilation.create s').after qs'
      let log' := ((Compilation.create s').after (qs' ++ .checkAll :: later')).diagnostics
      (∀ k, c'.describe k = c.describe k ∨ (c.describe k).origin = .unknown .unresolved ∧
        ∃ a ∈ refs, (a.find? k).isSome ∧ (c'.describe k).origin = .assembly a.name) ∧
      ∀ k ∈ (Catalog.ofProject s.project).visibleKeys,
        ((log'.withCode "W0101").filter (·.subject = k)).Subperm
          ((log.withCode "W0101").filter (·.subject = k)) := by
  intro c log
  constructor
  · intro u hu k hk
    rw [Compilation.describe_after, Compilation.describe_after]
    exact Project.content_edit_of_declared hu hk
  intro refs h s' c' log'
  constructor
  · intro k
    rw [Compilation.describe_after, Compilation.describe_after,
      Project.origin_content_eq_unresolved_iff]
    exact Project.content_addReferences h k
  · intro k hk
    have hdeclared := Catalog.mem_visibleKeys_ofProject.1 hk
    have hk' : k ∈ (Catalog.ofProject s'.project).visibleKeys :=
      Catalog.mem_visibleKeys_ofProject.2 (Project.declares_addReferences h hdeclared)
    have hcode : "W0101" ≠ "W0102" := by decide
    have hlog := Compilation.perm_withCode_subject s qs later hcode hk
    have hlog' := Compilation.perm_withCode_subject s' qs' later' hcode hk'
    have hmissing : ∀ p : Project,
        (p.dueAnyway k).filter (·.code = some "W0101") = p.dueMissing k :=
      fun p => by simp [Project.filter_dueAnyway]
    rw [hmissing] at hlog hlog'
    have hsub := (Project.dueMissing_addReferences_sublist h hdeclared).subperm
    exact hlog'.subperm.trans (hsub.trans hlog.symm.subperm)

/-- A class with two base types, one of which the only reference exports. -/
def Snapshot.linked : Snapshot :=
  initial.updateAll [
    .addFile ⟨"a.cs", [⟨"", "A", .classType, [], [⟨"", "Lib", 0⟩, ⟨"", "Extra", 0⟩], [], false⟩]⟩,
    .addReferences [⟨⟨"First", ⟨1, 0, 0, 0⟩⟩, [⟨"", "Lib", .classType, [], [], [], false⟩]⟩]]

/-- A second reference exports both base types: the missing one is found in it, and the other one
stays. The class stays, too, where the first reference is removed. -/
theorem references_extend_second :
    let second : Assembly := ⟨⟨"Second", ⟨1, 0, 0, 0⟩⟩,
      [⟨"", "Lib", .structType, [], [], [], false⟩, ⟨"", "Extra", .classType, [], [], [], false⟩]⟩
    let s' := Snapshot.linked.update (.addReferences [second])
    let s'' := Snapshot.linked.update (.removeReferences [⟨"First", ⟨1, 0, 0, 0⟩⟩])
    let qs := [.resolve ⟨"", "A", 0⟩]
    let qs' := [.allTypes]
    let c := (Compilation.create .linked).after qs
    let c' := (Compilation.create s').after qs'
    let c'' := (Compilation.create s'').after qs'
    let log := ((Compilation.create .linked).after (qs ++ [.checkAll])).diagnostics
    let log' := ((Compilation.create s').after (qs' ++ [.checkAll])).diagnostics
    ⟨"", "A", 0⟩ ∈ (Catalog.ofProject Snapshot.linked.project).index.keys ∧
    c''.describe ⟨"", "A", 0⟩ = c.describe ⟨"", "A", 0⟩ ∧
    (∀ a ∈ [second], a.name ∉ Snapshot.linked.project.references.identities) ∧
    c'.describe ⟨"", "Lib", 0⟩ = c.describe ⟨"", "Lib", 0⟩ ∧
    (c'.describe ⟨"", "Extra", 0⟩).origin = .assembly second.name ∧
    ((log'.withCode "W0101").filter (·.subject = ⟨"", "A", 0⟩)).Subperm
      ((log.withCode "W0101").filter (·.subject = ⟨"", "A", 0⟩)) := by
  intro second s' s'' qs qs' c c' c'' log log'
  have hA : ⟨"", "A", 0⟩ ∈ (Catalog.ofProject Snapshot.linked.project).index.keys := by
    decide +kernel
  have hvisible : ⟨"", "A", 0⟩ ∈ (Catalog.ofProject Snapshot.linked.project).visibleKeys := by
    decide +kernel
  have hnew : ∀ a ∈ [second], a.name ∉ Snapshot.linked.project.references.identities := by decide
  obtain ⟨hsource, hadded⟩ := references_extend .linked qs qs' [] []
  obtain ⟨hdescribe, hreports⟩ := hadded [second] hnew
  have hlib : (c.describe ⟨"", "Lib", 0⟩).origin ≠ .unknown .unresolved := by decide +kernel
  have hextra : c'.describe ⟨"", "Extra", 0⟩ ≠ c.describe ⟨"", "Extra", 0⟩ := by decide +kernel
  have hstays := (hdescribe ⟨"", "Lib", 0⟩).resolve_right fun h => hlib h.1
  obtain ⟨-, a, ha, -, horigin⟩ := (hdescribe ⟨"", "Extra", 0⟩).resolve_left hextra
  rw [List.mem_singleton.1 ha] at horigin
  exact ⟨hA, hsource _ rfl _ hA, hnew, hstays, horigin, hreports _ hvisible⟩

end TypeCatalog
